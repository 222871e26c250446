import Mathlib.Data.List.Perm.Basic
import ProductLine.Encoding.Merging
import ProductLine.Proofs.Encoding.Groups
import ProductLine.Proofs.Formula.View
import ProductLine.Proofs.Model.Ancestry

/-!
The simple encoding is exact: its conjuncts hold together just when the nodes that are present form
a selection of the model and the constraints hold with every repeated feature seen as its clones.
-/
namespace ProductLine

namespace Placed

def present (a : Assignment) (p : Placed) : Bool :=
  (p.spread none).occurrences.any fun o => o.term.isTrue a

def standing (p : Placed) : Standing :=
  ⟨⟨p.feature.name, p.sort⟩, (p.spread none).occurrences.map Occurrence.symbol⟩

end Placed

namespace FeatureModel

def shows (m : FeatureModel) (a : Assignment) (n : NodeId) : Bool :=
  (m.placed n).toOption.any (·.present a)

def cloneView (m : FeatureModel) : View :=
  ((m.nodes.toList.filterMap fun n => (m.placed n.id).toOption).filter
    fun p => p.node.isRepeated).map Placed.standing

structure Selection (m : FeatureModel) (a : Assignment) : Prop where
  roots : ∀ (n : NodeId) (node : Node), n ∈ m.roots → m.nodes[n.index]? = some node →
    node.mandatory = true → m.shows a n = true
  parents : ∀ p n : NodeId, m.IsParent p n → m.shows a n = true → m.shows a p = true
  clones : ∀ (n : NodeId) (p : Placed) (k : Nat), m.placed n = .ok p →
    p.node.isRepeated = true → 0 < k → k < p.node.cardinality.upper.toNat →
    (p.occurrence (some (k + 1)) none).term.isTrue a = true →
    (p.occurrence (some k) none).term.isTrue a = true
  least : ∀ (q n : NodeId) (p : Placed), m.IsParent q n → m.placed n = .ok p →
    p.node.isRepeated = true → m.shows a q = true →
    p.node.cardinality.lower.toNat ≤ (p.spread none).occurrences.countP fun o => o.term.isTrue a
  balanced : ∀ (n : NodeId) (node : Node), m.nodes[n.index]? = some node → m.shows a n = true →
    m.Balanced node (m.shows a)

end FeatureModel

namespace Tree
variable {f : Formula} {t : Tree}

theorem mergedBelowEq (parent : Formula) (ts : List Tree) : mergedBelow parent ts =
    ts.flatMap fun c => c.place.conditions parent none ++ c.mergedBody := by
  induction ts with
  | nil => rfl
  | cons c ts ih =>
    rw [mergedBelow, ih, List.flatMap_cons]
    rfl

theorem mergedPerm (t : Tree) : t.mergedBody.Perm
    (t.subtrees.flatMap fun s => s.conjuncts s.place.merged none) := by
  induction t with
  | mk p ts ih =>
    have below : (mergedBelow p.merged ts).Perm
        (ts.flatMap (fun c => c.place.conditions p.merged none) ++ ts.flatMap mergedBody) := by
      rw [mergedBelowEq]
      exact (List.flatMap_append_perm ts _ _).symm
    rw [mergedBody, subtreesEq, List.flatMap_cons, List.flatMap_assoc, conjuncts, List.append_assoc]
    exact (below.trans ((List.Perm.flatMap_left ts ih).append_left _)).append_left _

theorem memMergedBody : f ∈ t.mergedBody ↔
    ∃ s, Part s t ∧ f ∈ s.conjuncts s.place.merged none := by
  simp only [(mergedPerm t).mem_iff, List.mem_flatMap, memSubtrees]

end Tree

section Exactness
variable {m : FeatureModel} {trees : List Tree} {a : Assignment}

def FeatureModel.Settled (m : FeatureModel) (a : Assignment) : Prop :=
  ∀ (n : NodeId) (p : Placed), m.placed n = .ok p → ∀ o ∈ (p.spread none).occurrences,
    o.term.Valued a

theorem Tree.Mirrors.shows {t : Tree} (mirrors : Tree.Mirrors m t) :
    m.shows a t.id = t.place.present a := by
  rw [FeatureModel.shows, mirrors.placed]
  rfl

theorem mergedShows (settled : m.Settled a) {s : Tree} (mirror : Tree.Mirrors m s) :
    s.place.merged.isTrue a = m.shows a s.id := by
  rw [mirror.shows, Placed.merged, Spread.termTrue (settled _ _ mirror.placed)]
  rfl

theorem Tree.Mirrors.exact {s : Tree} (mirrors : Tree.Mirrors m s) (narrow : m.Narrow)
    (settled : m.Settled a) :
    (∀ f ∈ s.conjuncts s.place.merged none, f.isTrue a = true) ↔
      (m.shows a s.id = true → m.Balanced s.place.node (m.shows a)) ∧
      ∀ c ∈ s.children, c.place.Follows a s.place.merged (c.place.spread none).occurrences := by
  have each := settled _ _ mirrors.placed
  rw [← mergedShows settled mirrors]
  refine conjunctsExact mirrors narrow (Spread.termValued each) ?_ ?_
  · intro c child
    exact settled _ _ (mirrors.deeper c child).placed
  · intro c child
    exact (mirrors.deeper c child).shows

structure Merging.Kept (m : FeatureModel) (trees : List Tree) (a : Assignment) : Prop where
  roots : ∀ t ∈ trees, t.place.node.mandatory = true → m.shows a t.id = true
  balanced : ∀ t ∈ trees, ∀ s, Tree.Part s t → m.shows a s.id = true →
    m.Balanced s.place.node (m.shows a)
  follows : ∀ t ∈ trees, ∀ s, Tree.Part s t → ∀ c ∈ s.children,
    c.place.Follows a s.place.merged (c.place.spread none).occurrences

theorem rootSpread (w : WellFormed m) (tops : trees.map Tree.id = m.roots)
    (mirrors : ∀ t ∈ trees, Tree.Mirrors m t) {t : Tree} (member : t ∈ trees) :
    (t.place.spread none).occurrences = [t.place.occurrence none none] := by
  have root : t.id ∈ m.roots := tops ▸ List.mem_map.mpr ⟨t, member, rfl⟩
  obtain ⟨node, found, up⟩ := (w.linked.roots t.id).mp root
  have stored := (mirrors t member).stored
  cases Option.some.inj (stored.symm.trans found)
  simp [Placed.spread, Node.isRepeated, up, Spread.occurrences]

theorem Merging.keptExact (w : WellFormed m) (narrow : m.Narrow) (settled : m.Settled a)
    (tops : trees.map Tree.id = m.roots) (mirrors : ∀ t ∈ trees, Tree.Mirrors m t) :
    (∀ f ∈ trees.flatMap fun t => t.place.rootConjuncts ++ t.mergedBody, f.isTrue a = true) ↔
      Kept m trees a := by
  have exact : ∀ t ∈ trees, ∀ s, Tree.Part s t →
      ((∀ f ∈ s.conjuncts s.place.merged none, f.isTrue a = true) ↔
        (m.shows a s.id = true → m.Balanced s.place.node (m.shows a)) ∧
        ∀ c ∈ s.children, c.place.Follows a s.place.merged (c.place.spread none).occurrences) :=
    fun t member s part => (part.mirrors (mirrors t member)).exact narrow settled
  have root : ∀ t ∈ trees, m.shows a t.id = (t.place.occurrence none none).term.isTrue a := by
    intro t member
    rw [(mirrors t member).shows, Placed.present, rootSpread w tops mirrors member]
    simp
  constructor
  · intro all
    have own : ∀ t ∈ trees, ∀ s, Tree.Part s t →
        ∀ f ∈ s.conjuncts s.place.merged none, f.isTrue a = true := by
      intro t member s part f inside
      have listed := Tree.memMergedBody.mpr ⟨s, part, inside⟩
      exact all f (List.mem_flatMap.mpr ⟨t, member, List.mem_append_right _ listed⟩)
    refine ⟨fun t member mandatory => ?_, fun t member s part => ?_, fun t member s part => ?_⟩
    · rw [root t member]
      refine all _ (List.mem_flatMap.mpr ⟨t, member, List.mem_append_left _ ?_⟩)
      exact Placed.memRootConjuncts.mpr ⟨mandatory, rfl⟩
    · exact ((exact t member s part).mp (own t member s part)).1
    · exact ((exact t member s part).mp (own t member s part)).2
  · intro kept f listed
    obtain ⟨t, member, inside⟩ := List.mem_flatMap.mp listed
    rcases List.mem_append.mp inside with top | deeper
    · obtain ⟨mandatory, rfl⟩ := Placed.memRootConjuncts.mp top
      rw [← root t member]
      exact kept.roots t member mandatory
    · obtain ⟨s, part, own⟩ := Tree.memMergedBody.mp deeper
      exact (exact t member s part).mpr
        ⟨kept.balanced t member s part, kept.follows t member s part⟩
        f own

theorem forestLink (w : WellFormed m) (tops : trees.map Tree.id = m.roots)
    (mirrors : ∀ t ∈ trees, Tree.Mirrors m t) {q n : NodeId} (link : m.IsParent q n) :
    ∃ t ∈ trees, ∃ s, Tree.Part s t ∧ s.id = q ∧ ∃ c ∈ s.children, c.id = n ∧
      m.placed n = .ok c.place := by
  obtain ⟨above, stored⟩ := w.parentThere link
  obtain ⟨t, member, s, part, rfl⟩ := w.forestWhole tops mirrors stored
  have mirror := part.mirrors (mirrors t member)
  obtain ⟨node, found, up⟩ := link
  have place := mirror.stored
  have listed := (w.linked.children place n).mpr ⟨node, found, up⟩
  obtain ⟨c, child, rfl⟩ := mirror.childOf listed
  exact ⟨t, member, s, part, rfl, c, child, rfl, (mirror.deeper c child).placed⟩

theorem Merging.keptSelection (w : WellFormed m) (settled : m.Settled a)
    (tops : trees.map Tree.id = m.roots) (mirrors : ∀ t ∈ trees, Tree.Mirrors m t)
    (kept : Kept m trees a) : m.Selection a where
  roots := by
    intro n node root found mandatory
    obtain ⟨t, member, rfl⟩ := List.mem_map.mp (tops ▸ root)
    have stored := (mirrors t member).stored
    cases Option.some.inj (stored.symm.trans found)
    exact kept.roots t member mandatory
  parents := by
    intro q n link shown
    obtain ⟨t, member, s, part, rfl, c, child, rfl, -⟩ := forestLink w tops mirrors link
    have mirror := part.mirrors (mirrors t member)
    rw [(mirror.deeper c child).shows, Placed.present, List.any_eq_true] at shown
    obtain ⟨o, inside, selected⟩ := shown
    rw [← mergedShows settled mirror]
    exact (kept.follows t member s part c child).parents o inside selected
  clones := by
    intro n p k placed repeated positive short selected
    have stored := FeatureModel.placedNode placed
    obtain ⟨q, up⟩ : ∃ q, p.node.parent = some q := by
      simp only [Node.isRepeated, Bool.and_eq_true, Option.isSome_iff_exists] at repeated
      exact repeated.1
    obtain ⟨t, member, s, part, rfl, c, child, rfl, place⟩ :=
      forestLink w tops mirrors ⟨p.node, stored, up⟩
    cases place.symm.trans placed
    obtain ⟨k, rfl⟩ : ∃ i, k = i + 1 := ⟨k - 1, by omega⟩
    exact (kept.follows t member s part c child).steps k _ _
      (Placed.cloneAt repeated (Nat.lt_of_succ_lt short)) (Placed.cloneAt repeated short) selected
  least := by
    intro q n p link placed repeated shown
    obtain ⟨t, member, s, part, rfl, c, child, rfl, place⟩ := forestLink w tops mirrors link
    cases place.symm.trans placed
    rw [← mergedShows settled (part.mirrors (mirrors t member))] at shown
    exact (kept.follows t member s part c child).least shown repeated
  balanced := by
    intro n node found shown
    obtain ⟨t, member, s, part, rfl⟩ := w.forestWhole tops mirrors found
    have stored := (part.mirrors (mirrors t member)).stored
    cases Option.some.inj (stored.symm.trans found)
    exact kept.balanced t member s part shown

theorem Merging.selectionKept (w : WellFormed m) (settled : m.Settled a)
    (tops : trees.map Tree.id = m.roots) (mirrors : ∀ t ∈ trees, Tree.Mirrors m t)
    (selection : m.Selection a) : Kept m trees a where
  roots := by
    intro t member mandatory
    have stored := (mirrors t member).stored
    exact selection.roots _ _ (tops ▸ List.mem_map.mpr ⟨t, member, rfl⟩) stored mandatory
  balanced := by
    intro t member s part shown
    have stored := (part.mirrors (mirrors t member)).stored
    exact selection.balanced _ _ stored shown
  follows := by
    intro t member s part c child
    have mirror := part.mirrors (mirrors t member)
    have below := mirror.deeper c child
    have link : m.IsParent s.id c.id :=
      w.childAfter mirror.placed (mirror.listed child)
    refine ⟨fun o inside selected => ?_, fun k q o before here selected => ?_,
      fun shown repeated => ?_⟩
    · rw [mergedShows settled mirror]
      refine selection.parents _ _ link ?_
      rw [below.shows, Placed.present, List.any_eq_true]
      exact ⟨o, inside, selected⟩
    · rcases Placed.occurrenceAt.mp here with ⟨repeated, short, rfl⟩ | ⟨-, first, -⟩
      · rcases Placed.occurrenceAt.mp before with ⟨-, -, rfl⟩ | ⟨single, -, -⟩
        · exact selection.clones _ _ (k + 1) below.placed repeated (by omega) short selected
        · cases single.symm.trans repeated
      · omega
    · rw [mergedShows settled mirror] at shown
      exact selection.least _ _ _ link below.placed repeated shown

theorem memCloneView (w : WellFormed m) {s : Standing} : s ∈ m.cloneView ↔
    ∃ n p, m.placed n = .ok p ∧ p.node.isRepeated = true ∧ p.standing = s := by
  simp only [FeatureModel.cloneView, List.mem_map, List.mem_filter, List.mem_filterMap,
    Array.mem_toList_iff, toOptionEqSome]
  constructor
  · intro h
    obtain ⟨p, ⟨⟨node, -, placed⟩, repeated⟩, same⟩ := h
    exact ⟨_, p, placed, repeated, same⟩
  · intro h
    obtain ⟨n, p, placed, repeated, same⟩ := h
    have stored := FeatureModel.placedNode placed
    have id := w.placedId placed
    exact ⟨p, ⟨⟨p.node, Array.mem_of_getElem? stored, id ▸ placed⟩, repeated⟩, same⟩

theorem memPlaced (w : WellFormed m) (tops : trees.map Tree.id = m.roots)
    (mirrors : ∀ t ∈ trees, Tree.Mirrors m t) {p : Placed} :
    p ∈ trees.flatMap Tree.places ↔ ∃ n, m.placed n = .ok p := by
  rw [List.mem_flatMap]
  constructor
  · intro h
    obtain ⟨t, member, inside⟩ := h
    obtain ⟨s, part, rfl⟩ := Tree.memPlaces.mp inside
    exact ⟨_, (part.mirrors (mirrors t member)).placed⟩
  · intro h
    obtain ⟨n, placed⟩ := h
    obtain ⟨t, member, s, part, rfl⟩ :=
      w.forestWhole tops mirrors (FeatureModel.placedNode placed)
    have mirror := part.mirrors (mirrors t member)
    cases mirror.placed.symm.trans placed
    exact ⟨t, member, Tree.memPlaces.mpr ⟨s, part, rfl⟩⟩

def FeatureModel.RepeatedPlaces (m : FeatureModel) (places : List Placed) : Prop :=
  ∀ p, p ∈ places ↔ ∃ n, m.placed n = .ok p ∧ p.node.isRepeated = true

theorem repeatedPlaces (w : WellFormed m) (tops : trees.map Tree.id = m.roots)
    (mirrors : ∀ t ∈ trees, Tree.Mirrors m t) :
    m.RepeatedPlaces ((trees.flatMap Tree.places).filter fun p => p.node.isRepeated) := by
  intro p
  rw [List.mem_filter, memPlaced w tops mirrors, exists_and_right]

section Restating
variable {places : List Placed} {p : Placed} {n : NodeId} {g : Formula}

theorem mergedValue (settled : m.Settled a) (placed : m.placed n = .ok p) :
    p.merged.evaluate a = some (p.standing.among.any fun v => v.selected.isTrue a) := by
  have each := settled n p placed
  rw [Placed.merged, (Spread.termValued each).evaluateEq, Spread.termTrue each, Placed.standing,
    List.any_map]
  rfl

theorem replacementTargets : ∀ pair ∈ places.map Placed.replacement,
    ∃ v : Variable, pair.1 = v.selected :=
  List.forall_mem_map.mpr fun _ _ => ⟨_, rfl⟩

theorem replacementFound (w : WellFormed m) (once : m.PlacedOnce)
    (repeated : m.RepeatedPlaces places)
    (placed : m.placed n = .ok p) (isRepeated : p.node.isRepeated = true)
    (test : p.standing.own.selected.same g = true) :
    Formula.firstReplacement (places.map Placed.replacement) g = some p.merged := by
  have unique : ∀ q ∈ places, q.replacement.1.same g = true → q = p := by
    intro q listed same
    obtain ⟨n', placed', -⟩ := (repeated q).mp listed
    exact w.placeOfName once placed' placed (Variable.selectedName same test)
  have found := findUnique unique ((repeated p).mpr ⟨n, placed, isRepeated⟩) test
  rw [Formula.firstReplacement, List.find?_map]
  simp only [Function.comp_def, found]
  rfl

theorem replacementMissing (w : WellFormed m)
    (repeated : m.RepeatedPlaces places)
    (absent : ∀ s ∈ m.cloneView, ¬ s.own.selected.same g = true) :
    Formula.firstReplacement (places.map Placed.replacement) g = none := by
  rw [Formula.firstReplacement, Option.map_eq_none_iff, List.find?_eq_none]
  intro pair listed same
  obtain ⟨p, inside, rfl⟩ := List.mem_map.mp listed
  obtain ⟨n, placed, isRepeated⟩ := (repeated p).mp inside
  exact absent _ ((memCloneView w).mpr ⟨n, p, placed, isRepeated, rfl⟩) same

theorem restateExact (w : WellFormed m) (once : m.PlacedOnce) (settled : m.Settled a)
    (repeated : m.RepeatedPlaces places)
    {c : Constraint} {f : Formula} (restated : Merging.restate places c = .ok f) :
    f.evaluate a = m.cloneView.reads a c.formula := by
  unfold Merging.restate at restated
  dsimp only at restated
  split at restated
  · cases restated
  rename_i unmentioned
  cases restated
  have atoms : ∀ g : Formula, g.isAtom = false →
      Formula.firstReplacement (places.map Placed.replacement) g = none :=
    fun _ => firstReplacementAtoms replacementTargets
  rw [Formula.evaluateMeaning, Formula.substituteMeaning atoms, View.reads]
  refine Formula.meaningCongr fun g inside atom => ?_
  rw [← Formula.evaluateMeaning, View.atom]
  cases search : m.cloneView.find? (·.own.selected.same g) with
  | some s =>
    have test := List.find?_some search
    obtain ⟨n, p, placed, isRepeated, rfl⟩ := (memCloneView w).mp (List.mem_of_find?_eq_some search)
    rw [replacementFound w once repeated placed isRepeated test, Option.getD_some]
    exact mergedValue settled placed
  | none =>
    have lookup := replacementMissing w repeated (List.find?_eq_none.mp search)
    rw [lookup, Option.getD_none]
    -- a repeated feature in what stays would still be mentioned, which the restatement refuses
    refine (View.comparedOutside fun t term v var => List.find?_eq_none.mpr ?_).symm
    intro s listed named
    obtain ⟨n, p, placed, isRepeated, rfl⟩ := (memCloneView w).mp listed
    have name : p.feature.name = v.name := by simpa [Placed.standing] using named
    have mentioned := mentions (Formula.substituteKeeps atoms inside atom lookup) term var
    rw [← name] at mentioned
    exact List.find?_eq_none.mp unmentioned p ((repeated p).mpr ⟨n, placed, isRepeated⟩) mentioned

end Restating

/-- Whenever a model can be merged, the conjuncts hold together just when the present nodes are a
selection and every constraint holds as seen with the clones. -/
theorem mergeExact (built : Built m) (once : m.PlacedOnce) (narrow : m.Narrow) {g : Merging}
    (merged : m.merge = .ok g) (settled : m.Settled a) :
    (∀ f ∈ g.conjuncts, f.evaluate a = some true) ↔
      m.Selection a ∧ ∀ c ∈ m.constraints, m.cloneView.reads a c.formula = some true := by
  have w := built.wellFormed
  obtain ⟨trees, grown, rest⟩ := bindEqOk.mp merged
  obtain ⟨restated, each, last⟩ := bindEqOk.mp rest
  cases pureEqOk.mp last
  obtain ⟨tops, mirrors⟩ := w.forestMirrors grown
  have body := Merging.keptExact w narrow settled tops mirrors
  simp only [Formula.isTrueIff] at body
  rw [List.forall_mem_append, body]
  refine and_congr ?_ ?_
  · constructor
    · intro kept
      exact Merging.keptSelection w settled tops mirrors kept
    · intro selection
      exact Merging.selectionKept w settled tops mirrors selection
  · rw [mapMEqOk] at each
    have repeated := repeatedPlaces w tops mirrors
    constructor
    · intro all c inside
      obtain ⟨f, listed, done⟩ := forall₂Left each (Array.mem_toList_iff.mpr inside)
      rw [← restateExact w once settled repeated done]
      exact all f listed
    · intro all f listed
      obtain ⟨c, inside, done⟩ := forall₂Right each listed
      rw [restateExact w once settled repeated done]
      exact all c (Array.mem_toList_iff.mp inside)

end Exactness

namespace Example

def bothSlots : Assignment :=
  .ofList [("Server", .bool true), ("Slot_1", .bool true), ("Slot_2", .bool true),
    ("Speed", .int 7), ("Backup", .bool true)]

theorem rackMerges : Built rack ∧ rack.PlacedOnce ∧ rack.Narrow ∧ rack.Settled bothSlots ∧
    ∃ g, rack.merge = .ok g ∧ (∀ f ∈ g.conjuncts, f.evaluate bothSlots = some true) ∧
      rack.Selection bothSlots ∧
      ∀ c ∈ rack.constraints, rack.cloneView.reads bothSlots c.formula = some true := by
  have once : rack.PlacedOnce := by decide
  have narrow : rack.Narrow := by decide
  have settled : rack.Settled bothSlots := by
    have each : ∀ i < 4, (rack.placed ⟨i⟩).toOption.all (fun p =>
        (p.spread none).occurrences.all fun o => (o.term.evaluate bothSlots).isSome) = true := by
      decide +kernel
    intro n p placed o inside
    have known := each n.index (storedBelow (FeatureModel.placedNode placed))
    rw [placed] at known
    simp only [Except.toOption, Option.all_some, List.all_eq_true] at known
    exact Option.isSome_iff_exists.mp (known o inside)
  have checked : rack.merge.toOption.any (fun g =>
      g.conjuncts.all fun f => f.evaluate bothSlots == some true) = true := by decide +kernel
  obtain ⟨g, merged⟩ : ∃ g, rack.merge = .ok g := by
    cases merged : rack.merge with
    | ok g => exact ⟨g, rfl⟩
    | error failure =>
      rw [merged] at checked
      cases checked
  rw [merged] at checked
  simp only [Except.toOption, Option.any_some, List.all_eq_true, beq_iff_eq] at checked
  exact ⟨rackBuilt, once, narrow, settled, g, merged, checked,
    (mergeExact rackBuilt once narrow merged settled).mp checked⟩

end Example
end ProductLine
