import ProductLine.Proofs.Encoding.Merged
import ProductLine.Proofs.Encoding.Owners
import ProductLine.Proofs.Encoding.Symmetry
import ProductLine.Proofs.Formula.Plain
import ProductLine.Proofs.Model.Traversal

/-!
Each need is stated once. In both encodings the conjuncts are the roots' own terms, the needs and
the rules of the owners; where identifiers are unambiguous, terms tell the nodes that they stand
for, so only one conjunct equals the need of an occurrence.
-/
namespace ProductLine

namespace Owners
variable {m : FeatureModel} {owners : List Owner} {w : Owner} {k : Seat} {tops fs : List Formula}
  (h : Owners m owners) (perm : fs.Perm (tops ++ owners.flatMap Owner.conjuncts))
  (alone : ∀ f ∈ tops, ∃ v : Variable, v.selected = f)
include h perm alone

theorem plain : ∀ f ∈ fs, f.Plain := by
  intro f listed g part
  rcases List.mem_append.mp (perm.mem_iff.mp listed) with top | own
  · obtain ⟨v, rfl⟩ := alone f top
    rw [v.selectedAtoms, List.mem_singleton] at part
    exact ⟨v, part.symm⟩
  · obtain ⟨w, inside, own⟩ := List.mem_flatMap.mp own
    rcases Tree.conjunctsAtoms own part with here | ⟨c, -, o, -, rfl⟩
    · obtain ⟨p, i, s, -, rfl⟩ := h.marked w inside g here
      exact ⟨_, rfl⟩
    · exact ⟨_, rfl⟩

theorem needOnce (well : WellFormed m) (once : m.PlacedOnce) (apart : m.NamesApart)
    (inside : w ∈ owners) (below : k ∈ w.seat.offspring) :
    (Formula.implies k.2.term w.term).OccursOnce fs := by
  have need : Formula.implies k.2.term w.term ∈ owners.flatMap Owner.needs :=
    List.mem_flatMap.mpr ⟨w, inside, List.mem_map.mpr ⟨k, below, rfl⟩⟩
  obtain ⟨before, after, split⟩ := List.append_of_mem need
  have distinct := h.needsNodup well once apart
  rw [split, List.nodup_middle, List.nodup_cons] at distinct
  have sorted := perm.trans ((Owner.allPerm owners).append_left tops)
  rw [split] at sorted
  have first : fs.Perm (.implies k.2.term w.term ::
      (before ++ after ++ (tops ++ owners.flatMap Owner.rules))) :=
    sorted.trans ((List.perm_append_comm_assoc ..).trans (List.perm_middle.append_right _))
  refine Formula.occursOnce first (h.plain perm alone) fun listed => ?_
  rcases List.mem_append.mp listed with other | listed
  · exact distinct.1 other
  · rcases List.mem_append.mp listed with top | rule
    · obtain ⟨v, same⟩ := alone _ top
      exact Variable.selectedAlone.1 _ _ same
    · obtain ⟨w', inside', rule⟩ := List.mem_flatMap.mp rule
      exact h.needUnruled well once apart inside below inside' rule

end Owners

section Encodings
variable {m : FeatureModel} {trees : List Tree} {r : Roster}

theorem rootsAlone : ∀ f ∈ trees.flatMap fun t => t.place.rootConjuncts,
    ∃ v : Variable, v.selected = f := by
  intro f listed
  obtain ⟨t, -, root⟩ := List.mem_flatMap.mp listed
  obtain ⟨-, rfl⟩ := Placed.memRootConjuncts.mp root
  exact ⟨_, rfl⟩

def Entry.owner (e : Entry) : Owner := ⟨e.seat, e.occurrence.term⟩

theorem Rostered.owners (h : Rostered m trees r) (once : m.PlacedOnce) (apart : m.NamesApart) :
    Owners m ((Unrolling.entries trees).map Entry.owner) where
  mirrors := List.forall_mem_map.mpr fun e inside => Unrolling.entriesMirror h.mirrors inside
  marked := by
    refine List.forall_mem_map.mpr fun e inside f part => ?_
    obtain ⟨i, found⟩ := List.mem_iff_getElem?.mp inside
    obtain ⟨index, suffix, same⟩ := entryOccurrence found
    rw [Entry.owner, Occurrence.termAtoms, List.mem_singleton] at part
    exact ⟨_, index, suffix, (h.mirror found).placed, by rw [part, same]⟩
  apart := by
    rw [List.map_map, List.nodup_iff_getElem?_ne_getElem?]
    intro i j before inside same
    rw [List.length_map] at inside
    have found := List.getElem?_eq_getElem (l := Unrolling.entries trees)
      (Nat.lt_trans before inside)
    have found' := List.getElem?_eq_getElem (l := Unrolling.entries trees) inside
    rw [List.getElem?_map, List.getElem?_map, found, found'] at same
    have positions := h.termOnce once apart found found' (Option.some.inj same)
    omega

theorem Rostered.needOnce (h : Rostered m trees r) (once : m.PlacedOnce) (apart : m.NamesApart)
    {i : Nat} {e : Entry} (found : (Unrolling.entries trees)[i]? = some e) {p : InstanceId}
    (up : e.parent = some p) : ∃ above, (Unrolling.entries trees)[p.index]? = some above ∧
      (Formula.implies e.occurrence.term above.occurrence.term).OccursOnce
        (Unrolling.ofForest trees).conjuncts := by
  obtain ⟨above, there, below⟩ := Unrolling.entryAbove found up
  have perm : (Unrolling.ofForest trees).conjuncts.Perm
      (trees.flatMap (fun t => t.place.rootConjuncts) ++
        ((Unrolling.entries trees).map Entry.owner).flatMap Owner.conjuncts) := by
    rw [List.flatMap_map]
    exact Unrolling.conjunctsPerm trees
  have owner : above.owner ∈ (Unrolling.entries trees).map Entry.owner :=
    List.mem_map.mpr ⟨above, List.mem_of_getElem? there, rfl⟩
  exact ⟨above, there, (h.owners once apart).needOnce perm rootsAlone h.wellFormed once apart owner
    below⟩

namespace Tree

def owner (t : Tree) : Owner := ⟨(t, t.occurrence), t.place.merged⟩

theorem listsEach {ts : List Tree} (each : ∀ t ∈ ts, m.Lists [t.id] (t.subtrees.map id)) :
    m.Lists (ts.map id) ((ts.flatMap subtrees).map id) := by
  induction ts with
  | nil => exact .nil
  | cons t ts ih =>
    rw [List.map_cons, List.flatMap_cons, List.map_append]
    exact (each t List.mem_cons_self).append
      (ih fun u inside => each u (List.mem_cons_of_mem _ inside))

theorem Mirrors.lists {t : Tree} (mirrors : Mirrors m t) : m.Lists [t.id] (t.subtrees.map id) := by
  induction t with
  | mk p ts ih =>
    have children : m.children p.node.id = .ok (ts.map id) :=
      FeatureModel.childrenEqOk.mpr ⟨_, mirrors.stored, mirrors.children.symm⟩
    have below := listsEach fun t child => ih t child (mirrors.deeper t child)
    have lists := FeatureModel.Lists.cons children below .nil
    rw [List.append_nil] at lists
    rw [subtreesEq]
    exact lists

end Tree

theorem WellFormed.subtreesOnce (w : WellFormed m) (tops : trees.map Tree.id = m.roots)
    (mirrors : ∀ t ∈ trees, Tree.Mirrors m t) :
    ((trees.flatMap Tree.subtrees).map Tree.id).Nodup := by
  have lists := Tree.listsEach fun t member => (mirrors t member).lists
  rw [tops] at lists
  have forward := w.linked.owned.listsForward (fun n top => ⟨n, top, .refl⟩)
    w.linked.owned.rootsAside lists
  refine forward.imp fun {a b} onward same => ?_
  subst same
  exact onward .refl

theorem mergedMarked {p : Placed} {n : NodeId} (placed : m.placed n = .ok p) {f : Formula}
    (part : f ∈ p.merged.atoms) : m.Marks f n := by
  obtain ⟨o, inside, rfl⟩ := Spread.memTermAtoms.mp part
  exact ⟨p, o.index, none, placed, by rw [← Placed.spreadOccurrence inside]⟩

theorem WellFormed.mergedOwners (w : WellFormed m) (once : m.PlacedOnce) (apart : m.NamesApart)
    (tops : trees.map Tree.id = m.roots) (mirrors : ∀ t ∈ trees, Tree.Mirrors m t) :
    Owners m ((trees.flatMap Tree.subtrees).map Tree.owner) := by
  have mirror : ∀ s ∈ trees.flatMap Tree.subtrees, Tree.Mirrors m s := by
    intro s inside
    obtain ⟨t, member, part⟩ := List.mem_flatMap.mp inside
    exact (Tree.memSubtrees.mp part).mirrors (mirrors t member)
  refine ⟨List.forall_mem_map.mpr mirror, List.forall_mem_map.mpr fun s inside f part =>
    mergedMarked (mirror s inside).placed part, ?_⟩
  rw [List.map_map]
  have distinct := w.subtreesOnce tops mirrors
  refine distinct.of_map.map_on fun s inside s' inside' same => ?_
  have terms : s.place.merged = s'.place.merged := same
  obtain ⟨o, -, part⟩ : ∃ o ∈ (s.place.spread none).occurrences, o.term ∈ s.place.merged.atoms :=
    s.place.spreadAtom none
  have here := mergedMarked (mirror s inside).placed part
  have there := mergedMarked (mirror s' inside').placed (terms ▸ part)
  exact List.inj_on_of_nodup_map distinct inside inside' (w.marksOnce once apart here there)

theorem WellFormed.mergedNeedOnce (w : WellFormed m) (once : m.PlacedOnce) (apart : m.NamesApart)
    (tops : trees.map Tree.id = m.roots) (mirrors : ∀ t ∈ trees, Tree.Mirrors m t) {n q : NodeId}
    {p : Placed} (placed : m.placed n = .ok p) (up : p.node.parent = some q) :
    ∃ above, m.placed q = .ok above ∧ ∀ o ∈ (p.spread none).occurrences,
      (Formula.implies o.term above.merged).OccursOnce
        (trees.flatMap fun t => t.place.rootConjuncts ++ t.mergedBody) := by
  have link : m.IsParent q n := ⟨p.node, FeatureModel.placedNode placed, up⟩
  obtain ⟨t, member, s, part, rfl, c, child, rfl, placed'⟩ := forestLink w tops mirrors link
  cases placed.symm.trans placed'
  refine ⟨s.place, (part.mirrors (mirrors t member)).placed, fun o inside => ?_⟩
  have perm : (trees.flatMap fun t => t.place.rootConjuncts ++ t.mergedBody).Perm
      (trees.flatMap (fun t => t.place.rootConjuncts) ++
        ((trees.flatMap Tree.subtrees).map Tree.owner).flatMap Owner.conjuncts) := by
    rw [List.flatMap_map, List.flatMap_assoc]
    refine (List.flatMap_append_perm trees _ _).symm.trans (List.Perm.append_left _ ?_)
    exact List.Perm.flatMap_left trees fun t _ => t.mergedPerm
  have owner : s.owner ∈ (trees.flatMap Tree.subtrees).map Tree.owner :=
    List.mem_map.mpr ⟨s, List.mem_flatMap.mpr ⟨t, member, Tree.memSubtrees.mpr part⟩, rfl⟩
  have below : (c, o) ∈ s.owner.seat.offspring := Seat.memOffspring.mpr ⟨child, inside⟩
  exact (w.mergedOwners once apart tops mirrors).needOnce perm rootsAlone w once apart owner below

end Encodings

namespace Placed

def plain (p : Placed) : Formula := (Variable.mk p.feature.name p.sort).selected

def clone (p : Placed) (i : Nat) : Formula :=
  (Variable.mk (p.feature.name ++ "_" ++ toString i) p.sort).selected

theorem occurrencePlain (p : Placed) : (p.occurrence none none).term = p.plain := by
  simp [plain, Occurrence.term, occurrence, identifier]

theorem occurrenceClone (p : Placed) (i : Nat) : (p.occurrence (some i) none).term = p.clone i := by
  simp [clone, Occurrence.term, occurrence, identifier, String.append_assoc]

theorem mergedEq (p : Placed) : p.merged = if p.node.isRepeated then
    .or ((List.range p.node.cardinality.upper.toNat).map fun i => p.clone (i + 1))
    else p.plain := by
  unfold merged spread
  split
  · simp only [Spread.term, List.map_map, Function.comp_def, occurrenceClone]
  · exact p.occurrencePlain

end Placed

/-- Where identifiers are unambiguous, the conjuncts of both encodings state once that an occurrence
needs its parent: in the full encoding for each instance, in the simple one for each node or
clone. -/
theorem needsOnce {m : FeatureModel} (built : Built m) (typed : m.Typed)
    (bare : m.constraints = #[]) (once : m.PlacedOnce) (apart : m.NamesApart) :
    (∃ u, m.unroll = .ok u ∧ ∀ (i : Nat) (x : Instance) (p : InstanceId),
      u.roster.instances[i]? = some x → x.parent = some p →
      ∃ y, u.roster.instances[p.index]? = some y ∧
        (Formula.implies x.term y.term).OccursOnce u.conjuncts) ∧
    ∃ g, m.merge = .ok g ∧ ∀ (n q : NodeId) (node : Node),
      m.nodes[n.index]? = some node → node.parent = some q →
      ∃ p above, m.placed n = .ok p ∧ m.placed q = .ok above ∧
        (above.merged = if above.node.isRepeated then
          .or ((List.range above.node.cardinality.upper.toNat).map fun i => above.clone (i + 1))
          else above.plain) ∧
        if node.isRepeated then ∀ i, 1 ≤ i → i ≤ node.cardinality.upper.toNat →
          (Formula.implies (p.clone i) above.merged).OccursOnce g.conjuncts
        else (Formula.implies p.plain above.merged).OccursOnce g.conjuncts := by
  have w := built.wellFormed
  constructor
  · obtain ⟨trees, unrolled, h⟩ := w.unrollOk typed
    refine ⟨_, unrolled, fun i x p stored up => ?_⟩
    obtain ⟨e, found, rfl⟩ := h.instanceEntry stored
    obtain ⟨above, there, occurs⟩ := h.needOnce once apart found up
    exact ⟨_, h.entryInstance there, occurs⟩
  · obtain ⟨trees, grown⟩ := w.forestExists typed
    obtain ⟨tops, mirrors⟩ := w.forestMirrors grown
    have merges : m.merge = .ok
        ⟨trees.flatMap (fun t => t.place.rootConjuncts ++ t.mergedBody) ++ [],
        .ofList ((trees.flatMap Tree.places).flatMap fun p =>
          (p.spread none).occurrences.map Occurrence.symbol)⟩ := by
      rw [FeatureModel.merge, grown, bare]
      rfl
    refine ⟨_, merges, fun n q node found up => ?_⟩
    obtain ⟨p, placed⟩ := w.placedExists typed found
    cases Option.some.inj (found.symm.trans (FeatureModel.placedNode placed))
    obtain ⟨above, placed', each⟩ := w.mergedNeedOnce once apart tops mirrors placed up
    refine ⟨p, above, placed, placed', above.mergedEq, ?_⟩
    rw [List.append_nil]
    cases repeated : p.node.isRepeated with
    | true =>
      rw [if_pos rfl]
      intro i low high
      obtain ⟨k, rfl⟩ : ∃ k, i = k + 1 := ⟨i - 1, by omega⟩
      have clone : (p.spread none).occurrences[k]? = some (p.occurrence (some (k + 1)) none) :=
        Placed.cloneAt repeated high
      exact p.occurrenceClone (k + 1) ▸ each _ (List.mem_of_getElem? clone)
    | false =>
      have single : p.occurrence none none ∈ (p.spread none).occurrences := by
        simp [Placed.spread, repeated, Spread.occurrences]
      exact p.occurrencePlain ▸ each _ single

namespace Example

theorem hallNeeds : Built hall ∧ hall.Typed ∧ hall.constraints = #[] ∧ hall.PlacedOnce ∧
    hall.NamesApart ∧ ∃ u g, hall.unroll = .ok u ∧ hall.merge = .ok g ∧
      (∀ (i : Nat) (x : Instance) (p : InstanceId), u.roster.instances[i]? = some x →
        x.parent = some p → ∃ y, u.roster.instances[p.index]? = some y ∧
          (Formula.implies x.term y.term).OccursOnce u.conjuncts) ∧
      ∃ p above, hall.placed ⟨2⟩ = .ok p ∧ hall.placed ⟨1⟩ = .ok above ∧
        above.merged = .or [above.clone 1, above.clone 2] ∧
        (Formula.implies (p.clone 1) above.merged).OccursOnce g.conjuncts ∧
        (Formula.implies (p.clone 2) above.merged).OccursOnce g.conjuncts := by
  have typed : hall.Typed := by decide
  have bare : hall.constraints = #[] := rfl
  have once : hall.PlacedOnce := by decide
  have apart : hall.NamesApart := FeatureModel.namesApart (by decide)
  obtain ⟨⟨u, unrolled, full⟩, g, merged, simple⟩ := needsOnce hallBuilt typed bare once apart
  obtain ⟨p, above, placed, placed', named, clones⟩ := simple ⟨2⟩ ⟨1⟩ _ rfl rfl
  refine ⟨hallBuilt, typed, bare, once, apart, u, g, unrolled, merged, full, p, above, placed,
    placed', ?_, clones 1 (by decide) (by decide), clones 2 (by decide) (by decide)⟩
  have rack : hall.nodes[1]?.map (fun n => (n.isRepeated, n.cardinality.upper.toNat)) =
      some (true, 2) := by decide
  rw [FeatureModel.placedNode placed'] at rack
  obtain ⟨repeated, upper⟩ := Prod.mk.inj (Option.some.inj rack)
  rw [repeated, upper] at named
  exact named

end Example
end ProductLine
