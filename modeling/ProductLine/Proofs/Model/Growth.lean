import Mathlib.Data.List.Nodup
import ProductLine.Model.Forest
import ProductLine.Proofs.Model.Ancestry

/-!
The forest of a well-formed model. Its trees mirror the nodes: each part holds a node with its
feature, and its children are the node's children in order, however deep. It grows whenever no
placed feature is a text.
-/
namespace ProductLine

namespace Feature
variable {f : Feature} {name : String} {v : Variable}

theorem sortEqOk {s : ValueSort} : f.sort = .ok s ↔ f.type.sort? = some s := by
  unfold sort
  cases f.type.sort? <;> simp

theorem symbolEqOk : f.symbol name = .ok v ↔ f.type.sort? = some v.sort ∧ name = v.name := by
  obtain ⟨own, sort⟩ := v
  simp only [symbol, mapEqOk, sortEqOk, Variable.mk.injEq]
  constructor
  · intro h
    obtain ⟨_, sorted, same, rfl⟩ := h
    exact ⟨sorted, same⟩
  · intro h
    exact ⟨sort, h.1, h.2, rfl⟩

theorem plainEqOk {g : Formula} : f.plainFormula = .ok g ↔
    ∃ s, f.type.sort? = some s ∧ (Variable.mk f.name s).selected = g := by
  simp only [plainFormula, formula, mapEqOk, symbolEqOk]
  constructor
  · intro h
    obtain ⟨v, ⟨sorted, name⟩, test⟩ := h
    exact ⟨v.sort, sorted, name ▸ test⟩
  · intro h
    obtain ⟨s, sorted, test⟩ := h
    exact ⟨_, ⟨sorted, rfl⟩, test⟩

end Feature

theorem FeatureModel.placedEqOk {m : FeatureModel} {n : NodeId} {p : Placed} :
    m.placed n = .ok p ↔ m.nodes[n.index]? = some p.node ∧
      m.features[p.node.feature.index]? = some p.feature ∧ p.feature.type.sort? = some p.sort := by
  unfold placed
  simp only [bindEqOk, pureEqOk, node, feature, fetchEqOk, Feature.sortEqOk]
  obtain ⟨node, feature, sort⟩ := p
  constructor
  · intro h
    obtain ⟨_, stored, _, named, _, typed, last⟩ := h
    cases last
    exact ⟨stored, named, typed⟩
  · intro h
    exact ⟨node, h.1, feature, h.2.1, sort, h.2.2, rfl⟩

theorem FeatureModel.placedNode {m : FeatureModel} {n : NodeId} {p : Placed}
    (placed : m.placed n = .ok p) : m.nodes[n.index]? = some p.node :=
  (placedEqOk.mp placed).1

namespace Tree

def id (t : Tree) : NodeId := t.place.node.id

inductive Mirrors (m : FeatureModel) : Tree → Prop
  | mk {p : Placed} {ts : List Tree} (place : m.placed p.node.id = .ok p)
      (children : ts.map id = p.node.children) (below : ∀ t ∈ ts, Mirrors m t) :
      Mirrors m (.mk p ts)

namespace Mirrors
variable {m : FeatureModel} {t : Tree}

theorem placed (mirrors : Mirrors m t) : m.placed t.id = .ok t.place := by
  cases mirrors with
  | mk place children below => exact place

theorem children (mirrors : Mirrors m t) : t.children.map id = t.place.node.children := by
  cases mirrors with
  | mk place children below => exact children

theorem deeper (mirrors : Mirrors m t) : ∀ c ∈ t.children, Mirrors m c := by
  cases mirrors with
  | mk place children below => exact below

theorem stored (mirrors : Mirrors m t) : m.nodes[t.id.index]? = some t.place.node :=
  FeatureModel.placedNode mirrors.placed

theorem listed (mirrors : Mirrors m t) {c : Tree} (child : c ∈ t.children) :
    c.id ∈ t.place.node.children :=
  mirrors.children ▸ List.mem_map.mpr ⟨c, child, rfl⟩

theorem childOf (mirrors : Mirrors m t) {n : NodeId} (listed : n ∈ t.place.node.children) :
    ∃ c ∈ t.children, c.id = n :=
  List.mem_map.mp (mirrors.children ▸ listed)

end Mirrors

inductive Part : Tree → Tree → Prop
  | whole {t : Tree} : Part t t
  | inside {s c t : Tree} (child : c ∈ t.children) (deeper : Part s c) : Part s t

namespace Part
variable {r s t : Tree}

theorem extend (part : Part s t) (child : r ∈ s.children) : Part r t := by
  induction part with
  | whole => exact .inside child .whole
  | inside above _ ih => exact .inside above ih

theorem split : Part s t ↔ s = t ∨ ∃ c ∈ t.children, Part s c := by
  constructor
  · intro part
    cases part with
    | whole => exact .inl rfl
    | inside child deeper => exact .inr ⟨_, child, deeper⟩
  · intro h
    rcases h with rfl | ⟨c, child, deeper⟩
    · exact .whole
    · exact .inside child deeper

theorem mirrors {m : FeatureModel} (part : Part s t) (whole : Mirrors m t) : Mirrors m s := by
  induction part with
  | whole => exact whole
  | inside child _ ih => exact ih (whole.deeper _ child)

end Part

mutual

def subtrees : Tree → List Tree
  | mk p ts => mk p ts :: subtreesAll ts

def subtreesAll : List Tree → List Tree
  | [] => []
  | t :: ts => t.subtrees ++ subtreesAll ts

end

theorem subtreesEq (t : Tree) : t.subtrees = t :: t.children.flatMap subtrees := by
  have all : ∀ ts, subtreesAll ts = ts.flatMap subtrees := by
    intro ts
    induction ts with
    | nil => rfl
    | cons t ts ih => rw [subtreesAll, ih, List.flatMap_cons]
  cases t with
  | mk p ts => rw [subtrees, all, children]

theorem memSubtrees {s t : Tree} : s ∈ t.subtrees ↔ Part s t := by
  induction t with
  | mk p ts ih =>
    rw [subtreesEq, List.mem_cons, List.mem_flatMap, Part.split]
    exact or_congr_right (exists_congr fun c => and_congr_right (ih c))

theorem placesSubtrees (t : Tree) : t.places = t.subtrees.map place := by
  induction t with
  | mk p ts ih =>
    rw [places, placesAllFlatMap, subtreesEq, List.map_cons, List.map_flatMap]
    exact congrArg _ (List.flatMap_congr ih)

theorem memPlaces {p : Placed} {t : Tree} : p ∈ t.places ↔ ∃ s, Part s t ∧ s.place = p := by
  simp only [placesSubtrees, List.mem_map, memSubtrees]

end Tree

/-- No placed feature is a text. -/
def FeatureModel.Typed (m : FeatureModel) : Prop :=
  ∀ n ∈ m.nodes, m.features[n.feature.index]?.all (·.type != .text) = true

instance (m : FeatureModel) : Decidable m.Typed :=
  inferInstanceAs (Decidable (∀ n ∈ m.nodes, _ = true))

def FeatureModel.PlacedOnce (m : FeatureModel) : Prop := (m.nodes.toList.map Node.feature).Nodup

instance (m : FeatureModel) : Decidable m.PlacedOnce := inferInstanceAs (Decidable (List.Nodup _))

namespace WellFormed
variable {m : FeatureModel}

theorem placedExists (w : WellFormed m) (typed : m.Typed) {n : NodeId} {node : Node}
    (found : m.nodes[n.index]? = some node) : ∃ p, m.placed n = .ok p := by
  have inside := w.features found
  have stored := Array.getElem?_eq_getElem inside
  have known := typed node (Array.mem_of_getElem? found)
  rw [stored, Option.all_some, bne_iff_ne] at known
  obtain ⟨sort, sorted⟩ : ∃ s, (m.features[node.feature.index]).type.sort? = some s := by
    cases kind : (m.features[node.feature.index]).type with
    | boolean => exact ⟨.boolean, rfl⟩
    | integer => exact ⟨.integer, rfl⟩
    | float => exact ⟨.float, rfl⟩
    | text => exact absurd kind known
  exact ⟨⟨node, _, sort⟩, FeatureModel.placedEqOk.mpr ⟨found, stored, sorted⟩⟩

theorem placedId (w : WellFormed m) {n : NodeId} {p : Placed} (placed : m.placed n = .ok p) :
    p.node.id = n :=
  w.linked.ids (FeatureModel.placedNode placed)

theorem featureOfName (w : WellFormed m) {f g : FeatureId} {feature feature' : Feature}
    (known : m.features[f.index]? = some feature) (known' : m.features[g.index]? = some feature')
    (same : feature.name = feature'.name) : f = g := by
  have first := w.declared.names.mpr ⟨feature, known, rfl⟩
  have second := w.declared.names.mpr ⟨feature', known', rfl⟩
  rw [same] at first
  exact Option.some.inj (first.symm.trans second)

theorem placeOfName (w : WellFormed m) (once : m.PlacedOnce) {n n' : NodeId}
    {p p' : Placed} (placed : m.placed n = .ok p) (placed' : m.placed n' = .ok p')
    (names : p.feature.name = p'.feature.name) : p = p' := by
  obtain ⟨stored, known, -⟩ := FeatureModel.placedEqOk.mp placed
  obtain ⟨stored', known', -⟩ := FeatureModel.placedEqOk.mp placed'
  have features : p.node.feature = p'.node.feature := w.featureOfName known known' names
  have first : m.nodes.toList[n.index]? = some p.node := by simpa using stored
  have second : m.nodes.toList[n'.index]? = some p'.node := by simpa using stored'
  have node := List.inj_on_of_nodup_map once (List.mem_of_getElem? first)
    (List.mem_of_getElem? second) features
  have ids : n = n' := by rw [← w.placedId placed, ← w.placedId placed', node]
  subst ids
  exact Except.ok.inj (placed.symm.trans placed')

theorem placementOnce (w : WellFormed m) (once : m.PlacedOnce) {n : NodeId} {node : Node}
    (found : m.nodes[n.index]? = some node) : m.placement node.feature = some n := by
  have features : ∀ i, (m.nodes.toList.map Node.feature)[i]? = carried m.nodes i := by
    intro i
    simp [carried]
  refine (w.placed _ n).mpr ⟨by simp [carried, found], fun k before same => ?_⟩
  have first : (m.nodes.toList.map Node.feature)[k]? = some node.feature := (features k).trans same
  have own : (m.nodes.toList.map Node.feature)[n.index]? = some node.feature := by simp [found]
  have inside := (List.getElem?_eq_some_iff.mp first).1
  exact Nat.ne_of_lt before ((List.getElem?_inj inside once).mp (first.trans own.symm))

theorem childAfter (w : WellFormed m) {n c : NodeId} {p : Placed} (placed : m.placed n = .ok p)
    (child : c ∈ p.node.children) : m.IsParent n c := by
  have stored := FeatureModel.placedNode placed
  obtain ⟨node, found, up⟩ := (w.linked.children stored c).mp child
  exact ⟨node, found, up⟩

/-- `depth` is enough when it reaches past the last node: every step down leads to a later one. -/
theorem growMirrors (w : WellFormed m) {depth : Nat} {p : Placed} {t : Tree}
    (placed : m.placed p.node.id = .ok p) (enough : m.nodes.size ≤ p.node.id.index + depth)
    (grown : m.grow depth p = .ok t) : t.place = p ∧ Tree.Mirrors m t := by
  induction depth generalizing p t with
  | zero =>
    have inside := storedBelow (FeatureModel.placedNode placed)
    omega
  | succ depth ih =>
    obtain ⟨below, fetched, rest⟩ := bindEqOk.mp grown
    obtain ⟨ts, trees, last⟩ := bindEqOk.mp rest
    cases pureEqOk.mp last
    rw [mapMEqOk] at fetched trees
    have each : ∀ t ∈ ts, Tree.Mirrors m t := by
      intro t inside
      obtain ⟨q, hq, grown⟩ := forall₂Right trees inside
      obtain ⟨c, hc, placedQ⟩ := forall₂Right fetched hq
      have before := w.parentBefore (w.childAfter placed hc)
      have id := w.placedId placedQ
      exact (ih (id ▸ placedQ) (by rw [id]; omega) grown).2
    refine ⟨rfl, .mk placed ?_ each⟩
    have ids : below.map (·.node.id) = p.node.children := by
      have same := fetched.imp fun c q placedQ => (w.placedId placedQ).symm
      rwa [← List.forall₂_map_right_iff, List.forall₂_eq_eq_eq, eq_comm] at same
    have places : ts.map Tree.place = below := by
      have same : List.Forall₂ (fun q t => q = Tree.place t) below ts := by
        refine List.forall₂_iff_zip.mpr ⟨trees.length_eq, fun {q t} pair => ?_⟩
        have grown := List.forall₂_zip trees pair
        obtain ⟨c, hc, placedQ⟩ := forall₂Right fetched (List.of_mem_zip pair).1
        have before := w.parentBefore (w.childAfter placed hc)
        have id := w.placedId placedQ
        exact (ih (id ▸ placedQ) (by rw [id]; omega) grown).1.symm
      rwa [← List.forall₂_map_right_iff, List.forall₂_eq_eq_eq, eq_comm] at same
    rw [← ids, ← places, List.map_map]
    rfl

theorem growExists (w : WellFormed m) (typed : m.Typed) (depth : Nat) {p : Placed}
    (placed : m.placed p.node.id = .ok p) : ∃ t, m.grow depth p = .ok t := by
  induction depth generalizing p with
  | zero => exact ⟨_, rfl⟩
  | succ depth ih =>
    have children : ∀ c ∈ p.node.children, ∃ q, m.placed c = .ok q := by
      intro c inside
      obtain ⟨node, found, -⟩ := w.childAfter placed inside
      exact w.placedExists typed found
    obtain ⟨below, fetched⟩ := mapMExists children
    have deeper : ∀ q ∈ below, ∃ t, m.grow depth q = .ok t := by
      intro q inside
      obtain ⟨c, -, placedQ⟩ := forall₂Right (mapMEqOk.mp fetched) inside
      exact ih (w.placedId placedQ ▸ placedQ)
    obtain ⟨ts, trees⟩ := mapMExists deeper
    exact ⟨.mk p ts, bindEqOk.mpr ⟨below, fetched, bindEqOk.mpr ⟨ts, trees, rfl⟩⟩⟩

theorem treeMirrors (w : WellFormed m) {n : NodeId} {t : Tree} (grown : m.tree n = .ok t) :
    t.id = n ∧ Tree.Mirrors m t := by
  obtain ⟨p, placed, grown⟩ := bindEqOk.mp grown
  have id := w.placedId placed
  obtain ⟨place, mirrors⟩ := w.growMirrors (id ▸ placed) (by omega) grown
  exact ⟨by rw [Tree.id, place, id], mirrors⟩

theorem forestMirrors (w : WellFormed m) {trees : List Tree} (grown : m.forest = .ok trees) :
    trees.map Tree.id = m.roots ∧ ∀ t ∈ trees, Tree.Mirrors m t := by
  have each := mapMEqOk.mp grown
  constructor
  · have same := each.imp fun n t grown => (w.treeMirrors grown).1.symm
    rwa [← List.forall₂_map_right_iff, List.forall₂_eq_eq_eq, eq_comm] at same
  · intro t inside
    obtain ⟨n, -, grown⟩ := forall₂Right each inside
    exact (w.treeMirrors grown).2

theorem forestWhole (w : WellFormed m) {trees : List Tree} (tops : trees.map Tree.id = m.roots)
    (mirrors : ∀ t ∈ trees, Tree.Mirrors m t) {n : NodeId} {node : Node}
    (found : m.nodes[n.index]? = some node) :
    ∃ t ∈ trees, ∃ s, Tree.Part s t ∧ s.id = n := by
  refine w.downward (motive := fun n => ∃ t ∈ trees, ∃ s, Tree.Part s t ∧ s.id = n)
    ?_ ?_ n node found
  · intro n node found up
    have root := (w.linked.roots n).mpr ⟨node, found, up⟩
    obtain ⟨t, member, id⟩ := List.mem_map.mp (tops ▸ root)
    exact ⟨t, member, t, .whole, id⟩
  · intro n p up h
    obtain ⟨t, member, s, part, rfl⟩ := h
    obtain ⟨node, found, up⟩ := up
    have mirror := part.mirrors (mirrors t member)
    have stored := mirror.stored
    have child := (w.linked.children stored n).mpr ⟨node, found, up⟩
    obtain ⟨c, inside, id⟩ := mirror.childOf child
    exact ⟨t, member, c, part.extend inside, id⟩

theorem forestExists (w : WellFormed m) (typed : m.Typed) : ∃ trees, m.forest = .ok trees := by
  refine mapMExists fun n inside => ?_
  obtain ⟨node, found, -⟩ := (w.linked.roots n).mp inside
  obtain ⟨p, placed⟩ := w.placedExists typed found
  obtain ⟨t, grown⟩ := w.growExists typed m.nodes.size (w.placedId placed ▸ placed)
  exact ⟨t, bindEqOk.mpr ⟨p, placed, grown⟩⟩

end WellFormed
end ProductLine
