import ProductLine.Context
import ProductLine.Proofs.Model.WellFormed

/-!
The order of nodes up and down the forest. In a well-formed model a walk up meets exactly the nodes
above, and the context of a node is the nearest repeated node at or above it.
-/
namespace ProductLine
open Relation (ReflTransGen TransGen)

namespace FeatureModel

def IsParent (m : FeatureModel) (p n : NodeId) : Prop :=
  ∃ node, m.nodes[n.index]? = some node ∧ node.parent = some p

abbrev Above (m : FeatureModel) (a n : NodeId) : Prop := TransGen m.IsParent a n

abbrev Within (m : FeatureModel) (a n : NodeId) : Prop := ReflTransGen m.IsParent a n

theorem parentUnique {m : FeatureModel} {p q n : NodeId} (hp : m.IsParent p n)
    (hq : m.IsParent q n) : p = q := by
  obtain ⟨node, found, up⟩ := hp
  obtain ⟨node', found', up'⟩ := hq
  cases found.symm.trans found'
  exact Option.some.inj (up.symm.trans up')

theorem repeatsEqTrue {m : FeatureModel} {n : NodeId} {node : Node}
    (found : m.nodes[n.index]? = some node) : m.repeats n = node.isRepeated := by
  simp [repeats, found]

theorem repeatsParent {m : FeatureModel} {n : NodeId} (repeated : m.repeats n = true) :
    ∃ q, m.IsParent q n := by
  obtain ⟨node, found, many⟩ := (Option.any_eq_true _ _).mp repeated
  simp only [Node.isRepeated, Bool.and_eq_true, Option.isSome_iff_exists] at many
  exact many.1.imp fun q above => ⟨node, found, above⟩

end FeatureModel

namespace WellFormed
variable {m : FeatureModel} {n : NodeId} {node : Node}

theorem parentBefore (w : WellFormed m) {p : NodeId} (up : m.IsParent p n) :
    p.index < n.index := by
  obtain ⟨node, found, up⟩ := up
  exact w.linked.parents found up

theorem parentThere (w : WellFormed m) {p : NodeId} (up : m.IsParent p n) :
    ∃ above, m.nodes[p.index]? = some above := by
  obtain ⟨node, found, up⟩ := up
  have before := w.linked.parents found up
  have inside := storedBelow found
  exact ⟨_, Array.getElem?_eq_getElem (by omega)⟩

theorem withinLe (w : WellFormed m) {a : NodeId} (within : m.Within a n) : a.index ≤ n.index := by
  induction within with
  | refl => exact Nat.le_refl _
  | tail _ up ih => exact Nat.le_trans ih (Nat.le_of_lt (w.parentBefore up))

theorem aboveBefore (w : WellFormed m) {a : NodeId} (above : m.Above a n) : a.index < n.index := by
  obtain ⟨p, within, up⟩ := TransGen.tail'_iff.mp above
  exact Nat.lt_of_le_of_lt (w.withinLe within) (w.parentBefore up)

theorem notWithinAbove (w : WellFormed m) {a : NodeId} (above : m.Above a n) : ¬ m.Within n a :=
  fun within => Nat.not_lt_of_le (w.withinLe within) (w.aboveBefore above)

theorem rootHighest (w : WellFormed m) {p : NodeId} (root : n ∈ m.roots) : ¬ m.IsParent p n := by
  intro up
  obtain ⟨node, found, up⟩ := up
  obtain ⟨node', found', top⟩ := (w.linked.roots n).mp root
  cases found.symm.trans found'
  cases up.symm.trans top

theorem rootSingle (w : WellFormed m) (root : n ∈ m.roots) : m.repeats n = false := by
  obtain ⟨node, found, top⟩ := (w.linked.roots n).mp root
  rw [FeatureModel.repeatsEqTrue found, Node.isRepeated, top]
  rfl

theorem downward (w : WellFormed m) {motive : NodeId → Prop}
    (root : ∀ n node, m.nodes[n.index]? = some node → node.parent = none → motive n)
    (child : ∀ n p, m.IsParent p n → motive p → motive n)
    (n : NodeId) (node : Node) (found : m.nodes[n.index]? = some node) : motive n := by
  obtain ⟨i⟩ := n
  induction i using Nat.strongRecOn generalizing node with
  | ind i earlier =>
    cases up : node.parent with
    | none => exact root _ node found up
    | some p =>
      have link : m.IsParent p ⟨i⟩ := ⟨node, found, up⟩
      obtain ⟨above, stored⟩ := w.parentThere link
      exact child _ p link (earlier p.index (w.parentBefore link) above stored)

theorem climbSteps (w : WellFormed m) {i s t : Nat} {node : Node} (found : m.nodes[i]? = some node)
    (hs : i ≤ s) (ht : i ≤ t) : m.climb s node = m.climb t node := by
  induction i using Nat.strongRecOn generalizing s t node with
  | ind i earlier =>
    cases up : node.parent with
    | none => cases s <;> cases t <;> simp [FeatureModel.climb, up]
    | some p =>
      have before := w.linked.parents found up
      obtain ⟨above, stored⟩ := w.parentThere (n := ⟨i⟩) ⟨node, found, up⟩
      have fetched : m.node p = .ok above := fetchEqOk.mpr stored
      obtain ⟨s, rfl⟩ : ∃ s', s = s' + 1 := ⟨s - 1, by omega⟩
      obtain ⟨t, rfl⟩ : ∃ t', t = t' + 1 := ⟨t - 1, by omega⟩
      have same := earlier p.index before stored (s := s) (t := t) (by omega) (by omega)
      simp [FeatureModel.climb, up, fetched, same]

theorem lineageRoot (found : m.nodes[n.index]? = some node) (up : node.parent = none) :
    m.lineage n = ⟨[], none⟩ := by
  have fetched : m.node n = .ok node := fetchEqOk.mpr found
  unfold FeatureModel.lineage
  rw [fetched]
  cases m.nodes.size <;> simp [FeatureModel.climb, up]

theorem lineageChild (w : WellFormed m) {p : NodeId} (up : m.IsParent p n) :
    m.lineage n = ⟨p :: (m.lineage p).met, (m.lineage p).broken⟩ := by
  obtain ⟨above, stored⟩ := w.parentThere up
  have before := w.parentBefore up
  obtain ⟨node, found, up⟩ := up
  have inside := storedBelow found
  have fetched : m.node n = .ok node := fetchEqOk.mpr found
  have fetchedAbove : m.node p = .ok above := fetchEqOk.mpr stored
  obtain ⟨k, size⟩ : ∃ k, m.nodes.size = k + 1 := ⟨m.nodes.size - 1, by omega⟩
  have same := w.climbSteps stored (s := k) (t := m.nodes.size) (by omega) (by omega)
  simp only [FeatureModel.lineage, fetched, fetchedAbove]
  rw [size, FeatureModel.climb, ← size, up]
  simp only [fetchedAbove, same]

theorem lineageWhole (w : WellFormed m) (found : m.nodes[n.index]? = some node) :
    (m.lineage n).broken = none ∧ ∀ a, a ∈ (m.lineage n).met ↔ m.Above a n := by
  refine w.downward (motive := fun n => (m.lineage n).broken = none ∧
    ∀ a, a ∈ (m.lineage n).met ↔ m.Above a n) ?_ ?_ n node found
  · intro n node found up
    rw [lineageRoot found up]
    refine ⟨rfl, fun a => ⟨fun h => (nomatch h), fun above => ?_⟩⟩
    obtain ⟨p, -, node', found', up'⟩ := TransGen.tail'_iff.mp above
    cases found.symm.trans found'
    cases up.symm.trans up'
  · intro n p up ih
    rw [w.lineageChild up]
    refine ⟨ih.1, fun a => ?_⟩
    rw [List.mem_cons, ih.2]
    constructor
    · intro h
      have within := Relation.reflTransGen_iff_eq_or_transGen.mpr (h.imp Eq.symm id)
      exact TransGen.tail'_iff.mpr ⟨p, within, up⟩
    · intro h
      obtain ⟨q, within, up'⟩ := TransGen.tail'_iff.mp h
      cases FeatureModel.parentUnique up up'
      exact (Relation.reflTransGen_iff_eq_or_transGen.mp within).imp Eq.symm id

theorem isAncestorOk (w : WellFormed m) (a : NodeId) (found : m.nodes[n.index]? = some node) :
    ∃ answer, m.isAncestor a n = .ok answer ∧ (answer = true ↔ m.Above a n) := by
  obtain ⟨whole, met⟩ := w.lineageWhole found
  unfold FeatureModel.isAncestor Lineage.any Lineage.nearest
  rw [whole]
  cases search : (m.lineage n).met.find? (· == a) with
  | none =>
    refine ⟨false, rfl, ?_⟩
    have absent := List.find?_eq_none.mp search
    simp only [Bool.false_eq_true, false_iff, ← met]
    intro inside
    exact absent a inside (by simp)
  | some x =>
    have same : x = a := by simpa using List.find?_some search
    subst same
    exact ⟨true, rfl, by simpa using (met x).mp (List.mem_of_find?_eq_some search)⟩

theorem repeatedAtRoot (found : m.nodes[n.index]? = some node) (up : node.parent = none) :
    m.repeatedAt n = .ok none := by
  have fetched : m.node n = .ok node := fetchEqOk.mpr found
  simp [FeatureModel.repeatedAt, FeatureModel.isRepeated, fetched, Node.isRepeated, up,
    lineageRoot found up, Lineage.nearest, bind, Except.bind, Functor.map, Except.map]

theorem repeatedAtChild (w : WellFormed m) {p : NodeId} (up : m.IsParent p n) :
    m.repeatedAt n = if m.repeats n then .ok (some n) else m.repeatedAt p := by
  obtain ⟨above, stored⟩ := w.parentThere up
  have line := w.lineageChild up
  obtain ⟨node, found, -⟩ := up
  have fetched : m.node n = .ok node := fetchEqOk.mpr found
  have fetchedAbove : m.node p = .ok above := fetchEqOk.mpr stored
  simp only [FeatureModel.repeatedAt, FeatureModel.isRepeated, fetched, fetchedAbove, line,
    FeatureModel.repeatsEqTrue found, bind, Except.bind, Functor.map, Except.map, pure, Except.pure]
  cases node.isRepeated
  · simp only [Bool.false_eq_true, if_false, Lineage.nearest, List.find?_cons,
      FeatureModel.repeatsEqTrue stored]
    cases above.isRepeated <;> rfl
  · rfl

theorem repeatedAtOk (w : WellFormed m) (found : m.nodes[n.index]? = some node) :
    ∃ own, m.repeatedAt n = .ok own ∧
      (∀ c, own = some c → m.repeats c = true ∧ m.Within c n) ∧
      ∀ c, m.repeats c = true → (m.Within c n ↔ ∃ o, own = some o ∧ m.Within c o) := by
  refine w.downward (motive := fun n => ∃ own, m.repeatedAt n = .ok own ∧
      (∀ c, own = some c → m.repeats c = true ∧ m.Within c n) ∧
      ∀ c, m.repeats c = true →
        (m.Within c n ↔ ∃ o, own = some o ∧ m.Within c o)) ?_ ?_ n node found
  · intro n node found up
    refine ⟨none, repeatedAtRoot found up, by simp, fun c repeated => ?_⟩
    simp only [reduceCtorEq, false_and, exists_false, iff_false]
    intro within
    rcases (ReflTransGen.cases_tail_iff _ _ _).mp within with rfl | ⟨p, -, node', found', up'⟩
    · rw [FeatureModel.repeatsEqTrue found] at repeated
      simp [Node.isRepeated, up] at repeated
    · cases found.symm.trans found'
      cases up.symm.trans up'
  · intro n p up ih
    rw [w.repeatedAtChild up]
    by_cases repeated : m.repeats n = true
    · rw [if_pos repeated]
      refine ⟨some n, rfl, ?_, fun c _ => by simp⟩
      intro c same
      cases same
      exact ⟨repeated, .refl⟩
    · rw [if_neg repeated]
      obtain ⟨own, answered, lowest, others⟩ := ih
      refine ⟨own, answered, fun c same => ?_, fun c hc => ?_⟩
      · exact ⟨(lowest c same).1, (lowest c same).2.tail up⟩
      · rw [← others c hc]
        constructor
        · intro within
          rcases (ReflTransGen.cases_tail_iff _ _ _).mp within with rfl | ⟨q, within, up'⟩
          · exact absurd hc repeated
          · exact FeatureModel.parentUnique up up' ▸ within
        · intro within
          exact within.tail up

end WellFormed
end ProductLine
