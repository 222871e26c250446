import ProductLine.Proofs.Encoding.Shape

/-!
Where a node has a single instance: as a whole if nothing repeated is at or above it, and below a
clone of the lowest repeated node at or above it. Otherwise it has several.
-/
namespace ProductLine
open Relation (ReflTransGen)

theorem FeatureModel.numbersSingle {m : FeatureModel} {n : NodeId} {node : Node}
    (found : m.nodes[n.index]? = some node) (single : m.repeats n = false) :
    (m.numbers n).length = 1 := by
  rw [repeatsEqTrue found] at single
  simp [numbers, found, Node.numbersLength, single]

theorem Node.upperSeveral {n : Node} (repeated : n.isRepeated = true) :
    2 ≤ n.cardinality.upper.toNat := by
  have many : n.cardinality.isRepeatable = true := by
    simp only [isRepeated, Bool.and_eq_true] at repeated
    exact repeated.2
  have above : (1 : UInt32) < n.cardinality.upper := of_decide_eq_true many
  exact UInt32.lt_iff_toNat_lt.mp above

theorem FeatureModel.numbersSeveral {m : FeatureModel} {n : NodeId} {node : Node}
    (found : m.nodes[n.index]? = some node) (repeated : m.repeats n = true) :
    2 ≤ (m.numbers n).length := by
  rw [repeatsEqTrue found] at repeated
  simpa [numbers, found, Node.numbersLength, repeated] using Node.upperSeveral repeated

namespace Rostered
variable {m : FeatureModel} {trees : List Tree} {r : Roster} {n p c : NodeId} {i j : Nat}
    {e : Entry}

theorem ofNodeSome (h : Rostered m trees r) {node : Node} (found : m.nodes[n.index]? = some node) :
    1 ≤ (r.ofNode n).length := by
  obtain ⟨i, e, there, id⟩ := h.nodeEntry found
  have inside : InstanceId.mk i ∈ r.ofNode n := h.ofNodeExact.mpr ⟨e, there, id⟩
  exact List.length_pos_of_mem inside

theorem ofNodeGrows (h : Rostered m trees r) (up : m.IsParent p n) :
    (r.ofNode p).length ≤ (r.ofNode n).length := by
  obtain ⟨node, found, -⟩ := id up
  rw [h.ofNodeLength up]
  refine Nat.le_mul_of_pos_right _ ?_
  cases repeated : m.repeats n with
  | true =>
    have := FeatureModel.numbersSeveral found repeated
    omega
  | false =>
    rw [FeatureModel.numbersSingle found repeated]
    exact Nat.one_pos

theorem ofNodeSeveral (h : Rostered m trees r) (repeated : m.repeats c = true)
    (within : m.Within c n) : 2 ≤ (r.ofNode n).length := by
  induction within with
  | refl =>
    obtain ⟨q, up⟩ := FeatureModel.repeatsParent repeated
    obtain ⟨node, found, -⟩ := id up
    obtain ⟨top, stored⟩ := h.wellFormed.parentThere up
    rw [h.ofNodeLength up]
    exact Nat.mul_le_mul (h.ofNodeSome stored) (FeatureModel.numbersSeveral found repeated)
  | tail _ up ih => exact Nat.le_trans ih (h.ofNodeGrows up)

theorem ofNodeAlone (h : Rostered m trees r) {node : Node} (found : m.nodes[n.index]? = some node)
    (single : ∀ c, m.Within c n → m.repeats c = false) : ∃ i, r.ofNode n = [i] := by
  have none : (n :: (m.lineage n).met).filter m.repeats = [] := by
    refine List.filter_eq_nil_iff.mpr fun a inside => ?_
    have within : m.Within a n := by
      rcases List.mem_cons.mp inside with rfl | met
      · exact .refl
      · exact (((h.wellFormed.lineageWhole found).2 a).mp met).to_reflTransGen
    simp [single a within]
  have count := h.ofNodeCount found
  rw [none] at count
  exact List.length_eq_one_iff.mp count

theorem entryPlainly (h : Rostered m trees r) (found : (Unrolling.entries trees)[i]? = some e)
    (single : ∀ c, m.Within c e.tree.id → m.repeats c = false) :
    e.occurrence = e.tree.place.occurrence none none := by
  -- On the position: parents come before what is below them.
  induction i using Nat.strongRecOn generalizing e with
  | ind i earlier =>
    cases up : e.parent with
    | none =>
      obtain ⟨t, -, seat⟩ := Unrolling.entryTop (List.mem_of_getElem? found) up
      rw [show e.occurrence = t.occurrence from congrArg Prod.snd seat,
        show e.tree = t from congrArg Prod.fst seat]
      rfl
    | some p =>
      obtain ⟨above, there, -, inside⟩ := Unrolling.parentEntry found up
      obtain ⟨above', there', link⟩ := h.stepUp found up
      cases there.symm.trans there'
      have plain := earlier p.index (Unrolling.parentBefore found up) there
        fun c within => single c (within.tail link)
      have own := single _ .refl
      rw [FeatureModel.repeatsEqTrue (h.mirror found).stored] at own
      rw [plain] at inside
      obtain ⟨k, position⟩ := List.mem_iff_getElem?.mp inside
      rcases Placed.occurrenceAt.mp position with ⟨repeated, -, -⟩ | ⟨-, -, same⟩
      · rw [own] at repeated
        cases repeated
      · exact same

theorem withinNodes (h : Rostered m trees r) {a b : InstanceId} (within : r.Within a b)
    {e : Entry} (found : (Unrolling.entries trees)[b.index]? = some e) :
    ∃ top, (Unrolling.entries trees)[a.index]? = some top ∧ m.Within top.tree.id e.tree.id ∧
      (top.tree.id = e.tree.id → a = b) := by
  induction within generalizing e with
  | refl => exact ⟨e, found, .refl, fun _ => rfl⟩
  | tail _ up ih =>
    obtain ⟨x, stored, above⟩ := up
    obtain ⟨e', found', rfl⟩ := h.instanceEntry stored
    cases found.symm.trans found'
    obtain ⟨q, there, link⟩ := h.stepUp found above
    obtain ⟨top, first, within, -⟩ := ih there
    refine ⟨top, first, within.tail link, fun same => ?_⟩
    exact absurd (same ▸ within) (h.wellFormed.notWithinAbove (.single link))

theorem aloneBelow (h : Rostered m trees r) (up : m.IsParent p n) (single : m.repeats n = false)
    {above : InstanceId} (instant : above ∈ r.ofNode p) :
    ∃ j, ∀ i, i ∈ r.ofNode n ∧ r.IsParent above i ↔ i = j := by
  obtain ⟨node, found, -⟩ := id up
  have one := h.underLength up instant
  rw [FeatureModel.numbersSingle found single] at one
  obtain ⟨j, alone⟩ := List.length_eq_one_iff.mp one
  refine ⟨j, fun i => ?_⟩
  rw [← List.mem_singleton, ← alone, Roster.under, Roster.memThose, h.sound.memOfNode]
  simp only [Bool.and_eq_true, beq_iff_eq]
  constructor
  · intro inside
    obtain ⟨⟨x, stored, here⟩, x', stored', parent⟩ := inside
    cases stored.symm.trans stored'
    exact ⟨x, stored, parent, here⟩
  · intro inside
    obtain ⟨x, stored, parent, here⟩ := inside
    exact ⟨⟨x, stored, here⟩, x, stored, parent⟩

theorem aloneInClone (h : Rostered m trees r) {clone : InstanceId} (instant : clone ∈ r.ofNode c)
    (within : m.Within c n) (lowest : ∀ x, m.repeats x = true → m.Within x n → m.Within x c) :
    ∃ j, ∀ i, i ∈ r.ofNode n ∧ r.Within clone i ↔ i = j := by
  induction within with
  | refl =>
    refine ⟨clone, fun i => ⟨fun inside => ?_, fun same => ?_⟩⟩
    · obtain ⟨e, found, rfl⟩ := h.ofNodeExact.mp instant
      obtain ⟨e', found', same⟩ := h.ofNodeExact.mp inside.1
      obtain ⟨top, first, -, alone⟩ := h.withinNodes inside.2 found'
      cases found.symm.trans first
      exact (alone same.symm).symm
    · rw [same]
      exact ⟨instant, .refl⟩
  | @tail p n within up ih =>
    obtain ⟨k, only⟩ := ih fun x repeated above => lowest x repeated (above.tail up)
    obtain ⟨listed, under⟩ := (only k).mpr rfl
    have below : m.Above c n := .tail' within up
    have single : m.repeats n = false := Bool.eq_false_iff.mpr fun repeated =>
      h.wellFormed.notWithinAbove below (lowest n repeated .refl)
    obtain ⟨j, alone⟩ := h.aloneBelow up single listed
    refine ⟨j, fun i => ?_⟩
    rw [← alone]
    refine and_congr_right fun inside => ⟨fun beyond => ?_, fun link => under.tail link⟩
    rcases (ReflTransGen.cases_tail_iff _ _ _).mp beyond with rfl | ⟨q, beyond, link⟩
    · obtain ⟨e, there, first⟩ := h.ofNodeExact.mp inside
      obtain ⟨e', there', second⟩ := h.ofNodeExact.mp instant
      cases there.symm.trans there'
      rw [← first, second] at below
      exact absurd .refl (h.wellFormed.notWithinAbove below)
    · obtain ⟨e, there, rfl⟩ := h.ofNodeExact.mp inside
      obtain ⟨x, stored, parent⟩ := id link
      cases (h.entryInstance there).symm.trans stored
      obtain ⟨top, first, link'⟩ := h.stepUp there parent
      cases FeatureModel.parentUnique link' up
      cases (only q).mp ⟨h.ofNodeExact.mpr ⟨top, first, rfl⟩, beyond⟩
      exact link

end Rostered
end ProductLine
