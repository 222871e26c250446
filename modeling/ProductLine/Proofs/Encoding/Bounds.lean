import ProductLine.Proofs.Encoding.Shape

/-!
How many instances of a node can be selected below one instance of its parent: never more than the
upper bound, and no fewer than the lower bound where the node is repeated. A node that is not
repeated is not asked for by its bounds, even if both are one.
-/
namespace ProductLine

structure Unrolling.Satisfied (u : Unrolling) (a : Assignment) : Prop where
  valued : ∀ x ∈ u.roster.instances, x.term.Valued a
  conjuncts : ∀ f ∈ u.conjuncts, f.evaluate a = some true

instance (f : Formula) (a : Assignment) : Decidable (f.Valued a) :=
  decidable_of_iff _ Option.isSome_iff_exists

instance (u : Unrolling) (a : Assignment) : Decidable (u.Satisfied a) :=
  decidable_of_iff ((∀ x ∈ u.roster.instances, x.term.Valued a) ∧
    ∀ f ∈ u.conjuncts, f.evaluate a = some true) ⟨fun h => ⟨h.1, h.2⟩, fun h => ⟨h.1, h.2⟩⟩

namespace Unrolling
variable {trees : List Tree} {a : Assignment}

theorem entryValued (valued : ∀ x ∈ (ofForest trees).roster.instances, x.term.Valued a) {i : Nat}
    {e : Entry} (found : (entries trees)[i]? = some e) : e.occurrence.term.Valued a :=
  valued _ (Array.mem_of_getElem? (entryStored found))

theorem childValued (valued : ∀ x ∈ (ofForest trees).roster.instances, x.term.Valued a) {i : Nat}
    {e : Entry} (found : (entries trees)[i]? = some e) {t : Tree} (child : t ∈ e.tree.children) :
    ∀ o ∈ (t.place.spread e.occurrence.suffix?).occurrences, o.term.Valued a := by
  intro o spread
  obtain ⟨j, e', found', -, -, rfl⟩ := childEntry found child spread
  exact entryValued valued found'

theorem memConditions {i : Nat} {e : Entry} (found : (entries trees)[i]? = some e) {t : Tree}
    (child : t ∈ e.tree.children) {f : Formula}
    (condition : f ∈ t.place.conditions e.occurrence.term e.occurrence.suffix?) :
    f ∈ (ofForest trees).conjuncts := by
  refine memConjuncts.mpr (.inr ⟨e, List.mem_of_getElem? found, ?_⟩)
  exact List.mem_append_right _ (List.mem_flatMap.mpr ⟨t, child, condition⟩)

end Unrolling

namespace Rostered
variable {m : FeatureModel} {trees : List Tree} {r : Roster} {i : Nat} {e : Entry} {c : NodeId}
  {child : Node}

theorem childTree (h : Rostered m trees r) (found : (Unrolling.entries trees)[i]? = some e)
    (stored : m.nodes[c.index]? = some child) (up : child.parent = some e.tree.id) :
    ∃ t ∈ e.tree.children, t.id = c ∧ t.place.node = child := by
  have mirror := h.mirror found
  have listed := (h.wellFormed.linked.children mirror.stored c).mpr ⟨child, stored, up⟩
  obtain ⟨t, below, rfl⟩ := mirror.childOf listed
  exact ⟨t, below, rfl, Option.some.inj ((mirror.deeper t below).stored.symm.trans stored)⟩

theorem countMost (h : Rostered m trees r) (found : (Unrolling.entries trees)[i]? = some e)
    (stored : m.nodes[c.index]? = some child) (up : child.parent = some e.tree.id)
    (chosen : InstanceId → Bool) :
    (r.under (some ⟨i⟩) c).countP chosen ≤ child.cardinality.upper.toNat := by
  have here : InstanceId.mk i ∈ r.ofNode e.tree.id := h.ofNodeExact.mpr ⟨e, found, rfl⟩
  have length := h.underLength ⟨child, stored, up⟩ here
  have numbers : m.numbers c = child.numbers := by simp [FeatureModel.numbers, stored]
  rw [numbers, Node.numbersLength] at length
  have positive := UInt32.le_iff_toNat_le.mp child.cardinality.positive
  have one : (1 : UInt32).toNat = 1 := rfl
  have few := List.countP_le_length (p := chosen) (l := r.under (some ⟨i⟩) c)
  split at length <;> omega

theorem countLeast {a : Assignment} (h : Rostered m trees (Unrolling.ofForest trees).roster)
    (satisfied : (Unrolling.ofForest trees).Satisfied a)
    (found : (Unrolling.entries trees)[i]? = some e) (stored : m.nodes[c.index]? = some child)
    (up : child.parent = some e.tree.id) (repeated : child.isRepeated = true)
    (selected : (Unrolling.ofForest trees).roster.selects a ⟨i⟩ = true) :
    child.cardinality.lower.toNat ≤ ((Unrolling.ofForest trees).roster.under (some ⟨i⟩) c).countP
      ((Unrolling.ofForest trees).roster.selects a) := by
  obtain ⟨t, below, rfl, rfl⟩ := h.childTree found stored up
  have follows := (Placed.conditionsExact (Unrolling.entryValued satisfied.valued found)
    (Unrolling.childValued satisfied.valued found below)).mp fun f condition =>
      Formula.isTrueIff.mpr (satisfied.conjuncts f (Unrolling.memConditions found below condition))
  rw [Unrolling.selectsEntry found] at selected
  rw [Unrolling.underChildCount found (h.wellFormed.childrenApart (h.mirror found)) below]
  exact follows.least selected repeated

end Rostered

/-- Below a selected instance, the instances of a child that are selected keep to its bounds, except
that a node taken exactly once can be left out. -/
theorem boundsKept {m : FeatureModel} (built : Built m) (typed : m.Typed) :
    ∃ u, m.unroll = .ok u ∧ ∀ a : Assignment, u.Satisfied a →
      ∀ (p : InstanceId) (x : Instance) (c : NodeId) (child : Node),
        u.roster.instances[p.index]? = some x → u.roster.selects a p = true →
        m.nodes[c.index]? = some child → child.parent = some x.node →
        (¬ (child.cardinality.lower = 1 ∧ child.cardinality.upper = 1) →
          child.cardinality.lower.toNat ≤
            (u.roster.under (some p) c).countP (u.roster.selects a)) ∧
        (u.roster.under (some p) c).countP (u.roster.selects a) ≤
          child.cardinality.upper.toNat := by
  obtain ⟨trees, unrolled, h⟩ := built.wellFormed.unrollOk typed
  refine ⟨_, unrolled, ?_⟩
  intro a satisfied p x c child there selected stored up
  obtain ⟨e, found, rfl⟩ := h.instanceEntry there
  refine ⟨fun notOne => ?_, h.countMost found stored up _⟩
  cases repeated : child.isRepeated with
  | true => exact h.countLeast satisfied found stored up repeated selected
  | false =>
    -- an upper bound of one leaves zero as the only other lower bound
    have single : ¬ 1 < child.cardinality.upper := by
      simpa [Node.isRepeated, up, Cardinality.isRepeatable] using repeated
    have ordered := child.cardinality.ordered
    have positive := child.cardinality.positive
    have zero : child.cardinality.lower = 0 := by grind
    simp [zero]

namespace Example

theorem rackBounds : Built rack ∧ rack.Typed ∧ ∃ u, rack.unroll = .ok u ∧ u.Satisfied oneSlot ∧
    u.roster.selects oneSlot ⟨0⟩ = true ∧
    1 ≤ (u.roster.under (some ⟨0⟩) ⟨1⟩).countP (u.roster.selects oneSlot) ∧
    (u.roster.under (some ⟨0⟩) ⟨1⟩).countP (u.roster.selects oneSlot) ≤ 2 := by
  have typed : rack.Typed := by decide
  obtain ⟨u, unrolled, kept⟩ := boundsKept rackBuilt typed
  have checked : rack.unroll.toOption.any (fun u => decide (u.Satisfied oneSlot) &&
      u.roster.selects oneSlot ⟨0⟩ && u.roster.instances[0]?.any (·.node == ⟨0⟩)) = true := by
    decide +kernel
  rw [unrolled] at checked
  simp only [Except.toOption, Option.any_some, Bool.and_eq_true, decide_eq_true_eq,
    Option.any_eq_true, beq_iff_eq] at checked
  obtain ⟨⟨satisfied, selected⟩, x, stored, node⟩ := checked
  have bounds := kept oneSlot satisfied ⟨0⟩ x ⟨1⟩ _ stored selected rfl (by rw [node]; rfl)
  exact ⟨rackBuilt, typed, u, unrolled, satisfied, selected, bounds.1 (by decide), bounds.2⟩

def bayCalls : List Call :=
  [.addRootFeature "Server", .makeMandatory ⟨0⟩, .addChildFeature ⟨0⟩ "Slot",
    .setCardinality ⟨1⟩ 1 1]

def bay : FeatureModel := (Call.makeAll bayCalls .empty).getD .empty

theorem bayBuilt : Built bay := by
  have made : Call.makeAll bayCalls .empty = some bay := rfl
  exact Built.empty.makeAll made

def emptyBay : Assignment := .ofList [("Server", .bool true), ("Slot", .bool false)]

/-- The one slot can be left out. -/
theorem bayLeftEmpty : Built bay ∧ bay.Typed ∧ ∃ u, bay.unroll = .ok u ∧ u.Satisfied emptyBay ∧
    ∃ (x : Instance) (child : Node), u.roster.instances[0]? = some x ∧
      u.roster.selects emptyBay ⟨0⟩ = true ∧ bay.nodes[1]? = some child ∧
      child.parent = some x.node ∧ child.cardinality.lower = 1 ∧
      (u.roster.under (some ⟨0⟩) ⟨1⟩).countP (u.roster.selects emptyBay) = 0 := by
  have typed : bay.Typed := by decide
  have checked : bay.unroll.toOption.any (fun u => decide (u.Satisfied emptyBay) &&
      u.roster.selects emptyBay ⟨0⟩ && u.roster.instances[0]?.any (·.node == ⟨0⟩) &&
      (u.roster.under (some ⟨0⟩) ⟨1⟩).countP (u.roster.selects emptyBay) == 0) = true := by
    decide +kernel
  obtain ⟨u, unrolled, checked⟩ := (Option.any_eq_true _ _).mp checked
  simp only [Bool.and_eq_true, decide_eq_true_eq, Option.any_eq_true, beq_iff_eq] at checked
  obtain ⟨⟨⟨satisfied, selected⟩, x, stored, node⟩, none⟩ := checked
  refine ⟨bayBuilt, typed, u, toOptionEqSome.mp unrolled, satisfied, x, _, stored, selected, rfl,
    ?_, rfl, none⟩
  rw [node]
  rfl

end Example
end ProductLine
