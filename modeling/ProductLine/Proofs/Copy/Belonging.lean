import ProductLine.Proofs.Copy.Presence
import ProductLine.Proofs.Encoding.Shape
import ProductLine.Proofs.Model.Order

/-!
Which features belong to a repeated node. A copy asks the context of a feature, not its place; in a
model that was built this comes to the same, since between a place and any repeated node above it
lies the context. Being above is being joined by lists of children.
-/
namespace ProductLine
open Relation (TransGen)

def FeatureModel.IsChild (m : FeatureModel) (p n : NodeId) : Prop :=
  ∃ children, m.children p = .ok children ∧ n ∈ children

section Belonging
variable {m : FeatureModel} {c n p : NodeId}

theorem WellFormed.childExact (w : WellFormed m) : m.IsChild p n ↔ m.IsParent p n := by
  constructor
  · intro child
    obtain ⟨children, listed, inside⟩ := child
    obtain ⟨above, found, rfl⟩ := FeatureModel.childrenEqOk.mp listed
    exact (w.linked.children found n).mp inside
  · intro up
    obtain ⟨above, found⟩ := w.parentThere up
    exact ⟨_, FeatureModel.childrenEqOk.mpr ⟨above, found, rfl⟩, (w.linked.children found n).mpr up⟩

theorem WellFormed.aboveExact (w : WellFormed m) : TransGen m.IsChild p n ↔ m.Above p n := by
  have same : m.IsChild = m.IsParent := funext₂ fun _ _ => propext w.childExact
  rw [same]

/-- A placed feature belongs to a repeated node just when its place is that node or lies below it,
and a node lies below those that lead to it through lists of children. -/
theorem belongsBelow (built : Built m) :
    (∀ c f x, m.repeats c = true → m.placement f = some x → ∃ own inside above,
      m.context f = .ok own ∧ (∀ r policy, (CopySource.mk m r policy).belongs c own = .ok inside) ∧
      m.isAncestor c x = .ok above ∧ (inside = true ↔ x = c ∨ above = true)) ∧
    ∀ a n, n.index < m.nodes.size → ∃ above, m.isAncestor a n = .ok above ∧
      (above = true ↔ TransGen m.IsChild a n) := by
  have w := built.wellFormed
  constructor
  · intro c f x repeated placed
    obtain ⟨node, there, -⟩ := w.placementNode placed
    obtain ⟨above, searched, met⟩ := w.isAncestorOk c there
    obtain ⟨own, inside, answered, belongs, exact⟩ := CopySource.belongsOk w repeated f
    refine ⟨own, inside, above, answered, belongs, searched, ?_⟩
    rw [exact, met, placed]
    simp only [Option.some.injEq, exists_eq_left', Relation.reflTransGen_iff_eq_or_transGen]
  · intro a n there
    obtain ⟨above, searched, met⟩ := w.isAncestorOk a (Array.getElem?_eq_getElem there)
    exact ⟨above, searched, met.trans w.aboveExact.symm⟩

end Belonging

theorem Example.hallBelongs : Built hall ∧ hall.repeats ⟨1⟩ = true ∧
    hall.placement ⟨3⟩ = some ⟨3⟩ ∧ hall.context ⟨3⟩ = .ok (.within ⟨2⟩) ∧
    (∀ r policy, (CopySource.mk hall r policy).belongs ⟨1⟩ (.within ⟨2⟩) = .ok true) ∧
    hall.isAncestor ⟨1⟩ ⟨3⟩ = .ok true ∧ TransGen hall.IsChild ⟨1⟩ ⟨3⟩ := by
  obtain ⟨contained, reached⟩ := belongsBelow hallBuilt
  have context : hall.context ⟨3⟩ = .ok (.within ⟨2⟩) := rfl
  have higher : hall.isAncestor ⟨1⟩ ⟨3⟩ = .ok true := rfl
  obtain ⟨own, inside, above, answered, belongs, searched, exact⟩ := contained ⟨1⟩ ⟨3⟩ ⟨3⟩ rfl rfl
  cases context.symm.trans answered
  cases higher.symm.trans searched
  cases exact.mpr (.inr rfl)
  obtain ⟨above, searched, leads⟩ := reached ⟨1⟩ ⟨3⟩ (by decide)
  cases higher.symm.trans searched
  exact ⟨hallBuilt, rfl, rfl, context, belongs, higher, leads.mp rfl⟩

end ProductLine
