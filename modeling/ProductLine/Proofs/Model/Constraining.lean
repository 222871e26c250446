import ProductLine.Encoding.Unrolling
import ProductLine.Copy
import ProductLine.Proofs.Model.WellFormed

/-!
A model under other constraints than its own. Its forest stays what it is, and so does everything
that is read off the forest: contexts, trees and what a feature stands for in a copy.
-/
namespace ProductLine

namespace FeatureModel

def holding (m : FeatureModel) (ks : List Constraint) : FeatureModel :=
  { m with constraints := ks.toArray }

def constraintOf (m : FeatureModel) (formula : Formula) : Except Failure Constraint :=
  Constraint.mk formula <$> formula.names.mapM (m.resolve formula)

def constrain (m : FeatureModel) (formulas : List Formula) : Option FeatureModel :=
  Call.makeAll (formulas.map .addConstraint) m

def Admits (m : FeatureModel) (k : Constraint) : Prop :=
  List.Forall₂ (m.Refers k.formula) k.formula.names k.referenced

section Constraining
variable {m m' : FeatureModel} {ks : List Constraint} {k : Constraint} {formula : Formula}

theorem constraintOfEqOk : m.constraintOf formula = .ok k ↔ k.formula = formula ∧ m.Admits k := by
  simp only [constraintOf, mapEqOk, mapMEqOk, resolveEqOk, Admits]
  constructor
  · intro h
    obtain ⟨referenced, refers, rfl⟩ := h
    exact ⟨rfl, refers⟩
  · intro h
    obtain ⟨rfl, refers⟩ := h
    exact ⟨k.referenced, refers, rfl⟩

theorem holdingConstraints : (m.holding ks).constraints.toList = ks := rfl

theorem holdingOwn : m.holding m.constraints.toList = m := by
  simp only [holding, Array.toArray_toList]

theorem holdingAt {i : Nat} : (m.holding ks).constraints[i]? = ks[i]? := by
  simp [holding]

theorem performConstraint {old : List Constraint} {answer : Answer} :
    (Call.addConstraint formula).perform.apply (m.holding old) = (.ok answer, m') ↔
      ∃ k, m.constraintOf formula = .ok k ∧ answer = .position old.length ∧
        m' = m.holding (old ++ [k]) := by
  have resolve : (m.holding old).resolve = m.resolve := rfl
  simp only [Call.perform, Build.applyReturnOk, Build.addConstraintOk, constraintOf, mapEqOk,
    resolve]
  constructor
  · intro h
    obtain ⟨_, ⟨referenced, resolved, rfl, rfl⟩, rfl⟩ := h
    exact ⟨_, ⟨referenced, resolved, rfl⟩, by simp [holding], by simp [holding]⟩
  · intro h
    obtain ⟨_, ⟨referenced, resolved, rfl⟩, rfl, rfl⟩ := h
    exact ⟨_, ⟨referenced, resolved, rfl, by simp [holding]⟩, by simp [holding]⟩

theorem constrainFrom {old : List Constraint} {formulas : List Formula} :
    (m.holding old).constrain formulas = some m' ↔
      ∃ ks, formulas.mapM m.constraintOf = .ok ks ∧ m' = m.holding (old ++ ks) := by
  induction formulas generalizing old with
  | nil =>
    simp only [constrain, List.map_nil, Call.makeAll, List.mapM_nil, pureEqOk]
    constructor
    · intro made
      exact ⟨[], rfl, by simpa using (Option.some.inj made).symm⟩
    · intro h
      obtain ⟨_, rfl, rfl⟩ := h
      simp
  | cons formula formulas ih =>
    have first : (m.holding old).constrain (formula :: formulas) = some m' ↔
        ∃ answer next, (Call.addConstraint formula).perform.apply (m.holding old) =
          (.ok answer, next) ∧ next.constrain formulas = some m' :=
      Call.makeAllCons.trans (and_iff_right trivial)
    simp only [first, performConstraint, List.mapM_cons, bindEqOk, pureEqOk]
    constructor
    · intro made
      obtain ⟨_, _, ⟨k, resolved, rfl, rfl⟩, rest⟩ := made
      obtain ⟨ks, others, rfl⟩ := ih.mp rest
      exact ⟨k :: ks, ⟨k, resolved, ks, others, rfl⟩, by simp⟩
    · intro h
      obtain ⟨_, ⟨k, resolved, ks, rest, rfl⟩, rfl⟩ := h
      exact ⟨_, _, ⟨k, resolved, rfl, rfl⟩, ih.mpr ⟨ks, rest, by simp⟩⟩

theorem constrainEqSome {formulas : List Formula} : (m.holding []).constrain formulas = some m' ↔
    ∃ ks, formulas.mapM m.constraintOf = .ok ks ∧ m' = m.holding ks := by
  simp only [constrainFrom, List.nil_append]

theorem climbHolding : (m.holding ks).climb = m.climb := by
  funext steps node
  induction steps generalizing node with
  | zero => rfl
  | succ steps ih =>
    simp only [climb, ih]
    rfl

theorem lineageHolding : (m.holding ks).lineage = m.lineage := by
  funext n
  simp only [lineage, climbHolding]
  rfl

theorem contextHolding : (m.holding ks).context = m.context := by
  funext f
  simp only [context, repeatedAt, lineageHolding]
  rfl

theorem contextsHolding : (m.holding ks).contexts = m.contexts := by
  funext k
  simp only [contexts, contextHolding]

theorem growHolding : (m.holding ks).grow = m.grow := by
  funext depth p
  induction depth generalizing p with
  | zero => rfl
  | succ depth ih =>
    simp only [grow, funext ih]
    rfl

theorem forestHolding : (m.holding ks).forest = m.forest := by
  have tree : (m.holding ks).tree = m.tree := by
    funext root
    simp only [FeatureModel.tree, growHolding]
    rfl
  simp only [forest, tree]
  rfl

variable {r : Roster} {policy : MissingPolicy}

theorem seenFromHolding : (CopySource.mk (m.holding ks) r policy).seenFrom =
    (CopySource.mk m r policy).seenFrom := by
  have belongs : (CopySource.mk (m.holding ks) r policy).belongs =
      (CopySource.mk m r policy).belongs := by
    funext repeated own
    cases own with
    | root => rfl
    | within o => simp only [CopySource.belongs, isAncestor, lineageHolding]
  funext repeated clone f
  simp only [CopySource.seenFrom, belongs, contextHolding]
  rfl

theorem guardedHolding : (CopySource.mk (m.holding ks) r policy).guarded =
    (CopySource.mk m r policy).guarded := by
  funext repeated clone k
  simp only [CopySource.guarded, seenFromHolding]
  rfl

theorem unguardedHolding : (CopySource.mk (m.holding ks) r policy).unguarded =
    (CopySource.mk m r policy).unguarded := rfl

end Constraining
end FeatureModel

section Admitted
variable {m : FeatureModel} {ks : List Constraint}

theorem WellFormed.holding (w : WellFormed m) (admitted : ∀ k ∈ ks, m.Admits k) :
    WellFormed (m.holding ks) where
  declared := w.declared
  linked := w.linked
  features := w.features
  placed := w.placed
  refers := fun k declared => admitted k (List.mem_toArray.mp declared)

theorem Built.constrained (built : Built m) :
    (m.holding []).constrain (m.constraints.toList.map Constraint.formula) = some m := by
  refine FeatureModel.constrainEqSome.mpr ⟨m.constraints.toList, ?_, FeatureModel.holdingOwn.symm⟩
  rw [mapMEqOk, List.forall₂_map_left_iff, List.forall₂_same]
  intro k declared
  exact FeatureModel.constraintOfEqOk.mpr
    ⟨rfl, built.wellFormed.refers k (Array.mem_toList_iff.mp declared)⟩

end Admitted
end ProductLine
