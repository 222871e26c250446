import Mathlib.Data.List.Nodup
import ProductLine.Model.Navigation
import ProductLine.Proofs.Formula.Atoms
import ProductLine.Proofs.Model.Failures
import ProductLine.Proofs.Model.WellFormed

/-!
The order that a model keeps through all calls on handles of what is there: its tables agree with
its stores, its lists of nodes with the links between them, and its constraints with both. A
constraint that is refused does not disturb it.
-/
namespace ProductLine

inductive Tried : FeatureModel → Prop
  | empty : Tried .empty
  | call {m m' : FeatureModel} {c answer} (earlier : Tried m) (known : Call.Known m c)
      (done : c.perform.apply m = (.ok answer, m')) : Tried m'
  | refused {m m' : FeatureModel} {formula failure} (earlier : Tried m)
      (failed : (Call.addConstraint formula).perform.apply m = (.error failure, m')) : Tried m'

theorem triedIffBuilt {m : FeatureModel} : Tried m ↔ Built m := by
  constructor
  · intro tried
    induction tried with
    | empty => exact .empty
    | call _ known done ih => exact .call ih known done
    | refused _ failed ih => exact Call.undone rfl _ _ _ failed ▸ ih
  · intro built
    induction built with
    | empty => exact .empty
    | call _ known done ih => exact .call ih known done

namespace FeatureModel

structure InOrder (m : FeatureModel) : Prop where
  featureIds : ∀ f feature, m.feature f = .ok feature → feature.id = f
  nodeIds : ∀ n node, m.node n = .ok node → node.id = n
  names : ∀ name f, m.featureByName name = some f ↔
    ∃ feature, m.feature f = .ok feature ∧ feature.name = name
  parents : ∀ n p, m.parent n = .ok (some p) →
    p.index < n.index ∧ ∃ siblings, m.children p = .ok siblings
  children : ∀ p cs, m.children p = .ok cs → cs.Pairwise (·.index < ·.index) ∧
    ∀ c, (c ∈ cs ↔ m.parent c = .ok (some p)) ∧ (c ∈ cs → cs.count c = 1)
  roots : m.roots.Pairwise (·.index < ·.index) ∧ ∀ n, n ∈ m.roots ↔ m.parent n = .ok none
  placements : ∀ f n, m.placement f = some n ↔ (∃ node, m.node n = .ok node ∧ node.feature = f) ∧
    ∀ k node, m.node k = .ok node → node.feature = f → n.index ≤ k.index
  unplaced : ∀ f, m.placement f = none ↔ ∀ n node, m.node n = .ok node → node.feature ≠ f
  groups : ∀ n node, m.node n = .ok node → 0 < node.groups.size
  parentGroups : ∀ n node p above, m.node n = .ok node → node.parent = some p →
    m.node p = .ok above → node.parentGroup.index < above.groups.size
  bounds : ∀ n node, m.node n = .ok node →
    1 ≤ node.cardinality.upper ∧ node.cardinality.lower ≤ node.cardinality.upper
  references : ∀ k ∈ m.constraints, k.formula.names.map m.featureByName = k.referenced.map some
  literals : ∀ k ∈ m.constraints, ∀ f ∈ k.referenced, ∀ feature, m.feature f = .ok feature →
    feature.type.isNumeric = true → .literal feature.name ∉ k.formula.subformulas

variable {m : FeatureModel} {n : NodeId}

theorem parentEqOk {up : Option NodeId} : m.parent n = .ok up ↔
    ∃ node, m.nodes[n.index]? = some node ∧ node.parent = up := by
  simp only [parent, mapEqOk, node, fetchEqOk]

theorem childrenEqOk {cs : List NodeId} : m.children n = .ok cs ↔
    ∃ node, m.nodes[n.index]? = some node ∧ node.children = cs := by
  simp only [children, mapEqOk, node, fetchEqOk]

theorem carriedEqSome {f : FeatureId} : carried m.nodes n.index = some f ↔
    ∃ node, m.node n = .ok node ∧ node.feature = f := by
  simp only [carried, Option.map_eq_some_iff, node, fetchEqOk]

end FeatureModel

namespace WellFormed
variable {m : FeatureModel}

theorem inOrder (w : WellFormed m) : m.InOrder where
  featureIds f feature found := w.declared.ids (fetchEqOk.mp found)
  nodeIds n node found := w.linked.ids (fetchEqOk.mp found)
  names name f := by
    simp only [FeatureModel.feature, fetchEqOk]
    exact w.declared.names
  parents := by
    intro n p up
    obtain ⟨node, found, up⟩ := FeatureModel.parentEqOk.mp up
    have before := w.linked.parents found up
    have inside := storedBelow found
    have stored := Array.getElem?_eq_getElem (Nat.lt_trans before inside)
    exact ⟨before, _, FeatureModel.childrenEqOk.mpr ⟨_, stored, rfl⟩⟩
  children := by
    intro p cs listed
    obtain ⟨above, found, rfl⟩ := FeatureModel.childrenEqOk.mp listed
    have sorted := w.linked.childrenSorted found
    refine ⟨sorted, fun c => ⟨?_, List.count_eq_one_of_mem (sortedNodup sorted)⟩⟩
    rw [FeatureModel.parentEqOk]
    exact w.linked.children found c
  roots := by
    refine ⟨w.linked.rootsSorted, fun n => ?_⟩
    rw [FeatureModel.parentEqOk]
    exact w.linked.roots n
  placements := by
    intro f n
    rw [← FeatureModel.carriedEqSome]
    refine (w.placed f n).trans (and_congr_right fun _ => ?_)
    constructor
    · intro first k node found same
      refine Nat.le_of_not_lt fun before => ?_
      exact first k.index before (FeatureModel.carriedEqSome.mpr ⟨node, found, same⟩)
    · intro first k before same
      obtain ⟨node, found, same⟩ := FeatureModel.carriedEqSome (n := ⟨k⟩).mp same
      exact Nat.not_le_of_lt before (first ⟨k⟩ node found same)
  unplaced := by
    intro f
    constructor
    · intro absent n node found same
      exact w.placed.unplaced absent n.index (FeatureModel.carriedEqSome.mpr ⟨node, found, same⟩)
    · intro unplaced
      refine Option.eq_none_iff_forall_ne_some.mpr fun n placed => ?_
      obtain ⟨node, found, same⟩ := FeatureModel.carriedEqSome.mp ((w.placed f n).mp placed).1
      exact unplaced n node found same
  groups n node found := w.linked.groups (fetchEqOk.mp found)
  parentGroups n node p above found up higher :=
    w.linked.parentGroups (fetchEqOk.mp found) up (fetchEqOk.mp higher)
  bounds n node _ := ⟨node.cardinality.positive, node.cardinality.ordered⟩
  references := by
    intro k declared
    exact mapsEqual.mpr ((w.refers k declared).imp fun name f refers => refers.1)
  literals := by
    intro k declared f inside feature found numeric literal
    obtain ⟨name, -, named, feature', stored, allowed⟩ := forall₂Right (w.refers k declared) inside
    obtain ⟨feature'', stored', rfl⟩ := w.declared.names.mp named
    cases stored.symm.trans stored'
    cases stored.symm.trans (fetchEqOk.mp found)
    have occurs := Formula.containsLiteral.mpr (Formula.memAtoms.mpr ⟨literal, rfl⟩)
    rw [allowed numeric] at occurs
    cases occurs

end WellFormed

/-- Whatever calls on handles of what is there were made, the model is in order. -/
theorem triedInOrder {m : FeatureModel} (tried : Tried m) : m.InOrder :=
  (triedIffBuilt.mp tried).wellFormed.inOrder

theorem Example.rackInOrder : Tried Example.rack ∧ Example.rack.InOrder := by
  have refused : (Call.addConstraint (.literal "Speed")).perform.apply rack =
      (.error (.rejected (.nonBooleanLiteral "Speed" .integer)), rack) := rfl
  have tried := Tried.refused (triedIffBuilt.mpr rackBuilt) refused
  exact ⟨tried, triedInOrder tried⟩

end ProductLine
