import Mathlib.Logic.Relation
import ProductLine.Proofs.Model.Calls

/-!
What each call does when it succeeds, as elementary changes of the model, and the rule of
invariants that follows: what outlives every change holds of every model built.
-/
namespace ProductLine
open Relation (ReflTransGen)

def Edit (m m' : FeatureModel) : Prop := Change m m' ∧ m'.nodes.size = m.nodes.size

namespace Build
variable {α β : Type} {m m' : FeatureModel}

theorem applyBindOk {x : Build α} {next : α → Build β} {b : β} :
    (x >>= next).apply m = (.ok b, m') ↔
      ∃ a middle, x.apply m = (.ok a, middle) ∧ (next a).apply middle = (.ok b, m') := by
  simp only [apply, EStateM.run, bind, EStateM.bind]
  cases x m <;> simp

theorem applyPureOk {a b : α} : (pure a : Build α).apply m = (.ok b, m') ↔ a = b ∧ m = m' := by
  simp [apply, EStateM.run, pure, EStateM.pure]

theorem applyReturnOk {x : Build α} {g : α → β} {b : β} :
    (x >>= fun a => pure (g a)).apply m = (.ok b, m') ↔ ∃ a, x.apply m = (.ok a, m') ∧ g a = b := by
  simp only [applyBindOk, applyPureOk]
  constructor
  · rintro ⟨a, _, done, same, rfl⟩
    exact ⟨a, done, same⟩
  · rintro ⟨a, done, same⟩
    exact ⟨a, m', done, same, rfl⟩

theorem applyGetOk {m₀ : FeatureModel} :
    (get : Build FeatureModel).apply m = (.ok m₀, m') ↔ m = m₀ ∧ m = m' := by
  change (Except.ok m, m) = (Except.ok m₀, m') ↔ _
  simp

theorem applySetOk {m₀ : FeatureModel} {u : PUnit} :
    (set m₀ : Build PUnit).apply m = (.ok u, m') ↔ m₀ = m' := by
  change (Except.ok PUnit.unit, m₀) = (Except.ok u, m') ↔ _
  simp

theorem applyThrow {f : Failure} {a : α} : (throw f : Build α).apply m ≠ (.ok a, m') := by
  change (Except.error f, m) ≠ (Except.ok a, m')
  simp

theorem applyOfExceptOk {x : Except Failure α} {a : α} :
    (ofExcept x : Build α).apply m = (.ok a, m') ↔ x = .ok a ∧ m = m' := by
  cases x with
  | ok b => simp [ofExcept, applyPureOk]
  | error f => simp [ofExcept, applyThrow]

theorem declareOk {name type f} : (declare name type).apply m = (.ok f, m') ↔
    m.byName.contains name = false ∧ f = ⟨m.features.size⟩ ∧ m' = m.withFeature name type := by
  unfold declare
  simp only [applyBindOk, applyGetOk]
  constructor
  · rintro ⟨_, _, ⟨rfl, rfl⟩, h⟩
    split at h
    · obtain ⟨_, _, thrown, _⟩ := applyBindOk.mp h
      exact absurd thrown applyThrow
    · rename_i fresh
      obtain ⟨_, _, written, last⟩ := applyBindOk.mp h
      obtain ⟨rfl, rfl⟩ := applyPureOk.mp last
      exact ⟨by simpa using fresh, rfl, (applySetOk.mp written).symm⟩
  · rintro ⟨fresh, rfl, rfl⟩
    refine ⟨m, m, ⟨rfl, rfl⟩, ?_⟩
    rw [if_neg (by simp [fresh])]
    rfl

theorem placeApply (f parent) :
    (place f parent).apply m = (.ok ⟨m.nodes.size⟩, m.withNode f parent) :=
  rfl

theorem changeNodeOk {n change u} : (changeNode n change).apply m = (.ok u, m') ↔
    ∃ node, m.nodes[n.index]? = some node ∧ m' = m.setNode n (change node) := by
  unfold changeNode
  simp only [applyBindOk, applyGetOk, applyOfExceptOk, applySetOk, FeatureModel.node, fetchEqOk]
  constructor
  · rintro ⟨_, _, ⟨rfl, rfl⟩, node, _, ⟨found, rfl⟩, rfl⟩
    exact ⟨node, found, rfl⟩
  · rintro ⟨node, found, rfl⟩
    exact ⟨m, m, ⟨rfl, rfl⟩, node, m, ⟨found, rfl⟩, rfl⟩

theorem nodeWithGroupOk {n group node} : (nodeWithGroup n group).apply m = (.ok node, m') ↔
    m.nodes[n.index]? = some node ∧ group.index < node.groups.size ∧ m' = m := by
  unfold nodeWithGroup
  simp only [applyBindOk, applyGetOk, applyOfExceptOk, FeatureModel.node, fetchEqOk]
  constructor
  · rintro ⟨_, _, ⟨rfl, rfl⟩, node, _, ⟨found, rfl⟩, h⟩
    split at h
    · obtain ⟨_, _, thrown, _⟩ := applyBindOk.mp h
      exact absurd thrown applyThrow
    · rename_i inside
      obtain ⟨rfl, rfl⟩ := applyPureOk.mp h
      exact ⟨found, by omega, rfl⟩
  · rintro ⟨found, inside, rfl⟩
    refine ⟨_, _, ⟨rfl, rfl⟩, node, _, ⟨found, rfl⟩, ?_⟩
    rw [if_neg (by omega)]
    rfl

theorem modifyApply (g : FeatureModel → FeatureModel) :
    (modify g : Build PUnit).apply m = (.ok ⟨⟩, g m) := rfl

theorem addRootOk {f n} : (addRoot f).apply m = (.ok n, m') ↔ n = ⟨m.nodes.size⟩ ∧
    m' = { m.withNode f none with roots := m.roots ++ [⟨m.nodes.size⟩] } := by
  unfold addRoot
  simp only [applyBindOk, placeApply, modifyApply, applyPureOk, Prod.mk.injEq, Except.ok.injEq]
  constructor
  · rintro ⟨_, _, ⟨rfl, rfl⟩, _, _, ⟨-, rfl⟩, rfl, rfl⟩
    exact ⟨rfl, rfl⟩
  · rintro ⟨rfl, rfl⟩
    exact ⟨_, _, ⟨rfl, rfl⟩, ⟨⟩, _, ⟨trivial, rfl⟩, rfl, rfl⟩

theorem addChildOk {p f n} : (addChild p f).apply m = (.ok n, m') ↔
    ∃ above, (m.withNode f (some p)).nodes[p.index]? = some above ∧ n = ⟨m.nodes.size⟩ ∧
      m' = (m.withNode f (some p)).setNode p
        { above with children := above.children ++ [⟨m.nodes.size⟩] } := by
  unfold addChild
  simp only [applyBindOk, placeApply, changeNodeOk, applyPureOk, Prod.mk.injEq, Except.ok.injEq]
  constructor
  · rintro ⟨_, _, ⟨rfl, rfl⟩, _, _, ⟨above, found, rfl⟩, rfl, rfl⟩
    exact ⟨above, found, rfl, rfl⟩
  · rintro ⟨above, found, rfl, rfl⟩
    exact ⟨_, _, ⟨rfl, rfl⟩, ⟨⟩, _, ⟨above, found, rfl⟩, rfl, rfl⟩

theorem addConstraintApply {formula} : (addConstraint formula).apply m =
    match formula.names.mapM (m.resolve formula) with
    | .ok referenced =>
      (.ok m.constraints.size, { m with constraints := m.constraints.push ⟨formula, referenced⟩ })
    | .error failure => (.error failure, m) := by
  have read : (addConstraint formula).apply m = apply (do
      let referenced ← ofExcept (formula.names.mapM (m.resolve formula))
      set { m with constraints := m.constraints.push ⟨formula, referenced⟩ }
      return m.constraints.size) m := rfl
  rw [read]
  cases formula.names.mapM (m.resolve formula) <;> rfl

theorem addConstraintOk {formula index} : (addConstraint formula).apply m = (.ok index, m') ↔
    ∃ referenced, formula.names.mapM (m.resolve formula) = .ok referenced ∧
      index = m.constraints.size ∧
      m' = { m with constraints := m.constraints.push ⟨formula, referenced⟩ } := by
  rw [addConstraintApply]
  cases formula.names.mapM (m.resolve formula) with
  | ok referenced => simp [eq_comm]
  | error failure => simp

theorem declareChanges {name type f} (done : (declare name type).apply m = (.ok f, m')) :
    Change m m' ∧ f.index < m'.features.size ∧ m'.nodes = m.nodes := by
  obtain ⟨fresh, rfl, rfl⟩ := declareOk.mp done
  exact ⟨.declare fresh, by simp [FeatureModel.withFeature], rfl⟩

theorem addRootChanges {f n} (declared : f.index < m.features.size)
    (done : (addRoot f).apply m = (.ok n, m')) : Change m m' := by
  obtain ⟨-, rfl⟩ := addRootOk.mp done
  exact .addRoot declared

theorem addChildChanges {p f n} (inside : p.index < m.nodes.size)
    (declared : f.index < m.features.size)
    (done : (addChild p f).apply m = (.ok n, m')) : Change m m' := by
  obtain ⟨above, found, -, rfl⟩ := addChildOk.mp done
  exact .addChild declared (FeatureModel.withNodeOld inside ▸ found)

theorem addRootAnswer {f n} (done : (addRoot f).apply m = (.ok n, m')) :
    n.index < m'.nodes.size := by
  obtain ⟨rfl, rfl⟩ := addRootOk.mp done
  simp [FeatureModel.withNode]

theorem addChildAnswer {p f n} (done : (addChild p f).apply m = (.ok n, m')) :
    n.index < m'.nodes.size := by
  obtain ⟨_, -, rfl, rfl⟩ := addChildOk.mp done
  simp [FeatureModel.withNode, FeatureModel.setNode]

theorem setAttributeChanges {f name value u}
    (done : (setAttribute f name value).apply m = (.ok u, m')) : Edit m m' := by
  unfold setAttribute at done
  simp only [applyBindOk, applyGetOk, applyOfExceptOk, applySetOk, FeatureModel.feature,
    fetchEqOk] at done
  obtain ⟨_, _, ⟨rfl, rfl⟩, feature, _, ⟨found, rfl⟩, rfl⟩ := done
  exact ⟨.describe found, rfl⟩

theorem changeNodeChanges {n change u}
    (adjusts : ∀ node, m.nodes[n.index]? = some node → m.Adjusts node (change node))
    (done : (changeNode n change).apply m = (.ok u, m')) : Edit m m' := by
  obtain ⟨node, found, rfl⟩ := changeNodeOk.mp done
  exact ⟨.adjust found (adjusts node found), by simp [FeatureModel.setNode]⟩

theorem setMandatoryChanges {n u} {mandatory : Bool}
    (done : (changeNode n ({ · with mandatory })).apply m = (.ok u, m')) : Edit m m' := by
  refine changeNodeChanges (fun node _ => ?_) done
  exact ⟨rfl, rfl, rfl, rfl, Nat.le_refl _, .inl rfl⟩

theorem setCardinalityChanges {n lower upper u}
    (done : (setCardinality n lower upper).apply m = (.ok u, m')) : Edit m m' := by
  unfold setCardinality at done
  simp only [applyBindOk, applyOfExceptOk] at done
  obtain ⟨cardinality, _, ⟨-, rfl⟩, done⟩ := done
  refine changeNodeChanges (fun node _ => ?_) done
  exact ⟨rfl, rfl, rfl, rfl, Nat.le_refl _, .inl rfl⟩

theorem setKindOfGroupChanges {n group kind u}
    (done : (setKindOfGroup n group kind).apply m = (.ok u, m')) : Edit m m' := by
  unfold setKindOfGroup at done
  simp only [applyBindOk, nodeWithGroupOk] at done
  obtain ⟨node, _, ⟨found, -, rfl⟩, done⟩ := done
  refine changeNodeChanges (fun other stored => ?_) done
  cases Option.some.inj (found.symm.trans stored)
  exact ⟨rfl, rfl, rfl, rfl, by simp, .inl rfl⟩

theorem addGroupChanges {n kind group} (done : (addGroup n kind).apply m = (.ok group, m')) :
    Edit m m' := by
  unfold addGroup at done
  simp only [applyBindOk, applyGetOk, applyOfExceptOk, applyPureOk, FeatureModel.node,
    fetchEqOk] at done
  obtain ⟨_, _, ⟨rfl, rfl⟩, node, _, ⟨found, rfl⟩, _, _, done, -, rfl⟩ := done
  refine changeNodeChanges (fun other stored => ?_) done
  cases Option.some.inj (found.symm.trans stored)
  exact ⟨rfl, rfl, rfl, rfl, by simp, .inl rfl⟩

theorem setParentGroupChanges {child group u}
    (done : (setParentGroup child group).apply m = (.ok u, m')) : Edit m m' := by
  unfold setParentGroup at done
  simp only [applyBindOk, applyGetOk, applyOfExceptOk, FeatureModel.node, fetchEqOk] at done
  obtain ⟨_, _, ⟨rfl, rfl⟩, node, _, ⟨found, rfl⟩, done⟩ := done
  split at done
  · exact absurd done applyThrow
  · rename_i parent up
    simp only [applyBindOk, nodeWithGroupOk] at done
    obtain ⟨above, _, ⟨stored, inside, rfl⟩, done⟩ := done
    refine changeNodeChanges (fun other same => ?_) done
    cases Option.some.inj (found.symm.trans same)
    exact ⟨rfl, rfl, rfl, rfl, Nat.le_refl _, .inr ⟨parent, above, up, stored, inside⟩⟩

theorem addConstraintChanges {formula n}
    (done : (addConstraint formula).apply m = (.ok n, m')) : Edit m m' := by
  obtain ⟨referenced, resolved, -, rfl⟩ := addConstraintOk.mp done
  simp only [mapMEqOk, FeatureModel.resolveEqOk] at resolved
  exact ⟨.constrain resolved, rfl⟩

end Build

namespace Call
variable {m m' : FeatureModel} {c : Call} {answer : Answer}

/-- The node that a child is to be placed below. -/
def parent? : Call → Option NodeId
  | addChild p _ | addChildFeature p _ => some p
  | _ => none

def places : Call → Bool
  | addRoot _ | addRootFeature _ | addChild .. | addChildFeature .. => true
  | _ => false

theorem edits (elsewhere : c.places = false) (done : c.perform.apply m = (.ok answer, m')) :
    Edit m m' := by
  cases c <;> try cases elsewhere
  all_goals obtain ⟨_, done, -⟩ := Build.applyReturnOk.mp done
  case declare =>
    obtain ⟨change, -, nodes⟩ := Build.declareChanges done
    exact ⟨change, congrArg Array.size nodes⟩
  case setAttribute => exact Build.setAttributeChanges done
  case setCardinality => exact Build.setCardinalityChanges done
  case makeMandatory => exact Build.setMandatoryChanges done
  case makeOptional => exact Build.setMandatoryChanges done
  case setGroupKind => exact Build.setKindOfGroupChanges done
  case setKindOfGroup => exact Build.setKindOfGroupChanges done
  case addGroup => exact Build.addGroupChanges done
  case setParentGroup => exact Build.setParentGroupChanges done
  case addConstraint => exact Build.addConstraintChanges done

theorem performed (known : Call.Known m c) (done : c.perform.apply m = (.ok answer, m')) :
    ReflTransGen Change m m' := by
  cases c with
  | addRoot f =>
    obtain ⟨n, done, -⟩ := Build.applyReturnOk.mp done
    exact .single (Build.addRootChanges known done)
  | addChild p f =>
    obtain ⟨n, done, -⟩ := Build.applyReturnOk.mp done
    exact .single (Build.addChildChanges known.1 known.2 done)
  | addRootFeature name =>
    obtain ⟨n, done, -⟩ := Build.applyReturnOk.mp done
    obtain ⟨f, middle, declared, placed⟩ := Build.applyBindOk.mp done
    obtain ⟨first, there, -⟩ := Build.declareChanges declared
    exact (ReflTransGen.single first).tail (Build.addRootChanges there placed)
  | addChildFeature p name =>
    obtain ⟨n, done, -⟩ := Build.applyReturnOk.mp done
    obtain ⟨f, middle, declared, placed⟩ := Build.applyBindOk.mp done
    obtain ⟨first, there, nodes⟩ := Build.declareChanges declared
    exact (ReflTransGen.single first).tail (Build.addChildChanges (nodes ▸ known) there placed)
  | _ => exact .single (edits rfl done).1

end Call

def Answer.There (m : FeatureModel) : Answer → Prop
  | feature f => f.index < m.features.size
  | node n => n.index < m.nodes.size
  | nothing | group _ | position _ => True

theorem Change.answerStays {m m' : FeatureModel} {answer : Answer} (change : Change m m')
    (there : answer.There m) : answer.There m' := by
  cases answer with
  | nothing | group | position => trivial
  | feature f | node n =>
    cases change <;> simp_all [Answer.There, FeatureModel.withFeature, FeatureModel.withNode,
      FeatureModel.setNode] <;> omega

theorem Call.answerThere {m m' : FeatureModel} {c : Call} {answer : Answer}
    (done : c.perform.apply m = (.ok answer, m')) : answer.There m' := by
  cases c <;> obtain ⟨_, called, rfl⟩ := Build.applyReturnOk.mp done <;> try trivial
  case declare => exact (Build.declareChanges called).2.1
  case addRoot => exact Build.addRootAnswer called
  case addChild => exact Build.addChildAnswer called
  case addRootFeature =>
    obtain ⟨_, _, _, placed⟩ := Build.applyBindOk.mp called
    exact Build.addRootAnswer placed
  case addChildFeature =>
    obtain ⟨_, _, _, placed⟩ := Build.applyBindOk.mp called
    exact Build.addChildAnswer placed

theorem Built.invariant {P : FeatureModel → Prop} (start : P .empty)
    (step : ∀ {m m'}, P m → Change m m' → P m') {m} (built : Built m) : P m := by
  induction built with
  | empty => exact start
  | call earlier known done ih =>
    exact ReflTransGen.rec ih (fun _ change before => step before change)
      (Call.performed known done)

end ProductLine
