import ProductLine.Model.Build
import ProductLine.Proofs.Outcome

/-!
Models as they are built: a history of successful calls from the empty model. Each call is one or
two elementary changes (`performed`), so what holds of a model and outlives every change holds of
all models built.
-/
namespace ProductLine

inductive Answer where
  | nothing
  | feature (f : FeatureId)
  | node (n : NodeId)
  | group (g : GroupId)
  | position (index : Nat)
  deriving DecidableEq, Repr

inductive Call where
  | declare (name : String) (type : FeatureType)
  | setAttribute (f : FeatureId) (name : String) (value : AttributeValue)
  | addRoot (f : FeatureId)
  | addChild (parent : NodeId) (f : FeatureId)
  | addRootFeature (name : String)
  | addChildFeature (parent : NodeId) (name : String)
  | setCardinality (n : NodeId) (lower upper : UInt32)
  | makeMandatory (n : NodeId)
  | makeOptional (n : NodeId)
  | setGroupKind (n : NodeId) (kind : GroupKind)
  | setKindOfGroup (n : NodeId) (group : GroupId) (kind : GroupKind)
  | addGroup (n : NodeId) (kind : GroupKind)
  | setParentGroup (child : NodeId) (group : GroupId)
  | addConstraint (formula : Formula)

namespace Call

def perform : Call → Build Answer
  | declare name type => return .feature (← Build.declare name type)
  | setAttribute f name value => do Build.setAttribute f name value; return .nothing
  | addRoot f => return .node (← Build.addRoot f)
  | addChild parent f => return .node (← Build.addChild parent f)
  | addRootFeature name => return .node (← Build.addRootFeature name)
  | addChildFeature parent name => return .node (← Build.addChildFeature parent name)
  | setCardinality n lower upper => do Build.setCardinality n lower upper; return .nothing
  | makeMandatory n => do Build.makeMandatory n; return .nothing
  | makeOptional n => do Build.makeOptional n; return .nothing
  | setGroupKind n kind => do Build.setGroupKind n kind; return .nothing
  | setKindOfGroup n group kind => do Build.setKindOfGroup n group kind; return .nothing
  | addGroup n kind => return .group (← Build.addGroup n kind)
  | setParentGroup child group => do Build.setParentGroup child group; return .nothing
  | addConstraint formula => return .position (← Build.addConstraint formula)

/-- The features and nodes that the call names are in the model. Groups are left to the call, which
checks them itself. -/
def Known (m : FeatureModel) : Call → Prop
  | setAttribute f _ _ | addRoot f => f.index < m.features.size
  | addChild parent f => parent.index < m.nodes.size ∧ f.index < m.features.size
  | addChildFeature n _ | setCardinality n _ _ | makeMandatory n | makeOptional n
  | setGroupKind n _ | setKindOfGroup n _ _ | addGroup n _ | setParentGroup n _ =>
    n.index < m.nodes.size
  | declare .. | addRootFeature _ | addConstraint _ => True

instance (m : FeatureModel) (c : Call) : Decidable (c.Known m) := by
  cases c <;> unfold Known <;> infer_instance

def makeAll : List Call → FeatureModel → Option FeatureModel
  | [], m => some m
  | c :: cs, m =>
    if c.Known m then
      match c.perform.apply m with
      | (.ok _, m') => makeAll cs m'
      | (.error _, _) => none
    else none

theorem makeAllCons {c : Call} {cs : List Call} {m m' : FeatureModel} :
    makeAll (c :: cs) m = some m' ↔ c.Known m ∧
      ∃ answer next, c.perform.apply m = (.ok answer, next) ∧ makeAll cs next = some m' := by
  rw [makeAll]
  constructor
  · intro made
    split at made
    · rename_i known
      split at made
      · rename_i answer next done
        exact ⟨known, answer, next, done, made⟩
      · cases made
    · cases made
  · intro h
    obtain ⟨known, answer, next, done, rest⟩ := h
    rw [if_pos known, done]
    exact rest

end Call

/-- Models that come from the empty one by successful calls on handles of what is there, which are
the handles that earlier calls answered (`Call.answerThere`, `Change.answerStays`). -/
inductive Built : FeatureModel → Prop
  | empty : Built .empty
  | call {m m' c answer} (earlier : Built m) (known : Call.Known m c)
      (done : c.perform.apply m = (.ok answer, m')) : Built m'

theorem Built.makeAll {cs : List Call} {m m' : FeatureModel} (built : Built m)
    (made : Call.makeAll cs m = some m') : Built m' := by
  induction cs generalizing m with
  | nil =>
    cases made
    exact built
  | cons c cs ih =>
    obtain ⟨known, answer, next, done, rest⟩ := Call.makeAllCons.mp made
    exact ih (.call built known done) rest

def Node.fresh (id : NodeId) (f : FeatureId) (parent : Option NodeId) : Node :=
  ⟨id, f, parent, [], #[.and], .first, .optional, false⟩

namespace FeatureModel

def withFeature (m : FeatureModel) (name : String) (type : FeatureType) : FeatureModel :=
  { m with
    features := m.features.push ⟨⟨m.features.size⟩, name, type, .empty⟩
    byName := m.byName.put name ⟨m.features.size⟩ }

def withNode (m : FeatureModel) (f : FeatureId) (parent : Option NodeId) : FeatureModel :=
  { m with
    nodes := m.nodes.push (.fresh ⟨m.nodes.size⟩ f parent)
    placements := m.placements.update f (·.getD ⟨m.nodes.size⟩) }

def setNode (m : FeatureModel) (n : NodeId) (node : Node) : FeatureModel :=
  { m with nodes := m.nodes.setIfInBounds n.index node }

structure Adjusts (m : FeatureModel) (old new : Node) : Prop where
  id : new.id = old.id
  feature : new.feature = old.feature
  parent : new.parent = old.parent
  children : new.children = old.children
  groups : old.groups.size ≤ new.groups.size
  group : new.parentGroup = old.parentGroup ∨ ∃ p above, old.parent = some p ∧
    m.nodes[p.index]? = some above ∧ new.parentGroup.index < above.groups.size

def Refers (m : FeatureModel) (formula : Formula) (name : String) (f : FeatureId) : Prop :=
  m.byName.get? name = some f ∧ ∃ feature, m.features[f.index]? = some feature ∧
    (feature.type.isNumeric = true → formula.contains (.literal name) = false)

theorem withNodeOld {m : FeatureModel} {f : FeatureId} {q : Option NodeId} {i : Nat}
    (old : i < m.nodes.size) : (m.withNode f q).nodes[i]? = m.nodes[i]? := by
  simp [withNode, Array.getElem?_push, Nat.ne_of_lt old]

theorem resolveEqOk {m : FeatureModel} {formula name f} :
    m.resolve formula name = .ok f ↔ m.Refers formula name f := by
  unfold resolve Refers featureByName
  cases found : m.byName.get? name with
  | none => simp [throw, throwThe, MonadExceptOf.throw]
  | some id =>
    simp only [bindEqOk, feature, fetchEqOk, Option.some.injEq]
    constructor
    · rintro ⟨feature, stored, last⟩
      split at last
      · simp [bind, Except.bind, throw, throwThe, MonadExceptOf.throw] at last
      · rename_i allowed
        exact ⟨pureEqOk.mp last, feature, pureEqOk.mp last ▸ stored, by simpa using allowed⟩
    · rintro ⟨rfl, feature, stored, allowed⟩
      exact ⟨feature, stored, by rw [if_neg (by simpa using allowed)]; rfl⟩

end FeatureModel

inductive Change (m : FeatureModel) : FeatureModel → Prop
  | declare {name type} (fresh : m.byName.contains name = false) :
      Change m (m.withFeature name type)
  | describe {f feature attributes} (found : m.features[f]? = some feature) :
      Change m { m with features := m.features.setIfInBounds f { feature with attributes } }
  | addRoot {f} (declared : f.index < m.features.size) :
      Change m { m.withNode f none with roots := m.roots ++ [⟨m.nodes.size⟩] }
  | addChild {f p above} (declared : f.index < m.features.size)
      (found : m.nodes[p.index]? = some above) :
      Change m ((m.withNode f (some p)).setNode p
        { above with children := above.children ++ [⟨m.nodes.size⟩] })
  | adjust {n old new} (found : m.nodes[n.index]? = some old) (adjusts : m.Adjusts old new) :
      Change m (m.setNode n new)
  | constrain {formula referenced}
      (refers : List.Forall₂ (m.Refers formula) formula.names referenced) :
      Change m { m with constraints := m.constraints.push ⟨formula, referenced⟩ }

namespace Example

def rackCalls : List Call :=
  [.addRootFeature "Server", .makeMandatory ⟨0⟩, .addChildFeature ⟨0⟩ "Slot",
    .setCardinality ⟨1⟩ 1 2, .setGroupKind ⟨1⟩ .alternative, .declare "Speed" .integer,
    .addChild ⟨1⟩ ⟨2⟩, .addChildFeature ⟨0⟩ "Backup",
    .addConstraint (.implies (.literal "Backup") (.literal "Slot")),
    .addConstraint (.implies (.literal "Slot")
      (.comparison .greater (.var ⟨"Speed", .integer⟩) (.constant (.int 0))))]

def rack : FeatureModel where
  features := #[⟨⟨0⟩, "Server", .boolean, .empty⟩, ⟨⟨1⟩, "Slot", .boolean, .empty⟩,
    ⟨⟨2⟩, "Speed", .integer, .empty⟩, ⟨⟨3⟩, "Backup", .boolean, .empty⟩]
  nodes := #[⟨⟨0⟩, ⟨0⟩, none, [⟨1⟩, ⟨3⟩], #[.and], .first, .optional, true⟩,
    ⟨⟨1⟩, ⟨1⟩, some ⟨0⟩, [⟨2⟩], #[.alternative], .first, ⟨1, 2, by decide, by decide⟩, false⟩,
    ⟨⟨2⟩, ⟨2⟩, some ⟨1⟩, [], #[.and], .first, .optional, false⟩,
    ⟨⟨3⟩, ⟨3⟩, some ⟨0⟩, [], #[.and], .first, .optional, false⟩]
  roots := [⟨0⟩]
  constraints := #[
    ⟨.implies (.literal "Backup") (.literal "Slot"), [⟨3⟩, ⟨1⟩]⟩,
    ⟨.implies (.literal "Slot")
      (.comparison .greater (.var ⟨"Speed", .integer⟩) (.constant (.int 0))), [⟨1⟩, ⟨2⟩]⟩]
  byName := ⟨[("Backup", ⟨3⟩), ("Server", ⟨0⟩), ("Slot", ⟨1⟩), ("Speed", ⟨2⟩)], by decide⟩
  placements := ⟨[(⟨0⟩, ⟨0⟩), (⟨1⟩, ⟨1⟩), (⟨2⟩, ⟨2⟩), (⟨3⟩, ⟨3⟩)], by decide⟩

theorem rackBuilt : Built rack := by
  have made : Call.makeAll rackCalls .empty = some rack := rfl
  exact Built.empty.makeAll made

end Example
end ProductLine
