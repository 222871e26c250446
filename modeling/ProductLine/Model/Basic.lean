import ProductLine.Failure
import ProductLine.Formula.Names

/-!
Feature models: features, their placements in a forest of nodes, and constraints across the forest.
A node keeps its children and its groups; names and first placements are kept in tables beside the
stores, so that looking one up does not search them.
-/
namespace ProductLine

structure Cardinality where
  lower : UInt32
  upper : UInt32
  positive : 1 ≤ upper := by decide
  ordered : lower ≤ upper := by decide
  deriving DecidableEq, Repr

namespace Cardinality

def optional : Cardinality := ⟨0, 1, by decide, by decide⟩

def ofBounds (lower upper : UInt32) : Except Failure Cardinality :=
  if positive : 1 ≤ upper then
    if ordered : lower ≤ upper then .ok ⟨lower, upper, positive, ordered⟩
    else .error (.misused .crossedBounds)
  else .error (.misused .zeroUpperBound)

def isRepeatable (c : Cardinality) : Bool := 1 < c.upper

end Cardinality

inductive GroupKind where
  | and
  | or
  | alternative
  /-- At least `lower` and, if there is an upper bound, no more than that. -/
  | cardinality (lower : UInt32) (upper : Option UInt32)
  deriving DecidableEq, Repr

structure Node where
  id : NodeId
  feature : FeatureId
  parent : Option NodeId
  children : List NodeId
  groups : Array GroupKind
  /-- The group of the parent that the node belongs to. -/
  parentGroup : GroupId
  cardinality : Cardinality
  mandatory : Bool
  deriving DecidableEq, Repr

namespace Node

def isRoot (n : Node) : Bool := n.parent.isNone

def isRepeated (n : Node) : Bool := n.parent.isSome && n.cardinality.isRepeatable

end Node

structure Constraint where
  formula : Formula
  /-- The features named in the formula, in order of first occurrence. -/
  referenced : List FeatureId

structure FeatureModel where
  features : Array Feature := #[]
  nodes : Array Node := #[]
  roots : List NodeId := []
  constraints : Array Constraint := #[]
  byName : SortedMap String FeatureId := .empty
  placements : SortedMap FeatureId NodeId := .empty

namespace FeatureModel

def empty : FeatureModel := {}

def feature (m : FeatureModel) (f : FeatureId) : Except Failure Feature := fetch m.features f.index
def node (m : FeatureModel) (n : NodeId) : Except Failure Node := fetch m.nodes n.index

def constraint (m : FeatureModel) (index : Nat) : Except Failure Constraint :=
  fetch m.constraints index

def featureByName (m : FeatureModel) (name : String) : Option FeatureId := m.byName.get? name

def placement (m : FeatureModel) (f : FeatureId) : Option NodeId := m.placements.get? f

def nodeFeature (m : FeatureModel) (n : NodeId) : Except Failure Feature := do
  m.feature (← m.node n).feature

def resolve (m : FeatureModel) (f : Formula) (name : String) : Except Failure FeatureId := do
  match m.featureByName name with
  | none => throw (.rejected (.unknownFeature name))
  | some id =>
    let feature ← m.feature id
    if feature.type.isNumeric && f.contains (.literal name) then
      throw (.rejected (.nonBooleanLiteral name feature.type))
    return id

end FeatureModel
end ProductLine
