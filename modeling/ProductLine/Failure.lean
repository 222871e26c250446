import ProductLine.Formula.Render
import ProductLine.Model.Feature

/-!
Why an operation gives no result. A rejection is a finding about the model; a misuse is a call that
the caller should not have made, such as one with a handle of something that is not there.
-/
namespace ProductLine

inductive Rejection where
  | unsupportedFeatureType (feature : String) (type : FeatureType)
  | aggregateCardinalityConflict (rejected : Formula)
  | missingContextualInstance (feature context : String)
  /-- The value of a feature is asked for where it has several instances. -/
  | ambiguousFeatureValue (feature context : String)
  | nonBooleanLiteral (name : String) (type : FeatureType)
  | unknownFeature (name : String)
  | noRoot

def Rejection.message : Rejection → String
  | unsupportedFeatureType feature type =>
    "feature '" ++ feature ++ "' has type " ++ type.render ++
      ", which has no literal representation"
  | aggregateCardinalityConflict rejected =>
    "constraint '" ++ rejected.render ++
      "' uses an attribute aggregate, which cannot be combined with cardinality features"
  | missingContextualInstance feature context =>
    "no instance of feature '" ++ feature ++ "' found in context '" ++ context ++ "'"
  | ambiguousFeatureValue feature context =>
    "feature '" ++ feature ++ "' has several instances in context '" ++ context ++
      "', its value is ambiguous"
  | nonBooleanLiteral name type =>
    "feature '" ++ name ++ "' has type " ++ type.render ++
      " and cannot be used as a boolean literal"
  | unknownFeature name => "unknown feature '" ++ name ++ "'"
  | noRoot => "feature model has no root"

inductive Misuse where
  /-- A handle past the end of its store. -/
  | outOfBounds (size index : Nat)
  | duplicateFeature (name : String)
  | zeroUpperBound
  | crossedBounds
  | missingGroup (node : NodeId) (group : GroupId)
  | rootWithoutGroup (node : NodeId)
  deriving DecidableEq, Repr

def Misuse.message : Misuse → String
  | outOfBounds size index =>
    "index out of bounds: the len is " ++ toString size ++ " but the index is " ++ toString index
  | duplicateFeature name => "Duplicate feature name '" ++ name ++ "'"
  | zeroUpperBound => "Feature cardinality upper bound must be >= 1"
  | crossedBounds => "Feature cardinality lower bound exceeds upper bound"
  | missingGroup node group => "Node " ++ node.render ++ " has no group " ++ group.render
  | rootWithoutGroup node => "Root node " ++ node.render ++ " has no parent group"

inductive Failure where
  | rejected (why : Rejection)
  | misused (how : Misuse)

namespace Failure

def message : Failure → String
  | rejected why => why.message
  | misused how => how.message

end Failure

def fetch {α : Type} (store : Array α) (index : Nat) : Except Failure α :=
  match store[index]? with
  | some x => .ok x
  | none => .error (.misused (.outOfBounds store.size index))

theorem fetchEqOk {α : Type} {store : Array α} {index : Nat} {x : α} :
    fetch store index = .ok x ↔ store[index]? = some x := by
  unfold fetch
  split <;> simp_all

end ProductLine
