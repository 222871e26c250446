import ProductLine.Context
import ProductLine.Atom
import ProductLine.Roster
import ProductLine.Formula.Substitution

/-!
Copies of constraints that concern repeated nodes. A constraint holds in every clone of each of its
contexts: seen from a clone, a feature stands for its instances at or below the clone if it belongs
there, and for all its instances otherwise. A constraint that reaches across contexts also holds
once with every feature standing for all its instances.
-/
namespace ProductLine

inductive MissingPolicy where
  | fail
  | keepFeature
  deriving DecidableEq, Repr

inductive Resolution where
  | instances (found : List InstanceId)
  | itself
  deriving DecidableEq, Repr

structure CopySource where
  model : FeatureModel
  roster : Roster
  policy : MissingPolicy

namespace CopySource

def missing (s : CopySource) (f : FeatureId) (context : String) : Except Failure Resolution := do
  let feature ← s.model.feature f
  match s.policy with
  | .fail => throw (.rejected (.missingContextualInstance feature.name context))
  | .keepFeature => return .itself

def found (s : CopySource) (f : FeatureId) (context : String) :
    List InstanceId → Except Failure Resolution
  | [] => s.missing f context
  | ids => .ok (.instances ids)

def everywhere (s : CopySource) (f : FeatureId) : Except Failure Resolution :=
  match s.model.placement f with
  | none => .ok .itself
  | some n => s.found f "model" (s.roster.ofNode n)

def belongs (s : CopySource) (repeated : NodeId) : Context → Except Failure Bool
  | .root => .ok false
  | .within own => if own = repeated then .ok true else s.model.isAncestor repeated own

def seenFrom (s : CopySource) (repeated : NodeId) (clone : InstanceId) (f : FeatureId) :
    Except Failure Resolution := do
  if ← s.belongs repeated (← s.model.context f) then
    let label := (← s.roster.get clone).identifier
    s.found f label (← s.roster.findUnder clone f)
  else s.everywhere f

structure Reference where
  feature : Feature
  resolution : Resolution
  target : Formula
  replacement : Formula

def refer (s : CopySource) (resolve : FeatureId → Except Failure Resolution) (f : FeatureId) :
    Except Failure Reference := do
  let resolution ← resolve f
  let feature ← s.model.feature f
  let target ← feature.plainFormula
  match resolution with
  | .itself => return ⟨feature, resolution, target, target⟩
  | .instances ids => return ⟨feature, resolution, target, .disjunction (← s.roster.terms ids)⟩

def valueName (s : CopySource) (label : String) (body : Formula) (r : Reference) :
    Except Failure (Option Renaming) := do
  match r.resolution with
  | .itself => return none
  | .instances ids =>
    if body.mentionsVariable r.feature.name then
      match ids with
      | [single] => return some ⟨r.feature.name, (← s.roster.get single).identifier, none⟩
      | _ => throw (.rejected (.ambiguousFeatureValue r.feature.name label))
    else return none

/-- Selections become those of instances, then values that are still asked for become theirs. -/
def copy (s : CopySource) (label : String) (resolve : FeatureId → Except Failure Resolution)
    (c : Constraint) : Except Failure Formula := do
  let references ← c.referenced.mapM (s.refer resolve)
  let pairs := references.map fun r => (r.target, r.replacement)
  let body := c.formula.substitute (Formula.firstReplacement pairs)
  let renamings ← references.mapM (s.valueName label body)
  return body.renameVariables (Renaming.first (renamings.filterMap id))

def guarded (s : CopySource) (repeated : NodeId) (clone : InstanceId) (c : Constraint) :
    Except Failure Formula := do
  let guard ← s.roster.get clone
  return .implies guard.term (← s.copy guard.identifier (s.seenFrom repeated clone) c)

def unguarded (s : CopySource) (c : Constraint) : Except Failure Formula :=
  s.copy "model" s.everywhere c

def forNode (s : CopySource) (cs : List Constraint) (repeated : NodeId) :
    Except Failure (List Formula) :=
  List.flatten <$> (s.roster.ofNode repeated).mapM fun clone => cs.mapM (s.guarded repeated clone)

def forBucket (s : CopySource) (contexts : ContextSet) (positions : List Nat) :
    Except Failure (List Formula) := do
  let cs ← positions.mapM s.model.constraint
  let perClone ← contexts.nodes.mapM (s.forNode cs)
  match contexts.scope with
  | .across => return perClone.flatten ++ (← cs.mapM s.unguarded)
  | _ => return perClone.flatten

def copies (s : CopySource) (b : Buckets) : Except Failure (List Formula) :=
  List.flatten <$> b.byContexts.entries.mapM fun entry => s.forBucket entry.1 entry.2

end CopySource
end ProductLine
