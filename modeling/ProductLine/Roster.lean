import ProductLine.Failure

/-!
The instances of a model's nodes: each is one occurrence of a node, below an earlier instance or on
its own. The roster keeps lists of the instances below each instance and of those of each node,
both in order of entry.
-/
namespace ProductLine

structure Instance where
  node : NodeId
  feature : FeatureId
  parent : Option InstanceId
  identifier : String
  /-- Its number among the clones below one parent, from 1, if its node is repeated. -/
  index : Option Nat
  term : Formula

structure Roster where
  instances : Array Instance := #[]
  children : Array (List InstanceId) := #[]
  byNode : SortedMap NodeId (List InstanceId) := .empty

namespace Roster

def empty : Roster := {}

def size (r : Roster) : Nat := r.instances.size

def isEmpty (r : Roster) : Bool := r.size == 0

def nextId (r : Roster) : InstanceId := ⟨r.size⟩

def enter (r : Roster) (i : Instance) : Roster where
  instances := r.instances.push i
  children :=
    let above := match i.parent with
      | some p => r.children.modify p.index (· ++ [r.nextId])
      | none => r.children
    above.push []
  byNode := r.byNode.update i.node (·.getD [] ++ [r.nextId])

def add (r : Roster) (i : Instance) : Except Failure Roster := do
  if let some p := i.parent then
    let _ ← fetch r.children p.index
  return r.enter i

def get (r : Roster) (i : InstanceId) : Except Failure Instance := fetch r.instances i.index

def childrenOf (r : Roster) (i : InstanceId) : Except Failure (List InstanceId) :=
  fetch r.children i.index

def ofNode (r : Roster) (n : NodeId) : List InstanceId := (r.byNode.get? n).getD []

def below (r : Roster) (i : InstanceId) : List InstanceId := r.children[i.index]?.getD []

def unqueue (r : Roster) : Nat → List InstanceId → List InstanceId
  | 0, _ | _, [] => []
  | steps + 1, i :: rest => i :: r.unqueue steps (rest ++ r.below i)

def subtree (r : Roster) (start : InstanceId) : List InstanceId := r.unqueue r.size [start]

def isOf (r : Roster) (f : FeatureId) (i : InstanceId) : Bool :=
  r.instances[i.index]?.any (·.feature == f)

def findUnder (r : Roster) (start : InstanceId) (f : FeatureId) :
    Except Failure (List InstanceId) := do
  let _ ← r.get start
  return (r.subtree start).filter (r.isOf f)

def terms (r : Roster) (ids : List InstanceId) : Except Failure (List Formula) :=
  ids.mapM fun i => Instance.term <$> r.get i

end Roster
end ProductLine
