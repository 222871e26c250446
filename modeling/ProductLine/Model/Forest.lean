import ProductLine.Model.Basic
import ProductLine.Atom

/-!
The nodes below the roots as trees that hold their features, so that what is computed from a model
recurses on data. Growing fails at the first node whose feature is missing or has no variable: the
children of a node are looked at together, before anything below them.
-/
namespace ProductLine

structure Placed where
  node : Node
  feature : Feature
  sort : ValueSort

inductive Tree where
  | mk (place : Placed) (children : List Tree)

namespace Tree

def place : Tree → Placed
  | mk p _ => p

def children : Tree → List Tree
  | mk _ ts => ts

mutual

def places : Tree → List Placed
  | mk p ts => p :: placesAll ts

def placesAll : List Tree → List Placed
  | [] => []
  | t :: ts => t.places ++ placesAll ts

end

theorem placesAllFlatMap (ts : List Tree) : placesAll ts = ts.flatMap places := by
  induction ts with
  | nil => rfl
  | cons t ts ih => simp [placesAll, ih]

@[induction_eliminator]
theorem induction {motive : Tree → Prop}
    (mk : ∀ p ts, (∀ t ∈ ts, motive t) → motive (.mk p ts)) (t : Tree) : motive t :=
  @Tree.rec motive (fun ts => ∀ t ∈ ts, motive t) mk
    (fun _ inside => nomatch inside)
    (fun _ _ head tail t inside => by
      rcases List.mem_cons.mp inside with rfl | inside
      · exact head
      · exact tail t inside)
    t

end Tree

namespace FeatureModel

def placed (m : FeatureModel) (n : NodeId) : Except Failure Placed := do
  let node ← m.node n
  let feature ← m.feature node.feature
  return ⟨node, feature, ← feature.sort⟩

def grow (m : FeatureModel) : Nat → Placed → Except Failure Tree
  | 0, p => return .mk p []
  | depth + 1, p => do
    let below ← p.node.children.mapM m.placed
    return .mk p (← below.mapM (m.grow depth))

def tree (m : FeatureModel) (root : NodeId) : Except Failure Tree := do
  m.grow m.nodes.size (← m.placed root)

/-- No path down is longer than there are nodes. -/
def forest (m : FeatureModel) : Except Failure (List Tree) := m.roots.mapM m.tree

end FeatureModel
end ProductLine
