import ProductLine.Model.Basic

/-!
What a node asks of a choice among its children: the mandatory ones of its and-groups, and the
right number from each group that has children.
-/
namespace ProductLine

def GroupKind.Allows : GroupKind → Nat → Prop
  | and, _ => True
  | or, n => 1 ≤ n
  | alternative, n => n = 1
  | cardinality low high, n => low.toNat ≤ n ∧ ∀ most, high = some most → n ≤ most.toNat

namespace FeatureModel

def isIn (m : FeatureModel) (i : Nat) (n : NodeId) : Bool :=
  m.nodes[n.index]?.any (·.parentGroup.index == i)

/-- No node has so many children that they could not be counted. -/
def Narrow (m : FeatureModel) : Prop := ∀ n ∈ m.nodes, n.children.length < UInt32.size

instance (m : FeatureModel) : Decidable m.Narrow :=
  inferInstanceAs (Decidable (∀ n ∈ m.nodes, _ < _))

structure Balanced (m : FeatureModel) (n : Node) (shown : NodeId → Bool) : Prop where
  forced : ∀ (c : NodeId) (child : Node), c ∈ n.children → m.nodes[c.index]? = some child →
    child.mandatory = true → n.groups[child.parentGroup.index]? = some .and → shown c = true
  groups : ∀ (i : Nat) (kind : GroupKind), n.groups[i]? = some kind →
    (∃ c ∈ n.children, m.isIn i c = true) →
    kind.Allows (n.children.countP fun c => m.isIn i c && shown c)

end FeatureModel
end ProductLine
