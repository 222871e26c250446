import ProductLine.Model.Basic

/-!
Ways through the forest of a model: up along parent links (`lineage`), and down along lists of
children (`preorder`). Both are cut off after as many steps as there are nodes. A walk up may meet
a parent that is not there, since failed calls can leave such nodes behind; it then fails after the
nodes before it, and a search that ends earlier does not fail.
-/
namespace ProductLine

structure Lineage where
  met : List NodeId
  broken : Option Failure

namespace Lineage

def all (l : Lineage) : Except Failure (List NodeId) :=
  match l.broken with
  | none => .ok l.met
  | some failure => .error failure

def nearest (l : Lineage) (kind : NodeId → Bool) : Except Failure (Option NodeId) :=
  match l.met.find? kind, l.broken with
  | some n, _ => .ok (some n)
  | none, none => .ok none
  | none, some failure => .error failure

def any (l : Lineage) (kind : NodeId → Bool) : Except Failure Bool :=
  Option.isSome <$> l.nearest kind

end Lineage

namespace FeatureModel

def parent (m : FeatureModel) (n : NodeId) : Except Failure (Option NodeId) :=
  Node.parent <$> m.node n

def children (m : FeatureModel) (n : NodeId) : Except Failure (List NodeId) :=
  Node.children <$> m.node n

/-- The nodes strictly above `n`, in at most `steps` steps. A node counts as met once its own entry
was found. -/
def climb (m : FeatureModel) : Nat → Node → Lineage
  | 0, _ => ⟨[], none⟩
  | steps + 1, n =>
    match n.parent with
    | none => ⟨[], none⟩
    | some p =>
      match m.node p with
      | .error failure => ⟨[], some failure⟩
      | .ok above =>
        let rest := m.climb steps above
        ⟨p :: rest.met, rest.broken⟩

def lineage (m : FeatureModel) (n : NodeId) : Lineage :=
  match m.node n with
  | .error failure => ⟨[], some failure⟩
  | .ok node => m.climb m.nodes.size node

def ancestors (m : FeatureModel) (n : NodeId) : Except Failure (List NodeId) := (m.lineage n).all

def isAncestor (m : FeatureModel) (ancestor n : NodeId) : Except Failure Bool :=
  (m.lineage n).any (· == ancestor)

def repeats (m : FeatureModel) (n : NodeId) : Bool := m.nodes[n.index]?.any Node.isRepeated

def isRepeated (m : FeatureModel) (n : NodeId) : Except Failure Bool := Node.isRepeated <$> m.node n

def hasRepeatedAncestor (m : FeatureModel) (n : NodeId) : Except Failure Bool :=
  (m.lineage n).any m.repeats

def hasRepeatedNode (m : FeatureModel) : Bool := m.nodes.any Node.isRepeated

def below (m : FeatureModel) (n : NodeId) : List NodeId :=
  (m.nodes[n.index]?.map Node.children).getD []

def unstack (m : FeatureModel) : Nat → List NodeId → List NodeId
  | 0, _ | _, [] => []
  | steps + 1, n :: rest => n :: m.unstack steps (m.below n ++ rest)

def preorder (m : FeatureModel) : List NodeId := m.unstack m.nodes.size m.roots

end FeatureModel
end ProductLine
