import ProductLine.Model.Basic

/-!
What the groups of a node demand of its children, as implications from the node's own term: one for
each mandatory child of an and-group, then one for each other group that has children and a rule.
-/
namespace ProductLine

structure GroupMember where
  term : Formula
  group : GroupId
  mandatory : Bool

def GroupKind.rule : GroupKind → Option Connective
  | and | cardinality 0 none => none
  | or => some .or
  | alternative => some (.choose 1)
  | cardinality 0 (some high) => some (.atMost high)
  | cardinality low (some high) => some (.between low high)
  | cardinality low none => some (.atLeast low)

def GroupKind.encode (kind : GroupKind) (parent : Formula) (terms : List Formula) :
    Option Formula :=
  kind.rule.map fun rule => .implies parent (.join rule terms)

namespace GroupMember

def isIn (group : Nat) (child : GroupMember) : Bool := child.group.index == group

/-- Whether the child goes with its parent by itself: other groups than and-groups decide for their
mandatory children too. -/
def isForced (groups : List GroupKind) (child : GroupMember) : Bool :=
  child.mandatory && groups[child.group.index]? == some .and

end GroupMember

def groupTerms (groups : List GroupKind) (members : List GroupMember) :
    List (GroupKind × List Formula) :=
  groups.zipIdx.map fun (kind, i) => (kind, (members.filter (·.isIn i)).map GroupMember.term)

def encodeGroups (parent : Formula) (groups : List GroupKind) (members : List GroupMember) :
    List Formula :=
  (members.filter (·.isForced groups)).map (fun child => .implies parent child.term) ++
    (groupTerms groups members).filterMap fun (kind, terms) =>
      if terms.isEmpty then none else kind.encode parent terms

end ProductLine
