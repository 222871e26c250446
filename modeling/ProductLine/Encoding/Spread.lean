import ProductLine.Model.Forest
import ProductLine.Group

/-!
How a node occurs below one occurrence of its parent: once, or as numbered clones. Clones are
selected from the first on, each only with the one before it, so that the same choice is not made
in several ways.
-/
namespace ProductLine

structure Occurrence where
  symbol : Variable
  index : Option Nat
  /-- Whether what lies below is named after it: it is a clone or lies below one. -/
  qualifies : Bool
  deriving DecidableEq, Repr

namespace Occurrence

def term (o : Occurrence) : Formula := o.symbol.selected

def suffix? (o : Occurrence) : Option String := if o.qualifies then some o.symbol.name else none

def conditions (parent : Formula) (previous : Option Occurrence) (o : Occurrence) : List Formula :=
  .implies o.term parent :: (previous.map fun q => .implies o.term q.term).toList

end Occurrence

inductive Spread where
  | single (o : Occurrence)
  | clones (os : List Occurrence)
  deriving DecidableEq, Repr

namespace Spread

def occurrences : Spread → List Occurrence
  | single o => [o]
  | clones os => os

def term : Spread → Formula
  | single o => o.term
  | clones os => .or (os.map Occurrence.term)

def steps (s : Spread) : List (Option Occurrence × Occurrence) :=
  (none :: s.occurrences.map some).zip s.occurrences

def lowerBound (parent : Formula) (lower : UInt32) : Spread → List Formula
  | single _ => []
  | clones os =>
    if 0 < lower then [.implies parent (.join (.atLeast lower) (os.map Occurrence.term))] else []

end Spread

namespace Placed

def identifier (p : Placed) (index : Option Nat) (suffix : Option String) : String :=
  p.feature.name ++ (index.map fun i => "_" ++ toString i).getD "" ++
    (suffix.map ("." ++ ·)).getD ""

def occurrence (p : Placed) (index : Option Nat) (suffix : Option String) : Occurrence :=
  ⟨⟨p.identifier index suffix, p.sort⟩, index, index.isSome || suffix.isSome⟩

def spread (p : Placed) (suffix : Option String) : Spread :=
  if p.node.isRepeated then
    .clones ((List.range p.node.cardinality.upper.toNat).map fun i =>
      p.occurrence (some (i + 1)) suffix)
  else .single (p.occurrence none suffix)

def member (p : Placed) (suffix : Option String) : GroupMember :=
  ⟨(p.spread suffix).term, p.node.parentGroup, p.node.mandatory⟩

def groupConjuncts (p : Placed) (term : Formula) (suffix : Option String) (below : List Placed) :
    List Formula :=
  encodeGroups term p.node.groups.toList (below.map (·.member suffix))

def rootConjuncts (p : Placed) : List Formula :=
  if p.node.mandatory then [(p.occurrence none none).term] else []

end Placed
end ProductLine
