import ProductLine.Formula.Basic

/-!
The value of a formula under an assignment. There is none where a needed name is unassigned, where
a literal's name has a number, where values do not compare, or where an aggregate stands. Every
operand is needed, except the conclusion of an implication whose premise is false.
-/
namespace ProductLine

abbrev Assignment := SortedMap String Value

def Assignment.selecting (names selected : List String) : Assignment :=
  .ofList (names.map (·, .bool false) ++ selected.map (·, .bool true))

def Term.value (a : Assignment) : Term → Option Value
  | var v => a.get? v.name
  | constant c => some c
  | aggregate _ => none

namespace Connective

def tally (values : List Bool) : UInt32 := UInt32.ofNat (values.count true)

def holds (values : List Bool) : Connective → Bool
  | and => values.all id
  | or => values.any id
  | choose k => tally values == k
  | atLeast k => k ≤ tally values
  | atMost k => tally values ≤ k
  | between low high => low ≤ tally values && tally values ≤ high

end Connective

namespace Formula

mutual

def evaluate (a : Assignment) : Formula → Option Bool
  | constant b => some b
  | literal name => do (← a.get? name).bool?
  | comparison op lhs rhs => do
    let x ← lhs.value a
    let y ← rhs.value a
    let order ← x.compare? y
    return op.holds order
  | not f => do return !(← f.evaluate a)
  | implies f g => do if ← f.evaluate a then g.evaluate a else return true
  | iff f g => do return (← f.evaluate a) == (← g.evaluate a)
  | join c fs => do return c.holds (← evaluateAll a fs)

def evaluateAll (a : Assignment) : List Formula → Option (List Bool)
  | [] => some []
  | f :: fs => do return (← f.evaluate a) :: (← evaluateAll a fs)

end

end Formula
end ProductLine
