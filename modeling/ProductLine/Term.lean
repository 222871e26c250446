import ProductLine.SortedMap
import ProductLine.Decimal

/-!
Terms of comparisons: typed variables, constants and attribute aggregates. Equality of terms
(`same`) is that of their parts, except that constants are compared as numbers.
-/
namespace ProductLine

inductive ValueSort where
  | boolean | integer | float
  deriving DecidableEq, Repr

namespace ValueSort

def render : ValueSort → String
  | boolean => "bool"
  | integer => "int"
  | float => "float"

def rank : ValueSort → Nat
  | boolean => 0
  | integer => 1
  | float => 2

instance : Ord ValueSort := ⟨compareOn rank⟩
instance : Std.TransOrd ValueSort := inferInstanceAs (Std.TransCmp (compareOn rank))

instance : Std.LawfulEqOrd ValueSort where
  compare_self {s} := by cases s <;> rfl
  eq_of_compare {s t} := by cases s <;> cases t <;> decide

end ValueSort

structure Variable where
  name : String
  sort : ValueSort
  deriving DecidableEq, Repr

namespace Variable

def render (v : Variable) : String := v.name ++ ": " ++ v.sort.render

instance : Ord Variable := ⟨compareLex (compareOn name) (compareOn sort)⟩
instance : Std.TransOrd Variable :=
  inferInstanceAs (Std.TransCmp (compareLex (compareOn name) (compareOn sort)))

instance : Std.LawfulEqOrd Variable where
  compare_self {v} := @Std.ReflCmp.compare_self _ (compareLex (compareOn name) (compareOn sort)) _ v
  eq_of_compare {v w} h := by
    obtain ⟨n, s⟩ := v
    obtain ⟨m, t⟩ := w
    obtain ⟨names, sorts⟩ : compare n m = .eq ∧ compare s t = .eq := Ordering.then_eq_eq.mp h
    cases Std.LawfulEqCmp.eq_of_compare names
    cases Std.LawfulEqCmp.eq_of_compare sorts
    rfl

end Variable

inductive Value where
  | bool (b : Bool)
  | int (n : Int64)
  | float (x : Binary64)
  deriving DecidableEq, Repr

namespace Value

def render : Value → String
  | bool true => "true"
  | bool false => "false"
  | int n => toString n.toInt
  | float x => x.render .constant

/-- Numbers of both kinds are ordered together, an integer standing for the binary64 number
nearest to it; truth values only among themselves. -/
def compare? : Value → Value → Option Ordering
  | bool a, bool b => some (compare a b)
  | int m, int n => some (compare m.toInt n.toInt)
  | int m, float y => (Binary64.ofInt64 m).compare? y
  | float x, int n => x.compare? (Binary64.ofInt64 n)
  | float x, float y => x.compare? y
  | _, _ => none

def same : Value → Value → Bool
  | bool a, bool b => a == b
  | int m, int n => m == n
  | float x, float y => x.same y
  | _, _ => false

def bool? : Value → Option Bool
  | bool b => some b
  | _ => none

end Value

inductive Aggregate where
  | sum (ofAttribute : String)
  | average (ofAttribute : String)
  deriving DecidableEq, Repr

def Aggregate.render : Aggregate → String
  | sum name => "sum(" ++ name ++ ")"
  | average name => "avg(" ++ name ++ ")"

inductive Comparison where
  | equal | notEqual | less | lessEqual | greater | greaterEqual
  deriving DecidableEq, Repr

namespace Comparison

def render : Comparison → String
  | equal => "=="
  | notEqual => "!="
  | less => "<"
  | lessEqual => "<="
  | greater => ">"
  | greaterEqual => ">="

def holds : Comparison → Ordering → Bool
  | equal, o => o == .eq
  | notEqual, o => o != .eq
  | less, o => o == .lt
  | lessEqual, o => o != .gt
  | greater, o => o == .gt
  | greaterEqual, o => o != .lt

end Comparison

inductive Term where
  | var (v : Variable)
  | constant (c : Value)
  | aggregate (a : Aggregate)
  deriving DecidableEq, Repr

namespace Term

def render : Term → String
  | var v => v.name
  | constant c => c.render
  | aggregate a => a.render

def same : Term → Term → Bool
  | var v, var w => v == w
  | constant c, constant d => c.same d
  | aggregate a, aggregate b => a == b
  | _, _ => false

def var? : Term → Option Variable
  | var v => some v
  | _ => none

def isAggregate : Term → Bool
  | aggregate _ => true
  | _ => false

def rename (image : Variable → Option Variable) : Term → Term
  | var v => var ((image v).getD v)
  | t => t

end Term
end ProductLine
