import ProductLine.Term

/-!
Formulas over boolean literals and comparisons. All connectives that speak of how many of their
operands hold share the constructor `join`. Equality of formulas (`same`) is that of their parts,
constants being compared as numbers, so it is not reflexive at a NaN.
-/
namespace ProductLine

inductive Connective where
  | and
  | or
  | choose (k : UInt32)
  | atLeast (k : UInt32)
  | atMost (k : UInt32)
  | between (low high : UInt32)
  deriving DecidableEq, Repr

inductive Formula where
  | constant (b : Bool)
  | literal (name : String)
  | comparison (op : Comparison) (lhs rhs : Term)
  | not (operand : Formula)
  | implies (premise conclusion : Formula)
  | iff (lhs rhs : Formula)
  | join (connective : Connective) (operands : List Formula)
  deriving Inhabited, Repr

namespace Formula

abbrev and (operands : List Formula) : Formula := .join .and operands
abbrev or (operands : List Formula) : Formula := .join .or operands

def negate : Formula → Formula
  | not f => f
  | f => not f

def disjunction : List Formula → Formula
  | [] => constant false
  | [f] => f
  | fs => .or fs

def operands : Formula → List Formula
  | constant _ | literal _ | comparison .. => []
  | not f => [f]
  | implies f g | iff f g => [f, g]
  | join _ fs => fs

def mapOperands (change : Formula → Formula) : Formula → Formula
  | constant b => constant b
  | literal name => literal name
  | comparison op lhs rhs => comparison op lhs rhs
  | not f => not (change f)
  | implies f g => implies (change f) (change g)
  | iff f g => iff (change f) (change g)
  | join c fs => join c (fs.map change)

@[simp] theorem operandsMap (change : Formula → Formula) (f : Formula) :
    (f.mapOperands change).operands = f.operands.map change := by
  cases f <;> rfl

mutual

def same : Formula → Formula → Bool
  | constant a, constant b => a == b
  | literal m, literal n => m == n
  | comparison op l r, comparison op' l' r' => op == op' && l.same l' && r.same r'
  | not f, not g => f.same g
  | implies f g, implies f' g' => f.same f' && g.same g'
  | iff f g, iff f' g' => f.same f' && g.same g'
  | join c fs, join d gs => c == d && sameAll fs gs
  | _, _ => false

def sameAll : List Formula → List Formula → Bool
  | [], [] => true
  | f :: fs, g :: gs => f.same g && sameAll fs gs
  | _, _ => false

end

@[induction_eliminator]
theorem induction {motive : Formula → Prop}
    (constant : ∀ b, motive (.constant b))
    (literal : ∀ name, motive (.literal name))
    (comparison : ∀ op lhs rhs, motive (.comparison op lhs rhs))
    (not : ∀ f, motive f → motive (.not f))
    (implies : ∀ f g, motive f → motive g → motive (.implies f g))
    (iff : ∀ f g, motive f → motive g → motive (.iff f g))
    (join : ∀ c fs, (∀ f ∈ fs, motive f) → motive (.join c fs)) (f : Formula) : motive f :=
  @Formula.rec motive (fun fs => ∀ f ∈ fs, motive f)
    constant literal comparison not implies iff join
    (fun _ inside => nomatch inside)
    (fun _ _ head tail f inside => by
      rcases List.mem_cons.mp inside with rfl | inside
      · exact head
      · exact tail f inside)
    f

end Formula
end ProductLine
