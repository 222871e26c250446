import ProductLine.Formula.Basic
import ProductLine.SortedSet

/-!
What a formula speaks of: its parts in reading order, the names of its literals and variables, its
typed variables, and whether an aggregate occurs in it.
-/
namespace ProductLine.Formula

mutual

def subformulas : Formula → List Formula
  | constant b => [constant b]
  | literal name => [literal name]
  | comparison op lhs rhs => [comparison op lhs rhs]
  | not f => not f :: f.subformulas
  | implies f g => implies f g :: (f.subformulas ++ g.subformulas)
  | iff f g => iff f g :: (f.subformulas ++ g.subformulas)
  | join c fs => join c fs :: subformulasAll fs

def subformulasAll : List Formula → List Formula
  | [] => []
  | f :: fs => f.subformulas ++ subformulasAll fs

end

theorem subformulasAllFlatMap (fs : List Formula) :
    subformulasAll fs = fs.flatMap subformulas := by
  induction fs with
  | nil => rfl
  | cons f fs ih => simp [subformulasAll, ih]

theorem subformulasEq (f : Formula) :
    f.subformulas = f :: f.operands.flatMap subformulas := by
  cases f <;> simp [subformulas, operands, subformulasAllFlatMap]

def terms : Formula → List Term
  | comparison _ lhs rhs => [lhs, rhs]
  | _ => []

def ownSymbols : Formula → List Variable
  | literal name => [⟨name, .boolean⟩]
  | comparison _ lhs rhs => [lhs, rhs].filterMap Term.var?
  | _ => []

def names (f : Formula) : List String :=
  (f.subformulas.flatMap fun g => g.ownSymbols.map Variable.name).eraseDups

def symbols (f : Formula) : SortedSet Variable :=
  .ofList (f.subformulas.flatMap ownSymbols)

def mentionsVariable (f : Formula) (name : String) : Bool :=
  f.subformulas.any fun g => g.terms.any fun t => t.var?.any (·.name == name)

def containsAggregate (f : Formula) : Bool :=
  f.subformulas.any fun g => g.terms.any Term.isAggregate

mutual

def contains : Formula → Formula → Bool
  | constant b, target => (constant b).same target
  | literal name, target => (literal name).same target
  | comparison op lhs rhs, target => (comparison op lhs rhs).same target
  | not f, target => (not f).same target || f.contains target
  | implies f g, target => (implies f g).same target || f.contains target || g.contains target
  | iff f g, target => (iff f g).same target || f.contains target || g.contains target
  | join c fs, target => (join c fs).same target || anyContains fs target

def anyContains : List Formula → Formula → Bool
  | [], _ => false
  | f :: fs, target => f.contains target || anyContains fs target

end

theorem anyContainsEq (fs : List Formula) (target : Formula) :
    anyContains fs target = fs.any (contains · target) := by
  induction fs with
  | nil => rfl
  | cons f fs ih => simp [anyContains, ih]

theorem containsEq (f target : Formula) :
    f.contains target = (f.same target || f.operands.any (contains · target)) := by
  cases f <;> simp [contains, operands, anyContainsEq, Bool.or_assoc]

end ProductLine.Formula
