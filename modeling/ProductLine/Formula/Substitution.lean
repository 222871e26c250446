import ProductLine.Formula.Basic

/-!
Simultaneous substitution and renaming. A formula is offered to the look-up before its parts, and
what is put in is not looked into, so several substitutions at once do not feed each other.
-/
namespace ProductLine.Formula

mutual

def substitute (lookup : Formula → Option Formula) : Formula → Formula
  | constant b => (lookup (constant b)).getD (constant b)
  | literal name => (lookup (literal name)).getD (literal name)
  | comparison op lhs rhs => (lookup (comparison op lhs rhs)).getD (comparison op lhs rhs)
  | not f => (lookup (not f)).getD (not (f.substitute lookup))
  | implies f g =>
    (lookup (implies f g)).getD (implies (f.substitute lookup) (g.substitute lookup))
  | iff f g => (lookup (iff f g)).getD (iff (f.substitute lookup) (g.substitute lookup))
  | join c fs => (lookup (join c fs)).getD (join c (substituteAll lookup fs))

def substituteAll (lookup : Formula → Option Formula) : List Formula → List Formula
  | [] => []
  | f :: fs => f.substitute lookup :: substituteAll lookup fs

end

theorem substituteAllMap (lookup : Formula → Option Formula) (fs : List Formula) :
    substituteAll lookup fs = fs.map (substitute lookup) := by
  induction fs with
  | nil => rfl
  | cons f fs ih => simp [substituteAll, ih]

theorem substituteEq (lookup : Formula → Option Formula) (f : Formula) :
    f.substitute lookup = (lookup f).getD (f.mapOperands (substitute lookup)) := by
  cases f <;> simp [substitute, mapOperands, substituteAllMap]

def firstReplacement (pairs : List (Formula × Formula)) (f : Formula) : Option Formula :=
  (pairs.find? fun p => p.1.same f).map Prod.snd

def replace (f target replacement : Formula) : Formula :=
  f.substitute fun g => if g.same target then some replacement else none

mutual

def renameVariables (image : Variable → Option Variable) : Formula → Formula
  | constant b => constant b
  | literal name => literal name
  | comparison op lhs rhs => comparison op (lhs.rename image) (rhs.rename image)
  | not f => not (f.renameVariables image)
  | implies f g => implies (f.renameVariables image) (g.renameVariables image)
  | iff f g => iff (f.renameVariables image) (g.renameVariables image)
  | join c fs => join c (renameVariablesAll image fs)

def renameVariablesAll (image : Variable → Option Variable) : List Formula → List Formula
  | [] => []
  | f :: fs => f.renameVariables image :: renameVariablesAll image fs

end

theorem renameVariablesAllMap (image : Variable → Option Variable) (fs : List Formula) :
    renameVariablesAll image fs = fs.map (renameVariables image) := by
  induction fs with
  | nil => rfl
  | cons f fs ih => simp [renameVariablesAll, ih]

end Formula

structure Renaming where
  source : String
  target : String
  sort : Option ValueSort
  deriving DecidableEq, Repr

def Renaming.first (rs : List Renaming) (v : Variable) : Option Variable :=
  (rs.find? fun r => r.source == v.name).map fun r => ⟨r.target, r.sort.getD v.sort⟩

end ProductLine
