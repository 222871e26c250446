import ProductLine.Formula.Evaluation
import ProductLine.Formula.Names
import ProductLine.Formula.Substitution

/-!
Evaluation with the atoms read in some other way. Substituting for atoms and renaming variables
only change how the atoms of a formula are read.
-/
namespace ProductLine.Formula

def isAtom : Formula → Bool
  | literal _ | comparison .. => true
  | _ => false

mutual

def meaning (atom : Formula → Option Bool) : Formula → Option Bool
  | constant b => some b
  | literal name => atom (literal name)
  | comparison op lhs rhs => atom (comparison op lhs rhs)
  | not f => do return !(← f.meaning atom)
  | implies f g => do if ← f.meaning atom then g.meaning atom else return true
  | iff f g => do return (← f.meaning atom) == (← g.meaning atom)
  | join c fs => do return c.holds (← meaningAll atom fs)

def meaningAll (atom : Formula → Option Bool) : List Formula → Option (List Bool)
  | [] => some []
  | f :: fs => do return (← f.meaning atom) :: (← meaningAll atom fs)

end

variable {a : Assignment} {atom atom' : Formula → Option Bool}

theorem meaningAllCongr {fs : List Formula} {g : Formula → Option Bool}
    (same : ∀ f ∈ fs, f.meaning atom = g f) :
    meaningAll atom fs = fs.mapM g := by
  induction fs with
  | nil => rfl
  | cons f fs ih =>
    have head := same f (by simp)
    have tail := ih fun h inside => same h (List.mem_cons_of_mem _ inside)
    rw [meaningAll, List.mapM_cons, head, tail]

theorem meaningAllMap (fs : List Formula) : meaningAll atom fs = fs.mapM (meaning atom) :=
  meaningAllCongr fun _ _ => rfl

theorem evaluateAllMap (fs : List Formula) : evaluateAll a fs = fs.mapM (evaluate a) := by
  induction fs with
  | nil => rfl
  | cons f fs ih => rw [evaluateAll, List.mapM_cons, ih]

theorem evaluateMeaning (f : Formula) : f.evaluate a = f.meaning (evaluate a) := by
  induction f with
  | constant b => rfl
  | literal name => rfl
  | comparison op lhs rhs => rfl
  | not f ih => rw [evaluate, meaning, ih]
  | implies f g ihf ihg => rw [evaluate, meaning, ihf, ihg]
  | iff f g ihf ihg => rw [evaluate, meaning, ihf, ihg]
  | join c fs ih =>
    have same : meaningAll (evaluate a) fs = fs.mapM (evaluate a) :=
      meaningAllCongr fun f inside => (ih f inside).symm
    rw [evaluate, meaning, same, evaluateAllMap]

theorem renameMeaning (image : Variable → Option Variable) (f : Formula) :
    (f.renameVariables image).evaluate a =
      f.meaning fun g => (g.renameVariables image).evaluate a := by
  induction f with
  | constant b => rfl
  | literal name => rfl
  | comparison op lhs rhs => rfl
  | not f ih => rw [renameVariables, evaluate, meaning, ih]
  | implies f g ihf ihg => rw [renameVariables, evaluate, meaning, ihf, ihg]
  | iff f g ihf ihg => rw [renameVariables, evaluate, meaning, ihf, ihg]
  | join c fs ih =>
    have same := meaningAllCongr (g := fun f => (f.renameVariables image).evaluate a)
      fun f inside => (ih f inside).symm
    rw [renameVariables, evaluate, meaning, same, evaluateAllMap, renameVariablesAllMap,
      List.mapM_map]
    rfl

theorem substituteMeaning {lookup : Formula → Option Formula}
    (atoms : ∀ g, g.isAtom = false → lookup g = none) (f : Formula) :
    (f.substitute lookup).meaning atom = f.meaning fun g => ((lookup g).getD g).meaning atom := by
  induction f with
  | constant b => rw [substitute, atoms _ rfl]; rfl
  | literal name => rw [substitute]; rfl
  | comparison op lhs rhs => rw [substitute]; rfl
  | not f ih => rw [substitute, atoms _ rfl, Option.getD_none, meaning, meaning, ih]
  | implies f g ihf ihg =>
    rw [substitute, atoms _ rfl, Option.getD_none, meaning, meaning, ihf, ihg]
  | iff f g ihf ihg => rw [substitute, atoms _ rfl, Option.getD_none, meaning, meaning, ihf, ihg]
  | join c fs ih =>
    have same := meaningAllCongr (g := fun f => (f.substitute lookup).meaning atom)
      fun f inside => (ih f inside).symm
    rw [substitute, atoms _ rfl, Option.getD_none, meaning, meaning, same, meaningAllMap,
      substituteAllMap, List.mapM_map]
    rfl

theorem memOperands {f g h : Formula} (part : g ∈ f.operands) (inside : h ∈ g.subformulas) :
    h ∈ f.subformulas := by
  rw [subformulasEq]
  exact List.mem_cons_of_mem _ (List.mem_flatMap.mpr ⟨g, part, inside⟩)

theorem selfSubformula (f : Formula) : f ∈ f.subformulas := by
  rw [subformulasEq]
  exact List.mem_cons_self

theorem meaningCongr {f : Formula}
    (same : ∀ g ∈ f.subformulas, g.isAtom = true → atom g = atom' g) :
    f.meaning atom = f.meaning atom' := by
  induction f with
  | constant b => rfl
  | literal name => exact same _ (selfSubformula _) rfl
  | comparison op lhs rhs => exact same _ (selfSubformula _) rfl
  | not f ih =>
    have left := ih fun g inside => same g (memOperands (f := .not f) (by simp [operands]) inside)
    rw [meaning, meaning, left]
  | implies f g ihf ihg =>
    have left := ihf fun h inside =>
      same h (memOperands (f := .implies f g) (by simp [operands]) inside)
    have right := ihg fun h inside =>
      same h (memOperands (f := .implies f g) (by simp [operands]) inside)
    rw [meaning, meaning, left, right]
  | iff f g ihf ihg =>
    have left := ihf fun h inside =>
      same h (memOperands (f := .iff f g) (by simp [operands]) inside)
    have right := ihg fun h inside =>
      same h (memOperands (f := .iff f g) (by simp [operands]) inside)
    rw [meaning, meaning, left, right]
  | join c fs ih =>
    have all := meaningAllCongr (g := meaning atom') fun f part =>
      ih f part fun g inside => same g (memOperands (f := .join c fs) part inside)
    rw [meaning, meaning, all, meaningAllMap]

theorem substituteKeeps {lookup : Formula → Option Formula}
    (atoms : ∀ g, g.isAtom = false → lookup g = none) {f g : Formula} (inside : g ∈ f.subformulas)
    (atom : g.isAtom = true) (kept : lookup g = none) : g ∈ (f.substitute lookup).subformulas := by
  induction f with
  | constant b =>
    cases List.mem_singleton.mp inside
    cases atom
  | literal name =>
    cases List.mem_singleton.mp inside
    rw [substitute, kept]
    exact selfSubformula _
  | comparison op lhs rhs =>
    cases List.mem_singleton.mp inside
    rw [substitute, kept]
    exact selfSubformula _
  | not f ih =>
    rw [substitute, atoms _ rfl, Option.getD_none]
    rcases List.mem_cons.mp inside with rfl | deeper
    · cases atom
    · exact List.mem_cons_of_mem _ (ih deeper)
  | implies f g ihf ihg =>
    rw [substitute, atoms _ rfl, Option.getD_none]
    rcases List.mem_cons.mp inside with rfl | deeper
    · cases atom
    · exact List.mem_cons_of_mem _ (List.mem_append.mpr ((List.mem_append.mp deeper).imp ihf ihg))
  | iff f g ihf ihg =>
    rw [substitute, atoms _ rfl, Option.getD_none]
    rcases List.mem_cons.mp inside with rfl | deeper
    · cases atom
    · exact List.mem_cons_of_mem _ (List.mem_append.mpr ((List.mem_append.mp deeper).imp ihf ihg))
  | join c fs ih =>
    rw [substitute, atoms _ rfl, Option.getD_none, substituteAllMap]
    rcases List.mem_cons.mp inside with rfl | deeper
    · cases atom
    · rw [subformulasAllFlatMap, List.mem_flatMap] at deeper
      obtain ⟨f, part, deeper⟩ := deeper
      refine memOperands (f := .join c _) (List.mem_map.mpr ⟨f, part, rfl⟩) (ih f part deeper)

end ProductLine.Formula
