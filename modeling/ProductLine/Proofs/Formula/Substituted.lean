import ProductLine.Proofs.Formula.Definedness

/-!
The value of a formula after a substitution. If all that is put in has the value of what it stands
for, the whole has its old value, or none as before. What stands for a literal may be evaluated
where it is put, and the literal under another assignment.
-/
namespace ProductLine

namespace Formula
variable {a b : Assignment} {f : Formula} {lookup : Formula → Option Formula}

def forLiteral (image : String → Formula) : Formula → Option Formula
  | literal name => some (image name)
  | _ => none

theorem evaluateAllChanged {fs : List Formula} {change : Formula → Formula}
    (same : ∀ g ∈ fs, (change g).evaluate a = g.evaluate b) :
    evaluateAll a (fs.map change) = evaluateAll b fs := by
  induction fs with
  | nil => rfl
  | cons g fs ih =>
    have rest := ih fun h inside => same h (List.mem_cons_of_mem _ inside)
    rw [List.map_cons, evaluateAll, evaluateAll, same g List.mem_cons_self, rest]

theorem mapOperandsEvaluate {change : Formula → Formula} (compound : f.isAtom = false)
    (same : ∀ g ∈ f.operands, (change g).evaluate a = g.evaluate b) :
    (f.mapOperands change).evaluate a = f.evaluate b := by
  cases f with
  | literal | comparison => cases compound
  | constant c => rfl
  | not f =>
    have inner := same f (by simp [operands])
    rw [mapOperands, evaluate, evaluate, inner]
  | implies f g =>
    have left := same f (by simp [operands])
    have right := same g (by simp [operands])
    rw [mapOperands, evaluate, evaluate, left, right]
  | iff f g =>
    have left := same f (by simp [operands])
    have right := same g (by simp [operands])
    rw [mapOperands, evaluate, evaluate, left, right]
  | join c fs =>
    have all : evaluateAll a (fs.map change) = evaluateAll b fs := evaluateAllChanged same
    rw [mapOperands, evaluate, evaluate, all]

theorem substituteReads
    (put : ∀ g ∈ f.subformulas, ∀ h, lookup g = some h → h.evaluate a = g.evaluate b)
    (kept : ∀ g ∈ f.subformulas, g.isAtom = true → lookup g = none → g.evaluate a = g.evaluate b) :
    (f.substitute lookup).evaluate a = f.evaluate b := by
  induction f using operandInduction with
  | step f ih =>
    rw [substituteEq]
    cases found : lookup f with
    | some h => exact put f (selfSubformula f) h found
    | none =>
      rw [Option.getD_none]
      cases atom : f.isAtom with
      | true =>
        rw [mapOperandsStays (by simp [atomOperands atom])]
        exact kept f (selfSubformula f) atom found
      | false =>
        refine mapOperandsEvaluate atom fun g part => ih g part ?_ ?_
        · exact fun h inside => put h (memOperands part inside)
        · exact fun h inside => kept h (memOperands part inside)

theorem literalRead {name : String} {g : Formula}
    (means : ∀ v, b.get? name = some (.bool v) ↔ g.evaluate a = some v) :
    g.evaluate a = (literal name).evaluate b := by
  have reads : ∀ v, (literal name).evaluate b = some v ↔ b.get? name = some (.bool v) := by
    intro v
    rw [evaluate]
    cases b.get? name with
    | none => simp
    | some x => cases x <;> simp [Value.bool?]
  refine Option.ext fun v => ?_
  rw [reads, means]

/-- Replacing parts by what has the same value changes no value. Replacing the literals all at once
is as good as assigning them the values of what replaces them. -/
theorem substituteExact (f : Formula) (a : Assignment) :
    (∀ lookup : Formula → Option Formula,
      (∀ g ∈ f.subformulas, ∀ h, lookup g = some h → g.evaluate a = h.evaluate a) →
      (f.substitute lookup).evaluate a = f.evaluate a) ∧
    ∀ (image : String → Formula) (b : Assignment),
      (∀ name, literal name ∈ f.subformulas → ∀ v,
        b.get? name = some (.bool v) ↔ (image name).evaluate a = some v) →
      (∀ name, f.mentionsVariable name = true → a.get? name = b.get? name) →
      (f.substitute (forLiteral image)).evaluate a = f.evaluate b := by
  constructor
  · intro lookup same
    exact substituteReads (fun g inside h found => (same g inside h found).symm) fun _ _ _ _ => rfl
  · intro image b means agree
    refine substituteReads ?_ ?_
    · intro g inside h found
      cases g with
      | literal name =>
        cases Option.some.inj found
        exact literalRead (means name inside)
      | _ => cases found
    · intro g inside atom kept
      cases g with
      | comparison op lhs rhs =>
        exact comparisonCongr fun v side => agree v.name (mentions inside side rfl)
      | literal name => cases kept
      | _ => cases atom

end Formula

namespace Example

def speedySlot : Formula :=
  .implies (.literal "Backup") (.and [.literal "Slot",
    .comparison .greater (.var ⟨"Speed", .integer⟩) (.constant (.int 0))])

def eitherSlot : String → Formula
  | "Slot" => .or [.literal "Slot_1", .literal "Slot_2"]
  | name => .literal name

def secondSlot : Assignment :=
  .ofList [("Backup", .bool true), ("Slot", .bool true), ("Slot_1", .bool false),
    ("Slot_2", .bool true), ("Speed", .int 5)]

def someSlot : Assignment :=
  .ofList [("Backup", .bool true), ("Slot", .bool true), ("Speed", .int 5)]

theorem slotSubstituted :
    (∀ g ∈ speedySlot.subformulas, ∀ h, Formula.forLiteral eitherSlot g = some h →
      g.evaluate secondSlot = h.evaluate secondSlot) ∧
    (∀ name, .literal name ∈ speedySlot.subformulas → ∀ v,
      someSlot.get? name = some (.bool v) ↔ (eitherSlot name).evaluate secondSlot = some v) ∧
    (∀ name, speedySlot.mentionsVariable name = true → secondSlot.get? name = someSlot.get? name) ∧
    (speedySlot.substitute (Formula.forLiteral eitherSlot)).evaluate secondSlot =
      speedySlot.evaluate secondSlot ∧
    (speedySlot.substitute (Formula.forLiteral eitherSlot)).evaluate secondSlot =
      speedySlot.evaluate someSlot := by
  have same : ∀ g ∈ speedySlot.subformulas, ∀ h, Formula.forLiteral eitherSlot g = some h →
      g.evaluate secondSlot = h.evaluate secondSlot := by
    have each : ∀ g ∈ speedySlot.subformulas, (Formula.forLiteral eitherSlot g).all
        (fun h => g.evaluate secondSlot == h.evaluate secondSlot) = true := by decide
    intro g inside h found
    have equal := each g inside
    rw [found] at equal
    exact beq_iff_eq.mp equal
  have means : ∀ name, .literal name ∈ speedySlot.subformulas → ∀ v,
      someSlot.get? name = some (.bool v) ↔ (eitherSlot name).evaluate secondSlot = some v := by
    intro name inside
    have named : name = "Backup" ∨ name = "Slot" := by
      simpa [speedySlot, Formula.subformulas, Formula.subformulasAll] using inside
    rcases named with rfl | rfl <;> decide
  have agree : ∀ name, speedySlot.mentionsVariable name = true →
      secondSlot.get? name = someSlot.get? name := by
    intro name mentioned
    have named : "Speed" = name := by
      simpa [speedySlot, Formula.mentionsVariable, Formula.subformulas, Formula.subformulasAll,
        Formula.terms, Term.var?] using mentioned
    subst named
    decide
  obtain ⟨kept, read⟩ := Formula.substituteExact speedySlot secondSlot
  exact ⟨same, means, agree, kept _ same, read _ _ means agree⟩

end Example
end ProductLine
