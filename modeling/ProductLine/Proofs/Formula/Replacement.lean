import ProductLine.Proofs.Formula.Atoms

/-!
Replacing a formula inside another. What is without operands can only come back with what is put in,
so replacing it by something that does not contain it leaves nothing to replace.
-/
namespace ProductLine

namespace Formula
variable {f t r : Formula}

def isElementary : Formula → Bool
  | constant _ | literal _ | comparison .. => true
  | _ => false

theorem elementaryOperands (elementary : f.isElementary = true) : f.operands = [] := by
  cases f with
  | constant | literal | comparison => rfl
  | _ => cases elementary

theorem elementaryMap {change : Formula → Formula} :
    (f.mapOperands change).isElementary = f.isElementary := by
  cases f <;> rfl

theorem elementarySame (elementary : t.isElementary = true) (same : f.same t = true) :
    f.isElementary = true := by
  cases f with
  | constant | literal | comparison => rfl
  | _ =>
    cases t with
    | constant | literal | comparison => cases same
    | _ => cases elementary

theorem mapDiffers {change : Formula → Formula} (elementary : t.isElementary = true)
    (differs : f.same t = false) : (f.mapOperands change).same t = false := by
  -- without operands nothing changes; with them, the formula stays one with operands
  cases own : f.isElementary with
  | true => rwa [mapOperandsStays (by simp [elementaryOperands own])]
  | false =>
    refine Bool.eq_false_iff.mpr fun same => ?_
    have elementary' := elementarySame elementary same
    rw [elementaryMap, own] at elementary'
    cases elementary'

theorem replaceEq (f t r : Formula) :
    f.replace t r = if f.same t then r else f.mapOperands (·.replace t r) := by
  rw [replace, substituteEq]
  cases f.same t <;> rfl

theorem replaceContains (elementary : t.isElementary = true) (f r : Formula) :
    (f.replace t r).contains t = true ↔ f.contains t = true ∧ r.contains t = true := by
  induction f using operandInduction with
  | step f ih =>
    rw [replaceEq, containsEq f]
    cases same : f.same t with
    | true => simp
    | false =>
      simp only [Bool.false_eq_true, if_false, Bool.false_or]
      rw [containsEq, mapDiffers elementary same, operandsMap, Bool.false_or, List.any_map,
        List.any_eq_true, List.any_eq_true]
      constructor
      · intro h
        obtain ⟨g, part, inside⟩ := h
        obtain ⟨old, new⟩ := (ih g part).mp inside
        exact ⟨⟨g, part, old⟩, new⟩
      · intro h
        obtain ⟨⟨g, part, old⟩, new⟩ := h
        exact ⟨g, part, (ih g part).mpr ⟨old, new⟩⟩

theorem replaceAbsent (absent : f.contains t = false) : f.replace t r = f := by
  induction f using operandInduction with
  | step f ih =>
    rw [containsEq, Bool.or_eq_false_iff, List.any_eq_false] at absent
    rw [replaceEq, absent.1]
    refine mapOperandsStays fun g part => ih g part ?_
    exact Bool.eq_false_iff.mpr (absent.2 g part)

/-- What is replaced is contained afterwards only if it was before and the replacement contains it.
So nothing changes where it is absent, or a second time if the replacement is without it. -/
theorem replaceEliminates (f t r : Formula) :
    (t.isElementary = true →
      ((f.replace t r).contains t = true ↔ f.contains t = true ∧ r.contains t = true)) ∧
    (f.contains t = false → f.replace t r = f) ∧
    (t.isElementary = true → r.contains t = false →
      (f.replace t r).replace t r = f.replace t r) := by
  refine ⟨fun elementary => replaceContains elementary f r, replaceAbsent, ?_⟩
  intro elementary absent
  refine replaceAbsent (Bool.eq_false_iff.mpr fun inside => ?_)
  obtain ⟨-, new⟩ := (replaceContains elementary f r).mp inside
  rw [absent] at new
  cases new

/-- With operands, what is replaced can come about anew. -/
example :
    (Formula.not (.not (.literal "Slot"))).replace (.not (.literal "Slot")) (.literal "Slot") =
    .not (.literal "Slot") := rfl

end Formula

namespace Example

def exceeds (name : String) (zero : Binary64) : Formula :=
  .comparison .greater (.var ⟨name, .float⟩) (.constant (.float zero))

theorem zerosReplaced :
    let clones := Formula.or [exceeds "Speed__1" .zero, exceeds "Speed__2" .zero]
    let f := Formula.implies (exceeds "Speed" .zero) (.not (exceeds "Speed" ⟨0x8000000000000000⟩))
    f.replace (exceeds "Speed" .zero) clones = .implies clones (.not clones) ∧
      f.contains (exceeds "Speed" .zero) = true ∧
      (f.replace (exceeds "Speed" .zero) clones).contains (exceeds "Speed" .zero) = false ∧
      f.replace (.literal "Slot") clones = f ∧
      (f.replace (exceeds "Speed" .zero) clones).replace (exceeds "Speed" .zero) clones =
        .implies clones (.not clones) := by
  intro clones f
  have absent : clones.contains (exceeds "Speed" .zero) = false := rfl
  obtain ⟨contained, -, again⟩ := Formula.replaceEliminates f (exceeds "Speed" .zero) clones
  obtain ⟨-, unchanged, -⟩ := Formula.replaceEliminates f (.literal "Slot") clones
  refine ⟨rfl, rfl, Bool.eq_false_iff.mpr fun inside => ?_, unchanged rfl, again rfl absent⟩
  rw [((contained rfl).mp inside).2] at absent
  cases absent

end Example
end ProductLine
