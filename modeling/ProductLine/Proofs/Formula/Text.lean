import ProductLine.Proofs.Formula.Phrase
import ProductLine.Proofs.Formula.Meaning

/-!
What the text of a formula tells. The text leaves out the sorts of variables, and it writes a
disjunction of fewer than two operands like something else; all other parts can be read back. So
formulas of one text have one value, wherever names can be told from numbers and truth values.
-/
namespace ProductLine

def Term.phrase : Term → Phrase
  | var v => .leaf (.name v.name)
  | constant c => .leaf (.constant c)
  | aggregate (.sum name) => .bracket .sum [.leaf (.name name)]
  | aggregate (.average name) => .bracket .average [.leaf (.name name)]

/-- A join that is not written as one stands as what its text is otherwise used for. -/
def Connective.phrase : Connective → List Phrase → Phrase
  | and, [] => .leaf (.constant (.bool true))
  | or, [] => .leaf (.constant (.bool false))
  | or, [p] => .bracket (.join .and) [p]
  | c, ps => .bracket (.join c) ps

theorem Connective.phraseShape (c : Connective) (ps : List Phrase) :
    (c = and ∧ ps = [] ∧ c.phrase ps = .leaf (.constant (.bool true))) ∨
    (c = or ∧ ps = [] ∧ c.phrase ps = .leaf (.constant (.bool false))) ∨
    (∃ p, c = or ∧ ps = [p] ∧ c.phrase ps = .bracket (.join .and) [p]) ∨
    ((Operator.join c).Takes ps.length ∧ c.phrase ps = .bracket (.join c) ps) := by
  rcases ps with _ | ⟨p, _ | ⟨q, ps⟩⟩ <;> cases c <;> simp [phrase, Operator.Takes]

namespace Formula

mutual

def phrase : Formula → Phrase
  | constant b => .leaf (.constant (.bool b))
  | literal name => .leaf (.name name)
  | comparison op lhs rhs => .bracket (.compare op) [lhs.phrase, rhs.phrase]
  | not f => .negation f.phrase
  | implies f g => .bracket .implies [f.phrase, g.phrase]
  | iff f g => .bracket .iff [f.phrase, g.phrase]
  | join c fs => c.phrase (phraseAll fs)

def phraseAll : List Formula → List Phrase
  | [] => []
  | f :: fs => f.phrase :: phraseAll fs

end

theorem phraseAllMap (fs : List Formula) : phraseAll fs = fs.map phrase := by
  induction fs with
  | nil => rfl
  | cons f fs ih => simp [phraseAll, ih]

end Formula

def Term.Legible : Term → Prop
  | var v => Identifier v.name
  | constant c => c.isFloat = false
  | aggregate (.sum name) | aggregate (.average name) => Identifier name

instance (t : Term) : Decidable t.Legible := by
  unfold Term.Legible
  split <;> infer_instance

namespace Formula

def OwnLegible : Formula → Prop
  | literal name => Identifier name
  | comparison _ lhs rhs => lhs.Legible ∧ rhs.Legible
  | _ => True

instance (f : Formula) : Decidable f.OwnLegible := by
  unfold OwnLegible
  split <;> infer_instance

def Legible (f : Formula) : Prop := ∀ g ∈ f.subformulas, g.OwnLegible

instance (f : Formula) : Decidable f.Legible := by
  unfold Legible
  infer_instance

end Formula

def Leaf.value (a : Assignment) : Leaf → Option Value
  | name text => a.get? text
  | constant c => some c

namespace Phrase

def value (a : Assignment) : Phrase → Option Value
  | leaf l => l.value a
  | _ => none

mutual

def evaluate (a : Assignment) : Phrase → Option Bool
  | leaf l => do (← l.value a).bool?
  | negation p => do return !(← p.evaluate a)
  | bracket (.compare op) [p, q] => do
    let x ← p.value a
    let y ← q.value a
    let order ← x.compare? y
    return op.holds order
  | bracket .implies [p, q] => do if ← p.evaluate a then q.evaluate a else return true
  | bracket .iff [p, q] => do return (← p.evaluate a) == (← q.evaluate a)
  | bracket (.join c) ps => do return c.holds (← evaluateAll a ps)
  | bracket .. => none

def evaluateAll (a : Assignment) : List Phrase → Option (List Bool)
  | [] => some []
  | p :: ps => do return (← p.evaluate a) :: (← evaluateAll a ps)

end

end Phrase

section Texts

theorem Term.phraseText (t : Term) : t.phrase.text = t.render.toList := by
  cases t with
  | var v => rfl
  | constant c => rfl
  | aggregate a =>
    cases a <;> simp [phrase, Phrase.text, Phrase.textAll, render, Aggregate.render, Operator.head,
      Leaf.render, String.toList_append]

theorem Connective.renderBracket {c : Connective} {texts : List String}
    (takes : (Operator.join c).Takes texts.length) :
    c.render texts = c.head ++ "(" ++ c.separator.intercalate texts ++ ")" := by
  cases texts with
  | nil =>
    cases c with
    | and | or => simp [Operator.Takes] at takes
    | _ => rfl
  | cons t texts => cases c <;> rfl

theorem Connective.phraseText {c : Connective} {ps : List Phrase} {texts : List String}
    (same : ps.map Phrase.text = texts.map String.toList) :
    (c.phrase ps).text = (c.render texts).toList := by
  have length : ps.length = texts.length := by simpa using congrArg List.length same
  rcases phraseShape c ps with ⟨rfl, rfl, shape⟩ | ⟨rfl, rfl, shape⟩ | ⟨p, rfl, rfl, shape⟩ |
    ⟨takes, shape⟩
  · rw [shape, List.length_eq_zero_iff.mp length.symm]
    rfl
  · rw [shape, List.length_eq_zero_iff.mp length.symm]
    rfl
  · -- With one operand no separator is written, so the two joins read alike.
    obtain ⟨t, rfl⟩ := List.length_eq_one_iff.mp length.symm
    simp_all [Phrase.text, Phrase.textAll, Operator.head, render, head, String.toList_append]
  · rw [shape, renderBracket (length ▸ takes)]
    simp [Phrase.text, Phrase.textAllMap, same, Operator.head, Operator.separator,
      String.toList_append, String.toList_intercalate]

theorem Formula.phraseText (f : Formula) : f.phrase.text = f.render.toList := by
  induction f with
  | constant b => cases b <;> rfl
  | literal name => rfl
  | comparison op lhs rhs =>
    rw [phrase, Phrase.pairText rfl, Term.phraseText, Term.phraseText]
    simp [render, Operator.separator, String.toList_append]
  | not f ih => simp [phrase, Phrase.text, render, ih, String.toList_append]
  | implies f g ihf ihg | iff f g ihf ihg =>
    rw [phrase, Phrase.pairText rfl, ihf, ihg]
    simp [render, Operator.separator, String.toList_append]
  | join c fs ih =>
    refine Connective.phraseText ?_
    rw [phraseAllMap, renderAllMap, List.map_map, List.map_map]
    exact List.map_congr_left ih

end Texts

section Meaning
variable {a : Assignment}

theorem Term.phraseValue (t : Term) : t.phrase.value a = t.value a := by
  cases t with
  | aggregate s => cases s <;> rfl
  | _ => rfl

theorem Connective.phraseEvaluate {c : Connective} {ps : List Phrase} :
    (c.phrase ps).evaluate a = (Phrase.evaluateAll a ps).map (holds · c) := by
  rcases phraseShape c ps with ⟨rfl, rfl, shape⟩ | ⟨rfl, rfl, shape⟩ | ⟨p, rfl, rfl, shape⟩ |
    ⟨-, shape⟩
  · rw [shape]
    rfl
  · rw [shape]
    rfl
  · rw [shape]
    cases known : p.evaluate a <;> simp [Phrase.evaluate, Phrase.evaluateAll, known, holds]
  · rw [shape]
    cases known : Phrase.evaluateAll a ps <;> simp [Phrase.evaluate, known]

theorem Formula.phraseEvaluateAll {fs : List Formula}
    (same : ∀ f ∈ fs, f.phrase.evaluate a = f.evaluate a) :
    Phrase.evaluateAll a (fs.map phrase) = evaluateAll a fs := by
  induction fs with
  | nil => rfl
  | cons f fs ih =>
    have rest := ih fun g inside => same g (List.mem_cons_of_mem _ inside)
    rw [List.map_cons, Phrase.evaluateAll, evaluateAll, same f List.mem_cons_self, rest]

theorem Formula.phraseEvaluate (f : Formula) : f.phrase.evaluate a = f.evaluate a := by
  induction f with
  | constant b => rfl
  | literal name => rfl
  | comparison op lhs rhs => simp [phrase, Phrase.evaluate, evaluate, Term.phraseValue]
  | not f ih => simp [phrase, Phrase.evaluate, evaluate, ih]
  | implies f g ihf ihg => simp [phrase, Phrase.evaluate, evaluate, ihf, ihg]
  | iff f g ihf ihg => simp [phrase, Phrase.evaluate, evaluate, ihf, ihg]
  | join c fs ih =>
    rw [phrase, phraseAllMap, Connective.phraseEvaluate, phraseEvaluateAll ih, evaluate]
    cases evaluateAll a fs <;> rfl

end Meaning

section Reading
variable {f g : Formula}

theorem Term.phraseLegible {t : Term} (legible : t.Legible) : t.phrase.Legible := by
  cases t with
  | var v => exact .leaf legible
  | constant c => exact .leaf legible
  | aggregate s => cases s <;> exact .bracket rfl (by simpa using .leaf legible)

theorem Connective.phraseLegible {c : Connective} {ps : List Phrase}
    (legible : ∀ p ∈ ps, p.Legible) : (c.phrase ps).Legible := by
  rcases phraseShape c ps with ⟨-, -, shape⟩ | ⟨-, -, shape⟩ | ⟨p, -, rfl, shape⟩ | ⟨takes, shape⟩
  · exact shape ▸ .leaf rfl
  · exact shape ▸ .leaf rfl
  · exact shape ▸ .bracket (Nat.le_refl 1) legible
  · exact shape ▸ .bracket takes legible

theorem Formula.Legible.operand (legible : f.Legible) (part : g ∈ f.operands) : g.Legible :=
  fun h inside => legible h (memOperands part inside)

theorem Formula.phraseLegible (legible : f.Legible) : f.phrase.Legible := by
  induction f with
  | constant b => exact .leaf rfl
  | literal name =>
    have own : Identifier name := legible _ (selfSubformula _)
    exact .leaf own
  | comparison op lhs rhs =>
    obtain ⟨left, right⟩ : lhs.Legible ∧ rhs.Legible := legible _ (selfSubformula _)
    refine .bracket rfl ?_
    simpa using ⟨Term.phraseLegible left, Term.phraseLegible right⟩
  | not f ih => exact .negation (ih (legible.operand List.mem_cons_self))
  | implies f g ihf ihg | iff f g ihf ihg =>
    have left := ihf (legible.operand List.mem_cons_self)
    have right := ihg (legible.operand (.tail _ List.mem_cons_self))
    refine .bracket rfl ?_
    simpa using ⟨left, right⟩
  | join c fs ih =>
    refine Connective.phraseLegible fun p written => ?_
    rw [phraseAllMap] at written
    obtain ⟨f, inside, rfl⟩ := List.mem_map.mp written
    exact ih f inside (legible.operand inside)

theorem Formula.textOnce (legible : f.Legible) (legible' : g.Legible) :
    f.render = g.render ↔ f.phrase = g.phrase := by
  constructor
  · intro same
    have texts : f.phrase.text = g.phrase.text := by rw [phraseText, phraseText, same]
    exact Phrase.textInjective (phraseLegible legible) (phraseLegible legible') texts
  · intro same
    refine String.toList_injective ?_
    rw [← phraseText, ← phraseText, same]

theorem Formula.textMeans (legible : f.Legible) (legible' : g.Legible)
    (same : f.render = g.render) (a : Assignment) : f.evaluate a = g.evaluate a := by
  rw [← phraseEvaluate, ← phraseEvaluate, (textOnce legible legible').mp same]

end Reading

namespace Example

def oneOrTwo (slot truth : Formula) (speed : ValueSort) : Formula :=
  .join (.between 1 2) [slot, .literal "choose2",
    .implies (.not truth)
      (.comparison .equal (.aggregate (.sum "Cost.total")) (.constant (.int 30))),
    .comparison .lessEqual (.var ⟨"Speed", speed⟩) (.constant (.int (-5)))]

def conjoined : Formula := oneOrTwo (.and [.literal "Slot"]) (.and []) .integer

def disjoined : Formula := oneOrTwo (.or [.literal "Slot"]) (.constant true) .float

theorem joinedAlike :
    conjoined.Legible ∧ disjoined.Legible ∧
    conjoined.render =
      "between1..2((Slot), choose2, (!true => (sum(Cost.total) == 30)), (Speed <= -5))" ∧
    disjoined.render = conjoined.render ∧
    ∀ a, conjoined.evaluate a = disjoined.evaluate a := by
  have legible : conjoined.Legible := by decide
  have legible' : disjoined.Legible := by decide
  have text : disjoined.render = conjoined.render := by rfl
  refine ⟨legible, legible', by decide +kernel, text, fun a => ?_⟩
  exact Formula.textMeans legible legible' text.symm a

end Example
end ProductLine
