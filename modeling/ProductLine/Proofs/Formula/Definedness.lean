import ProductLine.Proofs.Formula.Atoms
import ProductLine.Proofs.Formula.Truth

/-!
When a formula has a value, and which. Evaluation comes to all atoms but those in the conclusion of
an implication with a false premise, and there is a value just when these atoms have one: a gap that
evaluation comes to is felt, any other is not. Only the names of a formula matter to its value, and
a value that is found stays when more names get one.
-/
namespace ProductLine

namespace Formula

def heeded (a : Assignment) : Formula → List Formula
  | implies f g => if f.evaluate a = some false then [f] else [f, g]
  | f => f.operands

inductive Consults (a : Assignment) : Formula → Formula → Prop
  | self {f : Formula} : Consults a f f
  | through {f g h : Formula} (part : g ∈ f.heeded a) (deeper : Consults a g h) : Consults a f h

def Lacks (a : Assignment) (f : Formula) : Prop :=
  (∃ name ∈ f.names, a.get? name = none) ∨ f.containsAggregate = true

instance (a : Assignment) (f : Formula) : Decidable (f.Lacks a) := by
  unfold Lacks
  infer_instance

variable {a b : Assignment} {f g : Formula}

section Values
variable {fs : List Formula} {c : Connective}

theorem notValued : (not f).Valued a ↔ f.Valued a := by
  unfold Valued
  rw [evaluate]
  cases f.evaluate a <;> simp

theorem iffValued : (iff f g).Valued a ↔ f.Valued a ∧ g.Valued a := by
  unfold Valued
  rw [evaluate]
  cases f.evaluate a <;> cases g.evaluate a <;> simp

theorem impliesValued :
    (implies f g).Valued a ↔ f.Valued a ∧ (f.evaluate a ≠ some false → g.Valued a) := by
  unfold Valued
  rw [evaluate]
  cases premise : f.evaluate a with
  | none => simp
  | some p => cases p <;> simp

theorem joinParts (valued : (join c fs).Valued a) : ∀ f ∈ fs, f.Valued a := by
  intro f inside
  obtain ⟨v, known⟩ := valued
  rw [evaluate] at known
  obtain ⟨bs, values, -⟩ := Option.bind_eq_some_iff.mp known
  obtain ⟨b, -, value⟩ := forall₂Left (evaluateAllSome.mp values) inside
  exact ⟨b, value⟩

theorem valuedHeeded (compound : f.isAtom = false) :
    f.Valued a ↔ ∀ g ∈ f.heeded a, g.Valued a := by
  cases f with
  | literal | comparison => cases compound
  | constant b => simp [heeded, operands, Valued, evaluate]
  | not f => simp [heeded, operands, notValued]
  | implies f g =>
    rw [impliesValued, heeded]
    split <;> simp [*]
  | iff f g => simp [heeded, operands, iffValued]
  | join c fs => exact ⟨joinParts, joinValued⟩

theorem heededPart (part : g ∈ f.heeded a) : g ∈ f.operands := by
  cases f with
  | implies f g =>
    rw [heeded] at part
    split at part <;> simp_all [operands]
  | _ => exact part

theorem heededOrSpared (part : g ∈ f.operands) :
    g ∈ f.heeded a ∨ ∃ p, f = implies p g ∧ p.evaluate a = some false := by
  cases f with
  | implies p q =>
    rw [heeded]
    split <;> simp_all [operands]
    exact part.imp_right Eq.symm
  | _ => exact .inl part

theorem valuedExact (f : Formula) :
    f.Valued a ↔ ∀ g, f.Consults a g → g.isAtom = true → g.Valued a := by
  constructor
  · intro valued g come
    induction come with
    | self => exact fun _ => valued
    | @through f g h part _ ih =>
      cases atom : f.isAtom with
      | true =>
        have bare := heededPart part
        rw [atomOperands atom] at bare
        cases bare
      | false => exact ih ((valuedHeeded atom).mp valued g part)
  · intro all
    induction f using operandInduction with
    | step f ih =>
      cases atom : f.isAtom with
      | true => exact all f .self atom
      | false =>
        refine (valuedHeeded atom).mpr fun g part => ?_
        exact ih g (heededPart part) fun h come => all h (.through part come)

theorem consultedOrSpared (inside : g ∈ f.atoms) : f.Consults a g ∨
    ∃ p q, implies p q ∈ f.subformulas ∧ p.evaluate a = some false ∧ g ∈ q.atoms := by
  induction f using operandInduction with
  | step f ih =>
    cases atom : f.isAtom with
    | true =>
      rw [atomsAtom atom, List.mem_singleton] at inside
      exact .inl (inside ▸ .self)
    | false =>
      rw [atomsCompound atom] at inside
      obtain ⟨h, part, below⟩ := List.mem_flatMap.mp inside
      rcases heededOrSpared (a := a) part with heeded | ⟨p, rfl, refuted⟩
      · rcases ih h part below with come | ⟨p, q, within, refuted, conclusion⟩
        · exact .inl (.through heeded come)
        · exact .inr ⟨p, q, memOperands part within, refuted, conclusion⟩
      · exact .inr ⟨p, h, selfSubformula _, refuted, below⟩

theorem consultedAtom (come : f.Consults a g) (atom : g.isAtom = true) : g ∈ f.atoms := by
  have part : g ∈ f.subformulas := by
    induction come with
    | self => exact selfSubformula _
    | through heeded _ ih => exact memOperands (heededPart heeded) (ih atom)
  exact memAtoms.mpr ⟨part, atom⟩

end Values

section Gaps

theorem containsAggregateAtoms :
    f.containsAggregate = true ↔ ∃ g ∈ f.atoms, g.containsAggregate = true := by
  have own : ∀ {g : Formula}, g.isAtom = true → (g.containsAggregate = true ↔
      g.terms.any Term.isAggregate = true) := by
    intro g atom
    rw [containsAggregate, subformulasEq, atomOperands atom]
    simp
  rw [containsAggregate, List.any_eq_true]
  constructor
  · intro found
    obtain ⟨g, inside, holds⟩ := found
    obtain ⟨t, term, -⟩ := List.any_eq_true.mp holds
    have atom := comparedAtom term
    exact ⟨g, memAtoms.mpr ⟨inside, atom⟩, (own atom).mpr holds⟩
  · intro found
    obtain ⟨g, inside, holds⟩ := found
    obtain ⟨inside, atom⟩ := memAtoms.mp inside
    exact ⟨g, inside, (own atom).mp holds⟩

theorem lacksAtoms : f.Lacks a ↔ ∃ g ∈ f.atoms, g.Lacks a := by
  constructor
  · intro lacks
    rcases lacks with ⟨name, named, gap⟩ | aggregate
    · obtain ⟨v, spoken, rfl⟩ := memNames.mp named
      obtain ⟨g, inside, own⟩ := memSymbols.mp spoken
      have self : g ∈ g.atoms := atomsAtom (memAtoms.mp inside).2 ▸ List.mem_singleton_self g
      exact ⟨g, inside, .inl ⟨_, memNames.mpr ⟨v, memSymbols.mpr ⟨g, self, own⟩, rfl⟩, gap⟩⟩
    · obtain ⟨g, inside, own⟩ := containsAggregateAtoms.mp aggregate
      exact ⟨g, inside, .inr own⟩
  · intro found
    obtain ⟨g, inside, lacks⟩ := found
    have single := atomsAtom (memAtoms.mp inside).2
    rcases lacks with ⟨name, named, gap⟩ | aggregate
    · obtain ⟨v, spoken, rfl⟩ := memNames.mp named
      obtain ⟨g', inside', own⟩ := memSymbols.mp spoken
      rw [single, List.mem_singleton] at inside'
      subst inside'
      exact .inl ⟨_, memNames.mpr ⟨v, memSymbols.mpr ⟨g', inside, own⟩, rfl⟩, gap⟩
    · exact .inr (containsAggregateAtoms.mpr ⟨g, inside, aggregate⟩)

theorem comparisonNone {op : Comparison} {lhs rhs t : Term} (side : t ∈ [lhs, rhs])
    (gap : t.value a = none) : (comparison op lhs rhs).evaluate a = none := by
  rw [evaluate]
  rcases List.mem_pair.mp side with rfl | rfl
  · rw [gap]
    rfl
  · rw [gap]
    cases lhs.value a <;> rfl

theorem atomGap (atom : g.isAtom = true) (lacks : g.Lacks a) : g.evaluate a = none := by
  rcases lacks with ⟨name, named, gap⟩ | aggregate
  · obtain ⟨v, spoken, rfl⟩ := memNames.mp named
    obtain ⟨g', inside, own⟩ := memSymbols.mp spoken
    rw [atomsAtom atom, List.mem_singleton] at inside
    subst inside
    rcases spokenCases own with ⟨rfl, -⟩ | term
    · rw [evaluate, gap]
      rfl
    · cases g' with
      | comparison op lhs rhs => exact comparisonNone term gap
      | _ => cases term
  · rw [containsAggregate, subformulasEq, atomOperands atom] at aggregate
    cases g with
    | comparison op lhs rhs =>
      obtain ⟨t, side, kind⟩ := List.any_eq_true.mp (show [lhs, rhs].any Term.isAggregate = true by
        simpa [terms] using aggregate)
      cases t with
      | aggregate => exact comparisonNone side rfl
      | _ => cases kind
    | _ => simp [terms] at aggregate

/-- A gap that evaluation comes to leaves the formula without a value. Otherwise the gap is in the
conclusion of an implication with a false premise. -/
theorem lackingUndefined (f : Formula) (a : Assignment) :
    ((∃ g, f.Consults a g ∧ g.isAtom = true ∧ g.Lacks a) → f.evaluate a = none) ∧
    (f.Lacks a → f.evaluate a = none ∨ ∃ p q, implies p q ∈ f.subformulas ∧
      p.evaluate a = some false ∧ q.Lacks a) := by
  have felt : (∃ g, f.Consults a g ∧ g.isAtom = true ∧ g.Lacks a) → f.evaluate a = none := by
    intro gap
    obtain ⟨g, come, atom, lacks⟩ := gap
    refine Option.eq_none_iff_forall_ne_some.mpr fun b value => ?_
    obtain ⟨c, known⟩ := (valuedExact f).mp ⟨b, value⟩ g come atom
    cases (atomGap atom lacks).symm.trans known
  refine ⟨felt, fun lacks => ?_⟩
  obtain ⟨g, inside, gap⟩ := lacksAtoms.mp lacks
  rcases consultedOrSpared (a := a) inside with come | ⟨p, q, within, refuted, conclusion⟩
  · exact .inl (felt ⟨g, come, (memAtoms.mp inside).2, gap⟩)
  · exact .inr ⟨p, q, within, refuted, lacksAtoms.mpr ⟨g, conclusion, gap⟩⟩

end Gaps

end Formula

namespace Example
open Formula (Lacks Consults)

def powered : Assignment := .ofList [("Power", .bool true), ("Watts", .int 300)]

theorem coolingUndefined :
    (∃ g, (Formula.or [.literal "Power", .literal "Cooling"]).Consults powered g ∧
      g.isAtom = true ∧ g.Lacks powered) ∧
    (Formula.or [.literal "Power", .literal "Cooling"]).Lacks powered ∧
    (Formula.or [.literal "Power", .literal "Cooling"]).evaluate powered = none := by
  have gap : ∃ g, (Formula.or [.literal "Power", .literal "Cooling"]).Consults powered g ∧
      g.isAtom = true ∧ g.Lacks powered :=
    ⟨.literal "Cooling", .through (g := .literal "Cooling")
      (by simp [Formula.heeded, Formula.operands]) .self, rfl, by decide⟩
  exact ⟨gap, by decide, (Formula.lackingUndefined _ _).1 gap⟩

/-- The conclusion of an implication may lack a value where the premise is false. -/
theorem conclusionSpared : ∃ f : Formula,
    f = .implies (.constant false)
      (.comparison .less (.aggregate (.sum "cost")) (.constant (.int 100))) ∧
    f.Lacks powered ∧ f.evaluate powered = some true :=
  ⟨_, rfl, by decide, rfl⟩

end Example

namespace Formula
variable {a b : Assignment} {f g : Formula}

section Dependence

theorem comparisonCongr {a a' : Assignment} {op : Comparison} {lhs rhs : Term}
    (agree : ∀ v, .var v ∈ [lhs, rhs] → a.get? v.name = a'.get? v.name) :
    (comparison op lhs rhs).evaluate a = (comparison op lhs rhs).evaluate a' := by
  have values : ∀ t ∈ [lhs, rhs], t.value a = t.value a' := by
    intro t side
    cases t with
    | var v => exact agree v side
    | _ => rfl
  rw [evaluate, evaluate, values lhs (by simp), values rhs (by simp)]

theorem evaluateCongr {a a' : Assignment} (agree : ∀ name ∈ f.names, a.get? name = a'.get? name) :
    f.evaluate a = f.evaluate a' := by
  rw [evaluateMeaning, evaluateMeaning]
  refine meaningCongr fun g part atom => ?_
  have own : ∀ v ∈ g.ownSymbols, a.get? v.name = a'.get? v.name := fun v spoken =>
    agree v.name (memNames.mpr ⟨v, memSymbols.mpr ⟨g, memAtoms.mpr ⟨part, atom⟩, spoken⟩, rfl⟩)
  cases g with
  | literal name => rw [evaluate, evaluate, own ⟨name, .boolean⟩ (List.mem_singleton_self _)]
  | comparison op lhs rhs => exact comparisonCongr fun v side => own v (comparedSpoken side)
  | _ => cases atom

theorem evaluateExtend (extend : ∀ name v, a.get? name = some v → b.get? name = some v) {v : Bool}
    (value : f.evaluate a = some v) : f.evaluate b = some v := by
  induction f generalizing v with
  | constant c => exact value
  | literal name =>
    obtain ⟨x, found, truth⟩ := Option.bind_eq_some_iff.mp value
    exact Option.bind_eq_some_iff.mpr ⟨x, extend name x found, truth⟩
  | comparison op lhs rhs =>
    have known : ∀ (t : Term) (x : Value), t.value a = some x → t.value b = some x := by
      intro t x found
      cases t with
      | var v => exact extend v.name x found
      | constant c => exact found
      | aggregate g => cases found
    obtain ⟨x, left, rest⟩ := Option.bind_eq_some_iff.mp value
    obtain ⟨y, right, order⟩ := Option.bind_eq_some_iff.mp rest
    rw [evaluate, known lhs x left, known rhs y right]
    exact order
  | not f ih =>
    obtain ⟨x, inner, last⟩ := Option.bind_eq_some_iff.mp value
    rw [evaluate, ih inner]
    exact last
  | implies f g ihf ihg =>
    obtain ⟨x, premise, last⟩ := Option.bind_eq_some_iff.mp value
    rw [evaluate, ihf premise]
    cases x with
    | false => exact last
    | true => exact ihg last
  | iff f g ihf ihg =>
    obtain ⟨x, left, rest⟩ := Option.bind_eq_some_iff.mp value
    obtain ⟨y, right, last⟩ := Option.bind_eq_some_iff.mp rest
    rw [evaluate, ihf left, ihg right]
    exact last
  | join c fs ih =>
    rw [evaluate] at value ⊢
    obtain ⟨bs, values, last⟩ := Option.bind_eq_some_iff.mp value
    have each := evaluateAllSome.mp values
    have stay : evaluateAll b fs = some bs := by
      refine evaluateAllSome.mpr (List.forall₂_iff_zip.mpr ⟨each.length_eq, fun {f x} pair => ?_⟩)
      exact ih f (List.of_mem_zip pair).1 (List.forall₂_zip each pair)
    rw [stay]
    exact last

/-- The value of a formula depends on its own names, stays when more names are assigned, and is
there once the literals are assigned truth values and the comparisons have a value. -/
theorem evaluateStable (f : Formula) (a b : Assignment) :
    ((∀ name ∈ f.names, a.get? name = b.get? name) → f.evaluate a = f.evaluate b) ∧
    (∀ v, (∀ name x, a.get? name = some x → b.get? name = some x) → f.evaluate a = some v →
      f.evaluate b = some v) ∧
    ((∀ name, literal name ∈ f.subformulas → ∃ t, a.get? name = some (.bool t)) →
      (∀ op lhs rhs, comparison op lhs rhs ∈ f.subformulas → (comparison op lhs rhs).Valued a) →
      f.Valued a) := by
  refine ⟨evaluateCongr, fun v extend value => evaluateExtend extend value, ?_⟩
  intro literals comparisons
  refine (valuedExact f).mpr fun g come atom => ?_
  obtain ⟨part, -⟩ := memAtoms.mp (consultedAtom come atom)
  cases g with
  | literal name =>
    obtain ⟨t, assigned⟩ := literals name part
    exact ⟨t, by rw [evaluate, assigned]; rfl⟩
  | comparison op lhs rhs => exact comparisons op lhs rhs part
  | _ => cases atom

end Dependence

end Formula

namespace Example

def enough : Formula :=
  .implies (.literal "Power") (.comparison .less (.var ⟨"Watts", .integer⟩) (.constant (.int 500)))

theorem wattsStable : ∃ cooled : Assignment, cooled = powered.put "Cooling" (.bool true) ∧
    (∀ name ∈ enough.names, powered.get? name = cooled.get? name) ∧
    (∀ name x, powered.get? name = some x → cooled.get? name = some x) ∧
    enough.Valued powered ∧ enough.evaluate cooled = some true := by
  have agree : ∀ name ∈ enough.names,
      powered.get? name = (powered.put "Cooling" (.bool true)).get? name := by decide
  have extend : ∀ name x, powered.get? name = some x →
      (powered.put "Cooling" (.bool true)).get? name = some x := by
    intro name x found
    rw [SortedMap.getPut, if_neg]
    · exact found
    · rintro rfl
      cases found
  obtain ⟨-, stays, valued⟩ :=
    Formula.evaluateStable enough powered (powered.put "Cooling" (.bool true))
  refine ⟨_, rfl, agree, extend, valued ?_ ?_, stays true extend rfl⟩
  · intro name inside
    obtain rfl : name = "Power" := by simpa [enough, Formula.subformulas] using inside
    exact ⟨true, rfl⟩
  · intro op lhs rhs inside
    obtain ⟨rfl, rfl, rfl⟩ : op = .less ∧ lhs = .var ⟨"Watts", .integer⟩ ∧
        rhs = .constant (.int 500) := by
      simpa [enough, Formula.subformulas] using inside
    exact ⟨true, rfl⟩

end Example
end ProductLine
