import ProductLine.Atom
import ProductLine.Proofs.Formula.Meaning
import ProductLine.Proofs.Formula.Truth

/-!
Constraints read in a view, where variables stand for lists of others. A variable is selected when
any of those it stands for is, and has a value when it stands for a single one.
-/
namespace ProductLine

structure Standing where
  own : Variable
  among : List Variable

abbrev View := List Standing

namespace View

def value (view : View) (a : Assignment) : Term → Option Value
  | .var v =>
    match view.find? (·.own.name == v.name) with
    | none => a.get? v.name
    | some ⟨_, [single]⟩ => a.get? single.name
    | some _ => none
  | t => t.value a

def compared (view : View) (a : Assignment) : Formula → Option Bool
  | .comparison op lhs rhs => do
    let x ← view.value a lhs
    let y ← view.value a rhs
    let order ← x.compare? y
    return op.holds order
  | f => f.evaluate a

def atom (view : View) (a : Assignment) (f : Formula) : Option Bool :=
  match view.find? (·.own.selected.same f) with
  | some s => some (s.among.any fun v => v.selected.isTrue a)
  | none => view.compared a f

def reads (view : View) (a : Assignment) (f : Formula) : Option Bool := f.meaning (view.atom a)

end View

namespace View
variable {view : View} {a : Assignment}

theorem comparedOutside {f : Formula}
    (outside : ∀ t ∈ f.terms, ∀ v, t = .var v → view.find? (·.own.name == v.name) = none) :
    view.compared a f = f.evaluate a := by
  have same : ∀ t ∈ f.terms, view.value a t = t.value a := by
    intro t inside
    cases t with
    | var v =>
      rw [value, outside _ inside v rfl]
      rfl
    | constant c => rfl
    | aggregate g => rfl
  cases f with
  | comparison op lhs rhs =>
    rw [compared, Formula.evaluate, same lhs (by simp [Formula.terms]),
      same rhs (by simp [Formula.terms])]
  | _ => rfl

end View

theorem mentions {f g : Formula} {t : Term} {v : Variable} (part : g ∈ f.subformulas)
    (inside : t ∈ g.terms) (var : t = .var v) : f.mentionsVariable v.name = true := by
  subst var
  simp only [Formula.mentionsVariable, List.any_eq_true]
  exact ⟨g, part, _, inside, by simp [Term.var?]⟩

theorem Value.compareSame {v w x : Value} (same : v.same w = true) :
    x.compare? v = x.compare? w := by
  cases v with
  | bool b =>
    cases w with
    | bool b' =>
      cases (beq_iff_eq.mp same : b = b')
      rfl
    | _ => cases same
  | int n =>
    cases w with
    | int n' =>
      cases (beq_iff_eq.mp same : n = n')
      rfl
    | _ => cases same
  | float y =>
    cases w with
    | float y' =>
      obtain ⟨number, number', keys⟩ := Binary64.sameEqTrue.mp same
      cases x <;> simp [compare?, Binary64.compare?, number, number', keys]
    | _ => cases same

namespace Variable
variable {v w : Variable} {f : Formula}

theorem selectedSame (same : v.selected.same f = true) :
    f = .literal v.name ∧ v.selected = f ∨
    ∃ z z' : Value, f = .comparison .notEqual (.var v) (.constant z') ∧
      v.selected = .comparison .notEqual (.var v) (.constant z) ∧ z.same z' = true := by
  have numeric : ∀ z : Value, (Formula.comparison .notEqual (.var v) (.constant z)).same f = true →
      ∃ z', f = .comparison .notEqual (.var v) (.constant z') ∧ z.same z' = true := by
    intro z same
    cases f with
    | comparison op lhs rhs =>
      cases lhs with
      | var w =>
        cases rhs with
        | constant c =>
          simp only [Formula.same, Term.same, Bool.and_eq_true, beq_iff_eq] at same
          obtain ⟨⟨rfl, rfl⟩, zeros⟩ := same
          exact ⟨c, rfl, zeros⟩
        | _ => simp [Formula.same, Term.same] at same
      | _ => simp [Formula.same, Term.same] at same
    | _ => cases same
  unfold selected at same ⊢
  cases sort : v.sort with
  | boolean =>
    rw [sort] at same
    cases f with
    | literal name =>
      simp only [Formula.same, beq_iff_eq] at same
      exact .inl ⟨by rw [same], by rw [same]⟩
    | _ => cases same
  | integer =>
    rw [sort] at same
    obtain ⟨z, rfl, zeros⟩ := numeric _ same
    exact .inr ⟨_, z, rfl, rfl, zeros⟩
  | float =>
    rw [sort] at same
    obtain ⟨z, rfl, zeros⟩ := numeric _ same
    exact .inr ⟨_, z, rfl, rfl, zeros⟩

theorem selectedAtom (same : v.selected.same f = true) : f.isAtom = true := by
  rcases selectedSame same with ⟨rfl, -⟩ | ⟨z, z', rfl, -⟩
  · rfl
  · rfl

theorem selectedEvaluate {a : Assignment} (same : v.selected.same f = true) :
    v.selected.evaluate a = f.evaluate a := by
  rcases selectedSame same with ⟨-, same⟩ | ⟨z, z', rfl, test, zeros⟩
  · rw [same]
  · rw [test]
    have orders : ∀ x : Value, x.compare? z = x.compare? z' := fun x => Value.compareSame zeros
    simp only [Formula.evaluate, Term.value, bind, Option.bind, orders]

theorem selectedTerms (same : v.selected.same f = true) {t : Term} {w : Variable}
    (inside : t ∈ f.terms) (var : t = .var w) : w = v := by
  subst var
  rcases selectedSame same with ⟨rfl, -⟩ | ⟨z, z', rfl, -⟩
  · cases inside
  · simpa [Formula.terms] using inside

theorem selectedName (first : v.selected.same f = true) (second : w.selected.same f = true) :
    v.name = w.name := by
  rcases selectedSame first with ⟨rfl, -⟩ | ⟨z, z', rfl, -⟩
  · rcases selectedSame second with ⟨same, -⟩ | ⟨z, z', same, -⟩
    · exact Formula.literal.inj same
    · cases same
  · rcases selectedSame second with ⟨same, -⟩ | ⟨z, z', same, -⟩
    · cases same
    · cases same
      rfl

end Variable

theorem firstReplacementAtoms {pairs : List (Formula × Formula)}
    (targets : ∀ p ∈ pairs, ∃ v : Variable, p.1 = v.selected) {f : Formula}
    (compound : f.isAtom = false) : Formula.firstReplacement pairs f = none := by
  rw [Formula.firstReplacement, Option.map_eq_none_iff, List.find?_eq_none]
  intro p inside same
  obtain ⟨v, target⟩ := targets p inside
  rw [target] at same
  rw [Variable.selectedAtom same] at compound
  cases compound

theorem findUnique {α : Type} {xs : List α} {good : α → Bool} {x : α}
    (unique : ∀ y ∈ xs, good y = true → y = x) (inside : x ∈ xs) (fits : good x = true) :
    xs.find? good = some x := by
  cases found : xs.find? good with
  | none => exact absurd fits (List.find?_eq_none.mp found x inside)
  | some y => rw [unique y (List.mem_of_find?_eq_some found) (List.find?_some found)]

end ProductLine
