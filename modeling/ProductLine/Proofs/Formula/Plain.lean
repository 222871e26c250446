import ProductLine.Proofs.Formula.Atoms

/-!
Formulas that only test variables. Among these, each equals itself alone, so how often it occurs is
how many of them equal it.
-/
namespace ProductLine

theorem Variable.selectedSameOnce {v w : Variable} : v.selected.same w.selected = true ↔ v = w := by
  constructor
  · intro same
    have symbols := selectedSpeaks same
    rw [selectedSymbols] at symbols
    exact (List.cons.inj symbols).1.symm
  · rintro rfl
    unfold selected
    cases v.sort with
    | boolean => exact beq_self_eq_true _
    | integer => simp [Formula.same, Term.same, Value.same]
    | float =>
      have zero : Binary64.zero.same .zero = true := by decide
      simp [Formula.same, Term.same, Value.same, zero]

namespace Formula
variable {f g : Formula} {fs gs rest : List Formula}

def Plain (f : Formula) : Prop := ∀ g ∈ f.atoms, ∃ v : Variable, v.selected = g

theorem Plain.operand (plain : f.Plain) (part : g ∈ f.operands) : g.Plain := by
  intro h inside
  refine plain h ?_
  rw [atomsEq]
  exact List.mem_append_right _ (List.mem_flatMap.mpr ⟨g, part, inside⟩)

theorem Plain.atomSame (plain : f.Plain) (plain' : g.Plain) (atom : f.isAtom = true) :
    f.same g = true ↔ f = g := by
  obtain ⟨v, rfl⟩ := plain f (atomsAtom atom ▸ List.mem_singleton_self f)
  constructor
  · intro same
    have atom' := Variable.selectedAtom same
    obtain ⟨w, rfl⟩ := plain' g (atomsAtom atom' ▸ List.mem_singleton_self g)
    rw [Variable.selectedSameOnce.mp same]
  · rintro rfl
    exact Variable.selectedSameOnce.mpr rfl

theorem sameAllEq (each : ∀ f ∈ fs, ∀ g ∈ gs, f.same g = true ↔ f = g) :
    sameAll fs gs = true ↔ fs = gs := by
  induction fs generalizing gs with
  | nil => cases gs <;> simp [sameAll]
  | cons f fs ih =>
    cases gs with
    | nil => simp [sameAll]
    | cons g gs =>
      have head := each f (by simp) g (by simp)
      have tail : sameAll fs gs = true ↔ fs = gs := ih fun f inside g inside' =>
        each f (List.mem_cons_of_mem _ inside) g (List.mem_cons_of_mem _ inside')
      rw [sameAll, Bool.and_eq_true, head, tail, List.cons.injEq]

theorem Plain.sameEq (plain : f.Plain) (plain' : g.Plain) : f.same g = true ↔ f = g := by
  induction f generalizing g with
  | literal | comparison => exact plain.atomSame plain' rfl
  | constant b => cases g <;> simp [same]
  | not f ih =>
    cases g with
    | not g =>
      have inner := ih (plain.operand List.mem_cons_self) (plain'.operand List.mem_cons_self)
      simp [same, inner]
    | _ => simp [same]
  | implies f f' ih ih' =>
    cases g with
    | implies g g' =>
      have left := ih (plain.operand List.mem_cons_self) (plain'.operand List.mem_cons_self)
      have right := ih' (plain.operand (.tail _ List.mem_cons_self))
        (plain'.operand (.tail _ List.mem_cons_self))
      simp [same, left, right]
    | _ => simp [same]
  | iff f f' ih ih' =>
    cases g with
    | iff g g' =>
      have left := ih (plain.operand List.mem_cons_self) (plain'.operand List.mem_cons_self)
      have right := ih' (plain.operand (.tail _ List.mem_cons_self))
        (plain'.operand (.tail _ List.mem_cons_self))
      simp [same, left, right]
    | _ => simp [same]
  | join c fs ih =>
    cases g with
    | join d gs =>
      have parts : sameAll fs gs = true ↔ fs = gs := sameAllEq fun f inside g inside' =>
        ih f inside (plain.operand inside) (plain'.operand inside')
      simp [same, parts]
    | _ => simp [same]

def OccursOnce (f : Formula) (fs : List Formula) : Prop := f ∈ fs ∧ fs.countP (·.same f) = 1

theorem occursOnce (perm : fs.Perm (f :: rest)) (plain : ∀ g ∈ fs, g.Plain) (absent : f ∉ rest) :
    f.OccursOnce fs := by
  have own : f ∈ fs := perm.mem_iff.mpr List.mem_cons_self
  have self : f.same f = true := ((plain f own).sameEq (plain f own)).mpr rfl
  have others : rest.countP (·.same f) = 0 := by
    refine List.countP_eq_zero.mpr fun g inside same => absent ?_
    have listed : g ∈ fs := perm.mem_iff.mpr (List.mem_cons_of_mem _ inside)
    exact ((plain g listed).sameEq (plain f own)).mp same ▸ inside
  refine ⟨own, ?_⟩
  rw [perm.countP_eq, List.countP_cons, others, if_pos self]

end Formula

end ProductLine
