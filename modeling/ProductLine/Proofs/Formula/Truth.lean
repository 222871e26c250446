import ProductLine.Formula.Evaluation
import ProductLine.Proofs.Outcome

/-!
When formulas hold. If the parts of a connective have values, whether it holds is told by which of
them hold; the counting connectives are exact as long as the count fits in 32 bits.
-/
namespace ProductLine

namespace Formula
variable {a : Assignment} {f g : Formula} {fs : List Formula} {c : Connective}

def Valued (a : Assignment) (f : Formula) : Prop := ∃ b, f.evaluate a = some b

def isTrue (a : Assignment) (f : Formula) : Bool := f.evaluate a == some true

theorem isTrueIff : f.isTrue a = true ↔ f.evaluate a = some true := by
  simp [isTrue]

theorem Valued.evaluateEq (valued : f.Valued a) : f.evaluate a = some (f.isTrue a) := by
  obtain ⟨b, known⟩ := valued
  rw [isTrue, known]
  cases b <;> rfl

theorem evaluateAllTrue (valued : ∀ f ∈ fs, f.Valued a) :
    evaluateAll a fs = some (fs.map (isTrue a)) := by
  induction fs with
  | nil => rfl
  | cons f fs ih =>
    have head := (valued f (by simp)).evaluateEq
    have tail := ih fun g inside => valued g (List.mem_cons_of_mem _ inside)
    simp [evaluateAll, head, tail]

theorem joinEvaluate (valued : ∀ f ∈ fs, f.Valued a) :
    (join c fs).evaluate a = some (c.holds (fs.map (isTrue a))) := by
  simp [evaluate, evaluateAllTrue valued]

theorem joinValued (valued : ∀ f ∈ fs, f.Valued a) : (join c fs).Valued a :=
  ⟨_, joinEvaluate valued⟩

theorem joinTrue (valued : ∀ f ∈ fs, f.Valued a) :
    (join c fs).isTrue a = c.holds (fs.map (isTrue a)) := by
  rw [isTrue, joinEvaluate valued]
  cases c.holds (fs.map (isTrue a)) <;> rfl

theorem orTrue (valued : ∀ f ∈ fs, f.Valued a) : (Formula.or fs).isTrue a = fs.any (isTrue a) := by
  rw [joinTrue valued, Connective.holds, List.any_map]
  rfl

theorem evaluateAllSome {bs : List Bool} : evaluateAll a fs = some bs ↔
    List.Forall₂ (fun f b => f.evaluate a = some b) fs bs := by
  induction fs generalizing bs with
  | nil => simp [evaluateAll, eq_comm]
  | cons f fs ih =>
    rw [evaluateAll, List.forall₂_cons_left_iff]
    constructor
    · intro done
      obtain ⟨b, head, rest⟩ := Option.bind_eq_some_iff.mp done
      obtain ⟨rest, tail, last⟩ := Option.bind_eq_some_iff.mp rest
      exact ⟨b, rest, head, ih.mp tail, (Option.some.inj last).symm⟩
    · intro h
      obtain ⟨b, rest, head, tail, rfl⟩ := h
      rw [head, ih.mpr tail]
      rfl

theorem andTrue : (and fs).evaluate a = some true ↔ ∀ f ∈ fs, f.evaluate a = some true := by
  constructor
  · intro holds f inside
    rw [evaluate] at holds
    obtain ⟨bs, values, last⟩ := Option.bind_eq_some_iff.mp holds
    obtain ⟨b, listed, value⟩ := forall₂Left (evaluateAllSome.mp values) inside
    have all : bs.all id = true := Option.some.inj last
    rw [value, show b = true from List.all_eq_true.mp all b listed]
  · intro each
    have valued : ∀ f ∈ fs, f.Valued a := fun f inside => ⟨true, each f inside⟩
    have all : (fs.map (isTrue a)).all id = true := by
      rw [List.all_map, List.all_eq_true]
      exact fun f inside => isTrueIff.mpr (each f inside)
    rw [joinEvaluate valued, Connective.holds, all]

theorem disjunctionEvaluate (valued : ∀ f ∈ fs, f.Valued a) :
    (disjunction fs).evaluate a = some (fs.any (isTrue a)) := by
  cases fs with
  | nil => rfl
  | cons f rest =>
    cases rest with
    | nil =>
      have known := (valued f (by simp)).evaluateEq
      simpa [disjunction] using known
    | cons g rest =>
      have several : disjunction (f :: g :: rest) = .or (f :: g :: rest) := rfl
      rw [several, joinEvaluate valued, Connective.holds, List.any_map]
      rfl

theorem impliesTrue (valued : f.Valued a) :
    (implies f g).isTrue a = true ↔ (f.isTrue a = true → g.isTrue a = true) := by
  rw [isTrueIff, evaluate, valued.evaluateEq]
  cases premise : f.isTrue a with
  | false => simp
  | true => simp [isTrue]

end Formula

namespace Connective
variable {a : Assignment} {fs : List Formula}

theorem tallyCount (short : fs.length < UInt32.size) :
    (tally (fs.map (Formula.isTrue a))).toNat = fs.countP (Formula.isTrue a) := by
  have few : fs.countP (Formula.isTrue a) ≤ fs.length := List.countP_le_length
  rw [tally, List.count_eq_countP, List.countP_map, UInt32.toNat_ofNat']
  have same : fs.countP ((fun x => x == true) ∘ Formula.isTrue a) =
      fs.countP (Formula.isTrue a) := by
    congr 1
    funext f
    simp
  rw [same]
  exact Nat.mod_eq_of_lt (Nat.lt_of_le_of_lt few short)

end Connective

end ProductLine
