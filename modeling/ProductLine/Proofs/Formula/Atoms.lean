import Mathlib.Data.List.Basic
import ProductLine.Proofs.Formula.View

/-!
The atoms of a formula: its literals and comparisons, in reading order. The names, variables and
literals of a formula are those of its atoms, and rewriting acts on them one by one.
-/
namespace ProductLine

section Firsts
variable {α : Type} [BEq α] [LawfulBEq α]

theorem idxOfFilter {p : α → Bool} {xs : List α} {x y : α}
    (keep : p x = true) (keep' : p y = true)
    (less : (xs.filter p).idxOf x < (xs.filter p).idxOf y) : xs.idxOf x < xs.idxOf y := by
  induction xs with
  | nil => simp at less
  | cons z xs ih =>
    rw [List.filter_cons] at less
    grind

theorem eraseDupsOrdered (xs : List α) :
    xs.eraseDups.Pairwise fun x y => xs.idxOf x < xs.idxOf y := by
  induction size : xs.length using Nat.strongRecOn generalizing xs with
  | ind n ih =>
    cases xs with
    | nil => simp
    | cons x xs =>
      have short : (xs.filter fun y => !y == x).length < n := by
        have := List.length_filter_le (fun y => !y == x) xs
        simp only [List.length_cons] at size
        omega
      have apart : ∀ y ∈ (xs.filter fun y => !y == x).eraseDups, (!y == x) = true ∧
          (x :: xs).idxOf y = xs.idxOf y + 1 := by
        intro y inside
        have other := (List.mem_filter.mp (List.mem_eraseDups.mp inside)).2
        have differs : y ≠ x := by simpa using other
        exact ⟨other, List.idxOf_cons_ne xs differs.symm⟩
      rw [List.eraseDups_cons]
      refine List.pairwise_cons.mpr ⟨fun y inside => ?_, ?_⟩
      · rw [List.idxOf_cons_self, (apart y inside).2]
        exact Nat.succ_pos _
      · refine (ih _ short _ rfl).imp_of_mem fun {y z} first second less => ?_
        rw [(apart y first).2, (apart z second).2]
        exact Nat.succ_lt_succ (idxOfFilter (apart y first).1 (apart z second).1 less)

end Firsts

namespace Formula

def atoms (f : Formula) : List Formula := f.subformulas.filter isAtom

theorem operandInduction {motive : Formula → Prop}
    (step : ∀ f : Formula, (∀ g ∈ f.operands, motive g) → motive f) (f : Formula) : motive f := by
  induction f with
  | constant b => exact step _ (by simp [operands])
  | literal name => exact step _ (by simp [operands])
  | comparison op lhs rhs => exact step _ (by simp [operands])
  | not f ih => exact step _ (by simpa [operands] using ih)
  | implies f g ihf ihg => exact step _ (by simpa [operands] using ⟨ihf, ihg⟩)
  | iff f g ihf ihg => exact step _ (by simpa [operands] using ⟨ihf, ihg⟩)
  | join c fs ih => exact step _ ih

section Parts
variable {f g : Formula} {v : Variable} {name : String}

theorem atomsEq (f : Formula) :
    f.atoms = (if f.isAtom then [f] else []) ++ f.operands.flatMap atoms := by
  rw [atoms, subformulasEq, List.filter_cons, List.filter_flatMap]
  cases f.isAtom <;> rfl

theorem atomOperands (atom : f.isAtom = true) : f.operands = [] := by
  cases f <;> first | rfl | cases atom

theorem atomsAtom (atom : f.isAtom = true) : f.atoms = [f] := by
  rw [atomsEq, if_pos atom, atomOperands atom]
  rfl

theorem atomsCompound (compound : f.isAtom = false) : f.atoms = f.operands.flatMap atoms := by
  rw [atomsEq, compound]
  rfl

theorem memAtoms : g ∈ f.atoms ↔ g ∈ f.subformulas ∧ g.isAtom = true := List.mem_filter

theorem spokenAtom (spoken : v ∈ g.ownSymbols) : g.isAtom = true := by
  cases g with
  | literal | comparison => rfl
  | _ => cases spoken

theorem comparedAtom {t : Term} (inside : t ∈ g.terms) : g.isAtom = true := by
  cases g with
  | comparison => rfl
  | _ => cases inside

theorem comparedSpoken (compared : .var v ∈ g.terms) : v ∈ g.ownSymbols := by
  cases g with
  | comparison op lhs rhs => exact List.mem_filterMap.mpr ⟨_, compared, rfl⟩
  | _ => cases compared

theorem spokenCases (spoken : v ∈ g.ownSymbols) :
    g = .literal v.name ∧ v.sort = .boolean ∨ .var v ∈ g.terms := by
  cases g with
  | literal name =>
    cases List.mem_singleton.mp spoken
    exact .inl ⟨rfl, rfl⟩
  | comparison op lhs rhs =>
    obtain ⟨t, inside, var⟩ := List.mem_filterMap.mp spoken
    cases t with
    | var w =>
      cases Option.some.inj var
      exact .inr inside
    | _ => cases var
  | _ => cases spoken

theorem memSymbols : v ∈ f.symbols ↔ ∃ g ∈ f.atoms, v ∈ g.ownSymbols := by
  rw [symbols, SortedSet.memOfList, List.mem_flatMap]
  refine exists_congr fun g => and_congr_left fun spoken => ?_
  rw [memAtoms, and_iff_left (spokenAtom spoken)]

theorem memNames : name ∈ f.names ↔ ∃ v ∈ f.symbols, v.name = name := by
  simp only [names, List.mem_eraseDups, List.mem_flatMap, List.mem_map, symbols,
    SortedSet.memOfList]
  constructor
  · intro h
    obtain ⟨g, inside, v, spoken, rfl⟩ := h
    exact ⟨v, ⟨g, inside, spoken⟩, rfl⟩
  · intro h
    obtain ⟨v, ⟨g, inside, spoken⟩, rfl⟩ := h
    exact ⟨g, inside, v, spoken, rfl⟩

def mentioned (f : Formula) : List String :=
  f.subformulas.flatMap fun g => g.ownSymbols.map Variable.name

theorem namesOrdered (f : Formula) :
    f.names.Pairwise fun n n' => f.mentioned.idxOf n < f.mentioned.idxOf n' :=
  eraseDupsOrdered f.mentioned

theorem namesNodup (f : Formula) : f.names.Nodup := by
  refine (namesOrdered f).imp fun less same => ?_
  rw [same] at less
  exact Nat.lt_irrefl _ less

theorem mentionsVar : f.mentionsVariable name = true ↔
    ∃ g ∈ f.atoms, ∃ v : Variable, .var v ∈ g.terms ∧ v.name = name := by
  simp only [mentionsVariable, List.any_eq_true]
  constructor
  · intro h
    obtain ⟨g, inside, t, term, named⟩ := h
    cases t with
    | var v => exact ⟨g, memAtoms.mpr ⟨inside, comparedAtom term⟩, v, term, beq_iff_eq.mp named⟩
    | _ => cases named
  · intro h
    obtain ⟨g, inside, v, term, rfl⟩ := h
    exact ⟨g, (memAtoms.mp inside).1, _, term, beq_iff_eq.mpr rfl⟩

theorem sameLiteral : f.same (.literal name) = true ↔ f = .literal name := by
  cases f with
  | literal => simp [same]
  | _ => simp [same]

theorem containsLiteral : f.contains (.literal name) = true ↔ .literal name ∈ f.atoms := by
  induction f using operandInduction with
  | step f ih =>
    rw [containsEq, atomsEq, Bool.or_eq_true, List.any_eq_true, sameLiteral, List.mem_append,
      List.mem_flatMap]
    refine or_congr ?_ (exists_congr fun g => and_congr_right fun part => ih g part)
    constructor
    · rintro rfl
      exact List.mem_singleton_self _
    · intro inside
      split at inside
      · exact (List.mem_singleton.mp inside).symm
      · cases inside

end Parts

section Rewriting
variable {f : Formula} {lookup lookup' : Formula → Option Formula}
  {image : Variable → Option Variable}

theorem mapOperandsTwice {first second both : Formula → Formula}
    (same : ∀ g ∈ f.operands, second (first g) = both g) :
    (f.mapOperands first).mapOperands second = f.mapOperands both := by
  cases f with
  | join c fs => simpa [mapOperands, operands] using same
  | _ => simp_all [mapOperands, operands]

theorem mapOperandsCompound {change : Formula → Formula} (compound : f.isAtom = false) :
    (f.mapOperands change).isAtom = false := by
  cases f with
  | literal | comparison => cases compound
  | _ => rfl

theorem substituteAtom (atom : f.isAtom = true) : f.substitute lookup = (lookup f).getD f := by
  cases f with
  | literal | comparison => rfl
  | _ => cases atom

theorem renameCompound (compound : f.isAtom = false) :
    f.renameVariables image = f.mapOperands (renameVariables image) := by
  cases f with
  | literal | comparison => cases compound
  | join c fs => rw [renameVariables, renameVariablesAllMap, mapOperands]
  | _ => rfl

theorem renameAtom (atom : f.isAtom = true) : (f.renameVariables image).isAtom = true := by
  cases f with
  | literal | comparison => rfl
  | _ => cases atom

theorem atomsSubstitute (onAtoms : ∀ g, g.isAtom = false → lookup g = none) (f : Formula) :
    (f.substitute lookup).atoms = f.atoms.flatMap fun g => ((lookup g).getD g).atoms := by
  induction f using operandInduction with
  | step f ih =>
    cases atom : f.isAtom with
    | true => rw [substituteAtom atom, atomsAtom atom, List.flatMap_singleton]
    | false =>
      rw [substituteEq, onAtoms f atom, Option.getD_none,
        atomsCompound (mapOperandsCompound atom), operandsMap, List.flatMap_map,
        atomsCompound atom, List.flatMap_assoc]
      exact List.flatMap_congr ih

theorem atomsRename (f : Formula) :
    (f.renameVariables image).atoms = f.atoms.map (renameVariables image) := by
  induction f using operandInduction with
  | step f ih =>
    cases atom : f.isAtom with
    | true => rw [atomsAtom atom, atomsAtom (renameAtom atom), List.map_singleton]
    | false =>
      rw [renameCompound atom, atomsCompound (mapOperandsCompound atom), operandsMap,
        List.flatMap_map, atomsCompound atom, List.map_flatMap]
      exact List.flatMap_congr ih

theorem mapOperandsStays {change : Formula → Formula} (same : ∀ g ∈ f.operands, change g = g) :
    f.mapOperands change = f := by
  cases f with
  | join c fs =>
    have all : fs.map change = fs.map id := List.map_congr_left same
    rw [mapOperands, all, List.map_id]
  | _ => simp_all [mapOperands, operands]

theorem substituteStays (untouched : ∀ g ∈ f.subformulas, lookup g = none) :
    f.substitute lookup = f := by
  induction f using operandInduction with
  | step f ih =>
    rw [subformulasEq, List.forall_mem_cons] at untouched
    rw [substituteEq, untouched.1, Option.getD_none]
    refine mapOperandsStays fun g part => ih g part fun h inside => untouched.2 h ?_
    exact List.mem_flatMap.mpr ⟨g, part, inside⟩

theorem mentionedAfter (onAtoms : ∀ g, g.isAtom = false → lookup g = none) {name : String}
    (fresh : ∀ g ∈ f.atoms, ∀ new, lookup g = some new → new.mentionsVariable name = false) :
    (f.substitute lookup).mentionsVariable name = true ↔ ∃ g ∈ f.atoms, lookup g = none ∧
      ∃ v : Variable, .var v ∈ g.terms ∧ v.name = name := by
  simp only [mentionsVar, atomsSubstitute onAtoms, List.mem_flatMap]
  constructor
  · intro h
    obtain ⟨g', ⟨g, inside, part⟩, v, term, named⟩ := h
    cases found : lookup g with
    | none =>
      rw [found, Option.getD_none, atomsAtom (memAtoms.mp inside).2, List.mem_singleton] at part
      exact ⟨g, inside, found, v, part ▸ term, named⟩
    | some new =>
      rw [found, Option.getD_some] at part
      have mentioned := mentionsVar.mpr ⟨g', part, v, term, named⟩
      rw [fresh g inside new found] at mentioned
      cases mentioned
  · intro h
    obtain ⟨g, inside, kept, v, term, named⟩ := h
    refine ⟨g, ⟨g, inside, ?_⟩, v, term, named⟩
    rw [kept, Option.getD_none, atomsAtom (memAtoms.mp inside).2]
    exact List.mem_singleton_self g

theorem rewriteCongr (onAtoms : ∀ g, g.isAtom = false → lookup g = none)
    (onAtoms' : ∀ g, g.isAtom = false → lookup' g = none)
    (same : ∀ g ∈ f.atoms, ((lookup g).getD g).renameVariables image = (lookup' g).getD g) :
    (f.substitute lookup).renameVariables image = f.substitute lookup' := by
  induction f using operandInduction with
  | step f ih =>
    cases atom : f.isAtom with
    | true =>
      rw [substituteAtom atom, substituteAtom atom]
      exact same f (atomsAtom atom ▸ List.mem_singleton_self f)
    | false =>
      have parts : ∀ g ∈ f.operands,
          (g.substitute lookup).renameVariables image = g.substitute lookup' := by
        intro g part
        refine ih g part fun h inside => same h ?_
        rw [atomsCompound atom]
        exact List.mem_flatMap.mpr ⟨g, part, inside⟩
      rw [substituteEq, substituteEq, onAtoms f atom, onAtoms' f atom, Option.getD_none,
        Option.getD_none, renameCompound (mapOperandsCompound atom)]
      exact mapOperandsTwice parts

end Rewriting

theorem disjunctionSeveral {fs : List Formula} (several : 2 ≤ fs.length) :
    disjunction fs = .or fs := by
  match fs, several with
  | _ :: _ :: _, _ => rfl

theorem atomsDisjunction (fs : List Formula) : (disjunction fs).atoms = fs.flatMap atoms := by
  cases fs with
  | nil => rfl
  | cons f rest =>
    cases rest with
    | nil => rw [List.flatMap_singleton]; rfl
    | cons g rest => exact atomsCompound rfl

end Formula

theorem Variable.selectedAtoms (v : Variable) : v.selected.atoms = [v.selected] := by
  refine Formula.atomsAtom ?_
  unfold selected
  cases v.sort <;> rfl

theorem Variable.selectedSymbols (v : Variable) : v.selected.ownSymbols = [v] := by
  obtain ⟨name, sort⟩ := v
  cases sort <;> rfl

theorem Variable.selectedSpeaks {v : Variable} {g : Formula} (same : v.selected.same g = true) :
    g.ownSymbols = [v] := by
  rcases selectedSame same with ⟨rfl, test⟩ | ⟨z, z', rfl, -⟩
  · rw [← test, selectedSymbols]
  · rfl

theorem Formula.memSelectedAtoms {vs : List Variable} {g : Formula} :
    g ∈ (disjunction (vs.map Variable.selected)).atoms ↔ ∃ v ∈ vs, v.selected = g := by
  simp only [atomsDisjunction, List.flatMap_map, List.mem_flatMap, Variable.selectedAtoms,
    List.mem_singleton]
  exact exists_congr fun v => and_congr_right fun _ => eq_comm

end ProductLine
