import ProductLine.Proofs.Formula.Atoms

/-!
All that a formula mentions, listed in reading order. Names, typed variables and both searches can
be read off that one list, so they agree with each other; renaming acts on it entry by entry.
-/
namespace ProductLine

inductive Mention where
  | literal (name : String)
  | compared (v : Variable)
  deriving DecidableEq, Repr

namespace Mention

def symbol : Mention → Variable
  | literal name => ⟨name, .boolean⟩
  | compared v => v

def name (x : Mention) : String := x.symbol.name

def rename (image : Variable → Option Variable) : Mention → Mention
  | literal name => literal name
  | compared v => compared ((image v).getD v)

end Mention

namespace Term

def spoken : Term → List Mention
  | var v => [.compared v]
  | _ => []

theorem memSpoken {t : Term} {x : Mention} : x ∈ t.spoken ↔ ∃ v, t = .var v ∧ x = .compared v := by
  cases t <;> simp [spoken]

theorem spokenRename (image : Variable → Option Variable) (t : Term) :
    (t.rename image).spoken = t.spoken.map (Mention.rename image) := by
  cases t <;> rfl

end Term

namespace Formula

mutual

def spoken : Formula → List Mention
  | constant _ => []
  | literal name => [.literal name]
  | comparison _ lhs rhs => lhs.spoken ++ rhs.spoken
  | not f => f.spoken
  | implies f g => f.spoken ++ g.spoken
  | iff f g => f.spoken ++ g.spoken
  | join _ fs => spokenAll fs

def spokenAll : List Formula → List Mention
  | [] => []
  | f :: fs => f.spoken ++ spokenAll fs

end

theorem spokenAllFlatMap (fs : List Formula) : spokenAll fs = fs.flatMap spoken := by
  induction fs with
  | nil => rfl
  | cons f fs ih => simp [spokenAll, ih]

section Atoms
variable {f g : Formula} {name : String} {v : Variable} {image : Variable → Option Variable}

theorem spokenCompound (compound : f.isAtom = false) : f.spoken = f.operands.flatMap spoken := by
  cases f with
  | literal | comparison => cases compound
  | join c fs => exact spokenAllFlatMap fs
  | _ => simp [spoken, operands]

theorem spokenAtoms (f : Formula) : f.spoken = f.atoms.flatMap spoken := by
  induction f using operandInduction with
  | step f ih =>
    cases atom : f.isAtom with
    | true => rw [atomsAtom atom, List.flatMap_singleton]
    | false =>
      rw [spokenCompound atom, atomsCompound atom, List.flatMap_assoc]
      exact List.flatMap_congr ih

theorem atomLiteral (atom : g.isAtom = true) :
    .literal name ∈ g.spoken ↔ g = .literal name := by
  cases g with
  | literal => simp [spoken, eq_comm]
  | comparison op lhs rhs => simp [spoken, Term.memSpoken]
  | _ => cases atom

theorem atomCompared (atom : g.isAtom = true) : .compared v ∈ g.spoken ↔ .var v ∈ g.terms := by
  cases g with
  | literal => simp [spoken, terms]
  | comparison op lhs rhs => simp [spoken, terms, Term.memSpoken, eq_comm]
  | _ => cases atom

theorem atomSymbols (atom : g.isAtom = true) : g.ownSymbols = g.spoken.map Mention.symbol := by
  cases g with
  | literal => rfl
  | comparison op lhs rhs => cases lhs <;> cases rhs <;> rfl
  | _ => cases atom

theorem atomRename (atom : g.isAtom = true) :
    (g.renameVariables image).spoken = g.spoken.map (Mention.rename image) := by
  cases g with
  | literal => rfl
  | comparison op lhs rhs =>
    rw [renameVariables, spoken, spoken, List.map_append, Term.spokenRename, Term.spokenRename]
  | _ => cases atom

end Atoms

section Visits
variable {f : Formula} {name : String} {v : Variable} {image : Variable → Option Variable}

theorem containsSpoken : f.contains (.literal name) = true ↔ .literal name ∈ f.spoken := by
  rw [containsLiteral, spokenAtoms, List.mem_flatMap]
  constructor
  · intro inside
    exact ⟨_, inside, List.mem_singleton_self _⟩
  · intro h
    obtain ⟨g, inside, own⟩ := h
    exact (atomLiteral (memAtoms.mp inside).2).mp own ▸ inside

theorem mentionsSpoken : f.mentionsVariable name = true ↔
    ∃ v, .compared v ∈ f.spoken ∧ v.name = name := by
  rw [mentionsVar, spokenAtoms]
  constructor
  · intro h
    obtain ⟨g, inside, v, term, named⟩ := h
    have own := (atomCompared (memAtoms.mp inside).2).mpr term
    exact ⟨v, List.mem_flatMap.mpr ⟨g, inside, own⟩, named⟩
  · intro h
    obtain ⟨v, spoken, named⟩ := h
    obtain ⟨g, inside, own⟩ := List.mem_flatMap.mp spoken
    exact ⟨g, inside, v, (atomCompared (memAtoms.mp inside).2).mp own, named⟩

theorem symbolsListed (f : Formula) :
    f.subformulas.flatMap ownSymbols = f.spoken.map Mention.symbol := by
  induction f using operandInduction with
  | step f ih =>
    rw [subformulasEq, List.flatMap_cons, List.flatMap_assoc]
    cases atom : f.isAtom with
    | true => rw [atomOperands atom, List.flatMap_nil, List.append_nil, atomSymbols atom]
    | false =>
      have none : f.ownSymbols = [] := List.eq_nil_iff_forall_not_mem.mpr fun v spoken => by
        rw [spokenAtom spoken] at atom
        cases atom
      rw [none, List.nil_append, spokenCompound atom, List.map_flatMap]
      exact List.flatMap_congr ih

theorem symbolsSpoken : v ∈ f.symbols ↔ ∃ x ∈ f.spoken, x.symbol = v := by
  rw [symbols, symbolsListed, SortedSet.memOfList, List.mem_map]

theorem namesSpoken : f.names = (f.spoken.map Mention.name).eraseDups := by
  rw [names, ← List.map_flatMap, symbolsListed, List.map_map]
  rfl

theorem spokenRename (f : Formula) :
    (f.renameVariables image).spoken = f.spoken.map (Mention.rename image) := by
  rw [spokenAtoms, atomsRename, List.flatMap_map, spokenAtoms f, List.map_flatMap]
  exact List.flatMap_congr fun g inside => atomRename (memAtoms.mp inside).2

theorem containsRename :
    (f.renameVariables image).contains (.literal name) = f.contains (.literal name) := by
  rw [Bool.eq_iff_iff, containsSpoken, containsSpoken, spokenRename, List.mem_map]
  constructor
  · intro h
    obtain ⟨x, spoken, same⟩ := h
    cases x with
    | literal => exact same ▸ spoken
    | compared => cases same
  · intro spoken
    exact ⟨_, spoken, rfl⟩

theorem nameFound : name ∈ f.names ↔
    f.contains (.literal name) = true ∨ f.mentionsVariable name = true := by
  rw [namesSpoken, List.mem_eraseDups, List.mem_map, containsSpoken, mentionsSpoken]
  constructor
  · intro h
    obtain ⟨x, spoken, rfl⟩ := h
    cases x with
    | literal => exact .inl spoken
    | compared v => exact .inr ⟨v, spoken, rfl⟩
  · intro h
    rcases h with spoken | ⟨v, spoken, rfl⟩
    · exact ⟨_, spoken, rfl⟩
    · exact ⟨_, spoken, rfl⟩

end Visits

/-- Names, typed variables and both searches read the same mentions, each name once and by its first
mention. Renaming keeps the literals and puts its image, if any, in each compared variable's place,
all at once. -/
theorem visitorsAgree (f : Formula) :
    f.names.Nodup ∧ f.names = (f.spoken.map Mention.name).eraseDups ∧
    (∀ name,
      (name ∈ f.names ↔ f.contains (.literal name) = true ∨ f.mentionsVariable name = true) ∧
      (name ∈ f.names ↔ ∃ v ∈ f.symbols, v.name = name) ∧
      (f.contains (.literal name) = true ↔ .literal name ∈ f.spoken) ∧
      (f.mentionsVariable name = true ↔ ∃ v, .compared v ∈ f.spoken ∧ v.name = name)) ∧
    (∀ v, v ∈ f.symbols ↔ ∃ x ∈ f.spoken, x.symbol = v) ∧
    ∀ image,
      (∀ name, (f.renameVariables image).contains (.literal name) = f.contains (.literal name)) ∧
      (f.renameVariables image).spoken = f.spoken.map (Mention.rename image) := by
  refine ⟨namesNodup f, namesSpoken, fun name => ?_, fun v => symbolsSpoken, fun image => ?_⟩
  · exact ⟨nameFound, memNames, containsSpoken, mentionsSpoken⟩
  · exact ⟨fun name => containsRename, spokenRename f⟩

/-- Two variables change places, and the literal of one's name stays. -/
example :
    let fan : Variable := ⟨"Fan", .integer⟩
    let pump : Variable := ⟨"Pump", .integer⟩
    let swap (v : Variable) := if v = fan then some pump else if v = pump then some fan else none
    (implies (literal "Fan") (comparison .less (.var fan) (.var pump))).renameVariables swap =
      implies (literal "Fan") (comparison .less (.var pump) (.var fan)) := rfl

end Formula
end ProductLine
