import ProductLine.Proofs.Encoding.Groups

/-!
The groups of a node gathered in one pass over its children. What a forced child asks is written as
the child comes, its term waits in the part of its group, and the parts that did not stay empty are
written last. This appends what `encodeGroups` lists, and it is true just when the choice among the
children is one the groups allow.
-/
namespace ProductLine
open Formula (Valued isTrue isTrueIff)

structure Gathering where
  written : List Formula
  parts : List (List Formula)

namespace Gathering

def start (out : List Formula) (groups : List GroupKind) : Gathering :=
  ⟨out, groups.map fun _ => []⟩

def take (parent : Formula) (groups : List GroupKind) (g : Gathering) (child : GroupMember) :
    Gathering where
  written := if child.isForced groups then g.written ++ [.implies parent child.term] else g.written
  parts := g.parts.modify child.group.index (· ++ [child.term])

def close (parent : Formula) (out : List Formula) : GroupKind × List Formula → List Formula
  | (kind, terms) => if terms.isEmpty then out else out ++ (kind.encode parent terms).toList

end Gathering

def appendGroups (parent : Formula) (groups : List GroupKind) (members : List GroupMember)
    (out : List Formula) : List Formula :=
  let gathered := members.foldl (Gathering.take parent groups) (.start out groups)
  (groups.zip gathered.parts).foldl (Gathering.close parent) gathered.written

section Passes
variable {parent : Formula} {groups : List GroupKind} {members : List GroupMember} {g : Gathering}
  {c : GroupMember} {out : List Formula} {i : Nat}

theorem termsInCons :
    termsIn (c :: members) i =
      (if c.group.index = i then [c.term] else []) ++ termsIn members i := by
  simp only [termsIn, List.filter_cons, GroupMember.isIn, beq_iff_eq]
  split <;> rfl

namespace Gathering

theorem takePart : (g.take parent groups c).parts[i]? =
    g.parts[i]?.map (· ++ if c.group.index = i then [c.term] else []) := by
  rw [take, List.getElem?_modify]
  cases g.parts[i]? with
  | none => rfl
  | some terms =>
    simp only [Option.map_eq_map, Option.map_some]
    split <;> simp

theorem partsAfter (members : List GroupMember) (g : Gathering) (i : Nat) :
    (members.foldl (take parent groups) g).parts[i]? =
      g.parts[i]?.map (· ++ termsIn members i) := by
  induction members generalizing g with
  | nil => simp [termsIn]
  | cons c members ih =>
    rw [List.foldl_cons, ih, takePart, Option.map_map, termsInCons]
    simp only [Function.comp_def, List.append_assoc]

theorem writtenAfter (members : List GroupMember) (g : Gathering) :
    (members.foldl (take parent groups) g).written =
      g.written ++ (members.filter (·.isForced groups)).map fun c => .implies parent c.term := by
  induction members generalizing g with
  | nil => simp
  | cons c members ih =>
    rw [List.foldl_cons, ih, take, List.filter_cons]
    split <;> simp

theorem closeAll (pairs : List (GroupKind × List Formula)) (out : List Formula) :
    pairs.foldl (close parent) out = out ++ pairs.filterMap fun (kind, terms) =>
      if terms.isEmpty then none else kind.encode parent terms := by
  induction pairs generalizing out with
  | nil => simp
  | cons pair pairs ih =>
    obtain ⟨kind, terms⟩ := pair
    rw [List.foldl_cons, ih, List.filterMap_cons, close]
    cases empty : terms.isEmpty with
    | true => simp [empty]
    | false => cases encoded : kind.encode parent terms <;> simp [empty, encoded]

end Gathering

theorem gatheredTerms (out : List Formula) :
    groups.zip (members.foldl (Gathering.take parent groups) (.start out groups)).parts =
      groupTerms groups members := by
  refine List.ext_getElem? fun i => Option.ext fun pair => ?_
  rw [List.getElem?_zip_eq_some, Gathering.partsAfter, groupTerms, List.getElem?_map,
    List.getElem?_zipIdx, Gathering.start, List.getElem?_map]
  cases groups[i]? with
  | none => simp
  | some kind => simp [termsIn, Prod.ext_iff, eq_comm]

theorem appendGroupsEq (parent : Formula) (groups : List GroupKind) (members : List GroupMember)
    (out : List Formula) :
    appendGroups parent groups members out = out ++ encodeGroups parent groups members := by
  rw [appendGroups, gatheredTerms, Gathering.closeAll, Gathering.writtenAfter, encodeGroups,
    List.append_assoc]
  rfl

theorem encodeGroupsPlaced (parent : Formula) (groups : List GroupKind)
    (members : List GroupMember) :
    encodeGroups parent groups (members.filter fun c => c.group.index < groups.length) =
      encodeGroups parent groups members := by
  have forced : ∀ c : GroupMember, c.isForced groups = true → c.group.index < groups.length := by
    intro c own
    obtain ⟨-, kind⟩ := Bool.and_eq_true_iff.mp own
    exact (List.getElem?_eq_some_iff.mp (beq_iff_eq.mp kind)).1
  have terms : groupTerms groups (members.filter fun c => c.group.index < groups.length) =
      groupTerms groups members := by
    refine List.map_congr_left fun (kind, i) listed => ?_
    have bound := (List.getElem?_eq_some_iff.mp (List.mk_mem_zipIdx_iff_getElem?.mp listed)).1
    have same : ∀ c ∈ members, (c.isIn i && decide (c.group.index < groups.length)) =
        c.isIn i := by
      intro c _
      by_cases here : c.group.index = i <;> simp [GroupMember.isIn, here, bound]
    simp only [List.filter_filter, List.filter_congr same]
  have own : ∀ c ∈ members, (c.isForced groups && decide (c.group.index < groups.length)) =
      c.isForced groups := by
    intro c _
    cases known : c.isForced groups with
    | true => simp [forced c known]
    | false => rfl
  rw [encodeGroups, terms, List.filter_filter, List.filter_congr own, encodeGroups]

/-- What one pass appends holds just when the parent is false or the groups allow the choice among
their children; the children of groups that are not there add nothing. -/
theorem appendsExactly (parent : Formula) (groups : List GroupKind) (members : List GroupMember)
    (short : members.length < UInt32.size) (out : List Formula) :
    ∃ added, appendGroups parent groups members out = out ++ added ∧
      added = encodeGroups parent groups members ∧
      appendGroups parent groups (members.filter fun c => c.group.index < groups.length) out =
        out ++ added ∧
      ∀ a, parent.Valued a → (∀ c ∈ members, c.term.Valued a) →
        ((∀ f ∈ added, f.evaluate a = some true) ↔ parent.evaluate a = some false ∨
          (∀ c ∈ members, c.mandatory = true → groups[c.group.index]? = some .and →
            c.term.evaluate a = some true) ∧
          ∀ (i : Nat) (kind : GroupKind), groups[i]? = some kind →
            (∃ c ∈ members, c.group.index = i) →
            kind.Allows (members.countP fun c => c.group.index == i && c.term.isTrue a)) := by
  refine ⟨_, appendGroupsEq .., rfl, ?_, fun a owner each => ?_⟩
  · rw [appendGroupsEq, encodeGroupsPlaced]
  · have criterion := @groupsExact a parent groups members owner each short
    simp only [isTrueIff, GroupMember.isForced, GroupMember.isIn, Bool.and_eq_true, beq_iff_eq,
      and_imp] at criterion
    rw [criterion, owner.evaluateEq]
    cases parent.isTrue a <;> simp

end Passes

namespace Example

def bays : List GroupMember :=
  [⟨.literal "Disk", ⟨1⟩, true⟩, ⟨.literal "Fan", ⟨0⟩, true⟩, ⟨.literal "Tape", ⟨7⟩, true⟩,
    ⟨.literal "Flash", ⟨1⟩, false⟩]

theorem baysAppended : ∃ a : Assignment, bays.length < UInt32.size ∧
    (Formula.literal "Bay").Valued a ∧ (∀ c ∈ bays, c.term.Valued a) ∧
    (Formula.literal "Tape").evaluate a = some false ∧
    ∀ f ∈ encodeGroups (.literal "Bay") [.and, .alternative] bays, f.evaluate a = some true := by
  let a := Assignment.selecting ["Bay", "Disk", "Fan", "Tape", "Flash"] ["Bay", "Fan", "Flash"]
  have short : bays.length < UInt32.size := by decide
  have owner : (Formula.literal "Bay").Valued a := ⟨true, by decide⟩
  have each : ∀ c ∈ bays, c.term.Valued a := by
    intro c inside
    simp only [bays, List.mem_cons, List.not_mem_nil, or_false] at inside
    rcases inside with rfl | rfl | rfl | rfl
    all_goals exact ⟨_, rfl⟩
  obtain ⟨added, -, rfl, -, criterion⟩ :=
    appendsExactly (.literal "Bay") [.and, .alternative] bays short []
  refine ⟨a, short, owner, each, by decide, (criterion a owner each).mpr (.inr ⟨by decide, ?_⟩)⟩
  intro i kind found some
  match i, found with
  | 0, found =>
    cases found
    trivial
  | 1, found =>
    cases found
    show bays.countP _ = 1
    decide

end Example
end ProductLine
