import ProductLine.Encoding.Spread
import ProductLine.Proofs.Formula.Truth
import ProductLine.Proofs.Model.Growth
import ProductLine.Proofs.Model.Rules

/-!
What the conjuncts of one place say when its terms have values: those of the groups of a node, and
those of the occurrences of a child.
-/
namespace ProductLine
open Formula (Valued isTrue impliesTrue joinTrue orTrue)

section Groups
variable {a : Assignment} {kind : GroupKind} {rule : Connective} {parent : Formula}
  {terms : List Formula}

theorem ruleNone (none : kind.rule = none) (n : Nat) : kind.Allows n := by
  cases kind with
  | and => trivial
  | or => cases none
  | alternative => cases none
  | cardinality low high =>
    unfold GroupKind.rule at none
    split at none <;> simp_all [GroupKind.Allows]

theorem ruleHolds (some : kind.rule = some rule) (short : terms.length < UInt32.size) :
    rule.holds (terms.map (isTrue a)) = true ↔ kind.Allows (terms.countP (isTrue a)) := by
  have count := Connective.tallyCount (a := a) short
  cases kind with
  | and => cases some
  | or =>
    cases some
    simp [Connective.holds, GroupKind.Allows, Nat.succ_le_iff, List.countP_pos_iff]
  | alternative =>
    cases some
    have one : (1 : UInt32).toNat = 1 := rfl
    rw [Connective.holds, beq_iff_eq, ← UInt32.toNat_inj, count, one, GroupKind.Allows]
  | cardinality low high =>
    unfold GroupKind.rule at some
    split at some <;> cases some <;>
      simp_all [Connective.holds, GroupKind.Allows, UInt32.le_iff_toNat_le]

theorem encodeExact (owner : parent.Valued a) (each : ∀ f ∈ terms, f.Valued a)
    (short : terms.length < UInt32.size) :
    (∀ f : Formula, kind.encode parent terms = some f → f.isTrue a = true) ↔
      (parent.isTrue a = true → kind.Allows (terms.countP (isTrue a))) := by
  unfold GroupKind.encode
  cases found : kind.rule with
  | none =>
    have allowed := ruleNone found (terms.countP (isTrue a))
    simp [allowed]
  | some rule =>
    simp only [Option.map_some, Option.some.injEq, forall_eq']
    rw [impliesTrue owner, joinTrue each, ruleHolds found short]

def termsIn (members : List GroupMember) (i : Nat) : List Formula :=
  (members.filter (·.isIn i)).map GroupMember.term

theorem memEncodeGroups {groups : List GroupKind} {members : List GroupMember} {f : Formula} :
    f ∈ encodeGroups parent groups members ↔
      (∃ c ∈ members, c.isForced groups = true ∧ .implies parent c.term = f) ∨
      ∃ (i : Nat) (kind : GroupKind), groups[i]? = some kind ∧
        (∃ c ∈ members, c.isIn i = true) ∧ kind.encode parent (termsIn members i) = some f := by
  have occupied : ∀ i, (termsIn members i).isEmpty = false ↔ ∃ c ∈ members, c.isIn i = true := by
    intro i
    simp [termsIn, List.isEmpty_eq_false_iff, List.filter_eq_nil_iff]
  rw [encodeGroups, List.mem_append]
  refine or_congr ?_ ?_
  · simp only [List.mem_map, List.mem_filter, and_assoc]
  · simp only [List.mem_filterMap, groupTerms, List.mem_map, Prod.exists,
      List.mk_mem_zipIdx_iff_getElem?]
    constructor
    · intro h
      obtain ⟨kind, terms, ⟨_, i, found, same⟩, encoded⟩ := h
      cases same
      split at encoded
      · cases encoded
      · rename_i some
        exact ⟨i, kind, found, (occupied i).mp (by simpa [termsIn] using some), encoded⟩
    · intro h
      obtain ⟨i, kind, found, some, encoded⟩ := h
      refine ⟨kind, termsIn members i, ⟨kind, i, found, rfl⟩, ?_⟩
      rw [(occupied i).mpr some]
      exact encoded

theorem groupsExact {groups : List GroupKind} {members : List GroupMember}
    (owner : parent.Valued a) (each : ∀ c ∈ members, c.term.Valued a)
    (short : members.length < UInt32.size) :
    (∀ f ∈ encodeGroups parent groups members, f.isTrue a = true) ↔
      (parent.isTrue a = true →
        (∀ c ∈ members, c.isForced groups = true → c.term.isTrue a = true) ∧
        ∀ (i : Nat) (kind : GroupKind), groups[i]? = some kind → (∃ c ∈ members, c.isIn i = true) →
          kind.Allows (members.countP fun c => c.isIn i && c.term.isTrue a)) := by
  have rules : ∀ (i : Nat) (kind : GroupKind),
      (∀ f : Formula, kind.encode parent (termsIn members i) = some f → f.isTrue a = true) ↔
      (parent.isTrue a = true →
        kind.Allows (members.countP fun c => c.isIn i && c.term.isTrue a)) := by
    intro i kind
    have few := List.length_filter_le (fun c : GroupMember => c.isIn i) members
    have part : ∀ f ∈ termsIn members i, f.Valued a := by
      intro f inside
      obtain ⟨c, member, rfl⟩ := List.mem_map.mp inside
      exact each c (List.mem_of_mem_filter member)
    rw [encodeExact owner part (by rw [termsIn, List.length_map]; omega), termsIn, List.countP_map,
      List.countP_filter]
    simp only [Function.comp, Bool.and_comm]
  constructor
  · intro all selected
    constructor
    · intro c inside forced
      have listed := all _ (memEncodeGroups.mpr (.inl ⟨c, inside, forced, rfl⟩))
      exact (impliesTrue owner).mp listed selected
    · intro i kind found some
      refine (rules i kind).mp (fun f encoded => ?_) selected
      exact all f (memEncodeGroups.mpr (.inr ⟨i, kind, found, some, encoded⟩))
  · intro spec f inside
    rcases memEncodeGroups.mp inside with ⟨c, member, forced, rfl⟩ | ⟨i, kind, found, some, encoded⟩
    · exact (impliesTrue owner).mpr fun selected => (spec selected).1 c member forced
    · exact (rules i kind).mpr (fun selected => (spec selected).2 i kind found some) f encoded

end Groups

section Spreads
variable {a : Assignment} {parent : Formula} {suffix : Option String} {p : Placed}

namespace Spread

theorem memSteps {s : Spread} {step : Option Occurrence × Occurrence} : step ∈ s.steps ↔
    step.1 = none ∧ s.occurrences[0]? = some step.2 ∨
    ∃ k q, step.1 = some q ∧ s.occurrences[k]? = some q ∧ s.occurrences[k + 1]? = some step.2 := by
  rw [steps, List.mem_iff_getElem?]
  simp only [List.getElem?_zip_eq_some]
  constructor
  · intro h
    obtain ⟨i, previous, here⟩ := h
    cases i with
    | zero => exact .inl ⟨by simpa using previous.symm, here⟩
    | succ k =>
      simp only [List.getElem?_cons_succ, List.getElem?_map, Option.map_eq_some_iff] at previous
      obtain ⟨q, found, same⟩ := previous
      exact .inr ⟨k, q, same.symm, found, here⟩
  · intro h
    rcases h with ⟨none, first⟩ | ⟨k, q, same, found, here⟩
    · exact ⟨0, by simp [none], first⟩
    · exact ⟨k + 1, by simp [found, same], here⟩

theorem stepsOccurrences (s : Spread) : s.steps.map Prod.snd = s.occurrences :=
  List.map_snd_zip (by simp)

theorem stepFrom {s : Spread} {step : Option Occurrence × Occurrence} (listed : step ∈ s.steps) :
    step.2 ∈ s.occurrences := by
  rcases memSteps.mp listed with ⟨-, first⟩ | ⟨k, q, -, -, found⟩
  · exact List.mem_of_getElem? first
  · exact List.mem_of_getElem? found

theorem stepBefore {s : Spread} {step : Option Occurrence × Occurrence} {q : Occurrence}
    (listed : step ∈ s.steps) (before : step.1 = some q) : q ∈ s.occurrences := by
  rcases memSteps.mp listed with ⟨none, -⟩ | ⟨k, q', same, found, -⟩
  · cases before.symm.trans none
  · cases before.symm.trans same
    exact List.mem_of_getElem? found

theorem stepTo {s : Spread} {o : Occurrence} (inside : o ∈ s.occurrences) :
    ∃ previous, (previous, o) ∈ s.steps := by
  obtain ⟨k, found⟩ := List.mem_iff_getElem?.mp inside
  cases k with
  | zero => exact ⟨none, memSteps.mpr (.inl ⟨rfl, found⟩)⟩
  | succ k =>
    have last := (List.getElem?_eq_some_iff.mp found).1
    have before := List.getElem?_eq_getElem (l := s.occurrences) (i := k) (by omega)
    exact ⟨some _, memSteps.mpr (.inr ⟨k, _, rfl, before, found⟩)⟩

theorem boundForm {s : Spread} {lower : UInt32} {f : Formula}
    (listed : f ∈ s.lowerBound parent lower) :
    ∃ os, s = .clones os ∧
      f = .implies parent (.join (.atLeast lower) (os.map Occurrence.term)) := by
  cases s with
  | single => cases listed
  | clones os =>
    rw [lowerBound] at listed
    split at listed
    · exact ⟨os, rfl, List.mem_singleton.mp listed⟩
    · cases listed

theorem termTrue {s : Spread} (each : ∀ o ∈ s.occurrences, o.term.Valued a) :
    s.term.isTrue a = s.occurrences.any fun o => o.term.isTrue a := by
  cases s with
  | single o => simp [term, occurrences]
  | clones os =>
    have parts : ∀ f ∈ os.map Occurrence.term, f.Valued a := List.forall_mem_map.mpr each
    rw [term, orTrue parts, List.any_map]
    rfl

theorem termValued {s : Spread} (each : ∀ o ∈ s.occurrences, o.term.Valued a) :
    s.term.Valued a := by
  cases s with
  | single o => exact each o (by simp [occurrences])
  | clones os =>
    refine Formula.joinValued fun f inside => ?_
    obtain ⟨o, member, rfl⟩ := List.mem_map.mp inside
    exact each o member

end Spread

namespace Placed

theorem memRootConjuncts {f : Formula} : f ∈ p.rootConjuncts ↔
    p.node.mandatory = true ∧ f = (p.occurrence none none).term := by
  unfold rootConjuncts
  split <;> simp [*]

theorem occurrenceAt {k : Nat} {o : Occurrence} : (p.spread suffix).occurrences[k]? = some o ↔
    p.node.isRepeated = true ∧ k < p.node.cardinality.upper.toNat ∧
      o = p.occurrence (some (k + 1)) suffix ∨
    p.node.isRepeated = false ∧ k = 0 ∧ o = p.occurrence none suffix := by
  cases repeated : p.node.isRepeated with
  | true =>
    simp only [spread, repeated, if_true, Spread.occurrences, List.getElem?_map,
      Option.map_eq_some_iff, true_and, Bool.true_eq_false, false_and, or_false]
    constructor
    · intro h
      obtain ⟨i, found, same⟩ := h
      have inside := (List.getElem?_eq_some_iff.mp found).1
      rw [List.length_range] at inside
      rw [List.getElem?_range inside] at found
      cases found
      exact ⟨inside, same.symm⟩
    · intro h
      exact ⟨k, List.getElem?_range h.1, h.2.symm⟩
  | false =>
    simp [spread, repeated, Spread.occurrences, List.getElem?_singleton, eq_comm]

theorem spreadOccurrence {o : Occurrence} (inside : o ∈ (p.spread suffix).occurrences) :
    o = p.occurrence o.index suffix := by
  obtain ⟨k, position⟩ := List.mem_iff_getElem?.mp inside
  rcases occurrenceAt.mp position with ⟨-, -, rfl⟩ | ⟨-, -, rfl⟩
  · rfl
  · rfl

theorem cloneAt {k : Nat} (repeated : p.node.isRepeated = true)
    (short : k < p.node.cardinality.upper.toNat) :
    (p.spread suffix).occurrences[k]? = some (p.occurrence (some (k + 1)) suffix) :=
  occurrenceAt.mpr (.inl ⟨repeated, short, rfl⟩)

theorem cloneNumber {k i : Nat} {o : Occurrence}
    (found : (p.spread suffix).occurrences[k]? = some o) (index : o.index = some i) :
    i = k + 1 ∧ p.node.isRepeated = true ∧ k < p.node.cardinality.upper.toNat := by
  rcases occurrenceAt.mp found with ⟨repeated, short, rfl⟩ | ⟨-, -, rfl⟩
  · exact ⟨(Option.some.inj index).symm, repeated, short⟩
  · cases index

theorem someOccurrence (p : Placed) (suffix : Option String) :
    ∃ o, (p.spread suffix).occurrences[0]? = some o := by
  cases repeated : p.node.isRepeated with
  | true =>
    have positive := UInt32.le_iff_toNat_le.mp p.node.cardinality.positive
    have one : (1 : UInt32).toNat = 1 := rfl
    exact ⟨_, occurrenceAt.mpr (.inl ⟨repeated, by omega, rfl⟩)⟩
  | false => exact ⟨_, occurrenceAt.mpr (.inr ⟨repeated, rfl, rfl⟩)⟩

def conditions (p : Placed) (parent : Formula) (suffix : Option String) : List Formula :=
  (p.spread suffix).steps.flatMap (fun step => step.2.conditions parent step.1) ++
    (p.spread suffix).lowerBound parent p.node.cardinality.lower

structure Follows (a : Assignment) (p : Placed) (parent : Formula) (os : List Occurrence) :
    Prop where
  parents : ∀ o ∈ os, o.term.isTrue a = true → parent.isTrue a = true
  steps : ∀ k q o, os[k]? = some q → os[k + 1]? = some o → o.term.isTrue a = true →
    q.term.isTrue a = true
  least : parent.isTrue a = true → p.node.isRepeated = true →
    p.node.cardinality.lower.toNat ≤ os.countP fun o => o.term.isTrue a

theorem memConditions {previous : Option Occurrence} {o : Occurrence} {f : Formula} :
    f ∈ o.conditions parent previous ↔
      f = .implies o.term parent ∨ ∃ q, previous = some q ∧ f = .implies o.term q.term := by
  cases previous <;> simp [Occurrence.conditions]

theorem stepsExact {s : Spread} (each : ∀ o ∈ s.occurrences, o.term.Valued a) :
    (∀ f ∈ s.steps.flatMap fun step => step.2.conditions parent step.1, f.isTrue a = true) ↔
      (∀ o ∈ s.occurrences, o.term.isTrue a = true → parent.isTrue a = true) ∧
      ∀ k q o, s.occurrences[k]? = some q → s.occurrences[k + 1]? = some o →
        o.term.isTrue a = true → q.term.isTrue a = true := by
  simp only [List.mem_flatMap, forall_exists_index, and_imp]
  constructor
  · intro all
    constructor
    · intro o inside
      obtain ⟨previous, step⟩ := Spread.stepTo inside
      have needed := all _ _ step (memConditions.mpr (.inl rfl))
      exact (impliesTrue (each o inside)).mp needed
    · intro k q o before found
      have step : (some q, o) ∈ s.steps := Spread.memSteps.mpr (.inr ⟨k, q, rfl, before, found⟩)
      have needed := all _ _ step (memConditions.mpr (.inr ⟨q, rfl, rfl⟩))
      exact (impliesTrue (each o (List.mem_of_getElem? found))).mp needed
  · intro spec f step listed inside
    rcases Spread.memSteps.mp listed with ⟨none, first⟩ | ⟨k, q, same, before, found⟩
    · have member := List.mem_of_getElem? first
      rcases memConditions.mp inside with rfl | ⟨q, some, -⟩
      · exact (impliesTrue (each _ member)).mpr (spec.1 _ member)
      · cases none.symm.trans some
    · have member := List.mem_of_getElem? found
      rcases memConditions.mp inside with rfl | ⟨q', some, rfl⟩
      · exact (impliesTrue (each _ member)).mpr (spec.1 _ member)
      · cases same.symm.trans some
        exact (impliesTrue (each _ member)).mpr (spec.2 k q _ before found)

theorem boundExact (owner : parent.Valued a)
    (each : ∀ o ∈ (p.spread suffix).occurrences, o.term.Valued a) (lower : UInt32) :
    (∀ f ∈ (p.spread suffix).lowerBound parent lower, f.isTrue a = true) ↔
      (parent.isTrue a = true → p.node.isRepeated = true →
        lower.toNat ≤ (p.spread suffix).occurrences.countP fun o => o.term.isTrue a) := by
  cases repeated : p.node.isRepeated with
  | false => simp [spread, repeated, Spread.lowerBound]
  | true =>
    obtain ⟨os, clones, short⟩ : ∃ os, p.spread suffix = .clones os ∧ os.length < UInt32.size := by
      refine ⟨_, if_pos repeated, ?_⟩
      rw [List.length_map, List.length_range]
      exact p.node.cardinality.upper.toNat_lt
    rw [clones] at each ⊢
    have parts : ∀ f ∈ os.map Occurrence.term, f.Valued a := List.forall_mem_map.mpr each
    have few : (os.map Occurrence.term).length < UInt32.size := by simpa using short
    have count := Connective.tallyCount (a := a) few
    rw [List.countP_map] at count
    simp only [Spread.lowerBound, Spread.occurrences]
    split
    · simp only [List.mem_singleton, forall_eq]
      rw [impliesTrue owner, joinTrue parts, Connective.holds, decide_eq_true_iff,
        UInt32.le_iff_toNat_le, count]
      simp only [Function.comp_def, forall_const]
    · rename_i zero
      have none : lower.toNat = 0 := by
        rw [UInt32.lt_iff_toNat_lt] at zero
        simpa using zero
      simp [none]

theorem conditionsExact (owner : parent.Valued a)
    (each : ∀ o ∈ (p.spread suffix).occurrences, o.term.Valued a) :
    (∀ f ∈ p.conditions parent suffix, f.isTrue a = true) ↔
      p.Follows a parent (p.spread suffix).occurrences := by
  rw [conditions, List.forall_mem_append, stepsExact each, boundExact owner each]
  constructor
  · intro h
    exact ⟨h.1.1, h.1.2, h.2⟩
  · intro h
    exact ⟨⟨h.parents, h.steps⟩, h.least⟩

structure Beneath (m : FeatureModel) (a : Assignment) (p : Placed) (suffix : Option String)
    (below : List Placed) (shown : NodeId → Bool) : Prop where
  children : below.map (·.node.id) = p.node.children
  placed : ∀ q ∈ below, m.nodes[q.node.id.index]? = some q.node
  valued : ∀ q ∈ below, ∀ o ∈ (q.spread suffix).occurrences, o.term.Valued a
  seen : ∀ q ∈ below, shown q.node.id = (q.spread suffix).occurrences.any fun o => o.term.isTrue a

namespace Beneath
variable {m : FeatureModel} {below : List Placed} {shown : NodeId → Bool} {q : Placed} {i : Nat}

theorem listed (h : Beneath m a p suffix below shown) (inside : q ∈ below) :
    q.node.id ∈ p.node.children :=
  h.children ▸ List.mem_map.mpr ⟨q, inside, rfl⟩

theorem childOf (h : Beneath m a p suffix below shown) {c : NodeId} (listed : c ∈ p.node.children) :
    ∃ q ∈ below, q.node.id = c :=
  List.mem_map.mp (h.children ▸ listed)

theorem memberTrue (h : Beneath m a p suffix below shown) (inside : q ∈ below) :
    (q.member suffix).term.isTrue a = shown q.node.id := by
  rw [h.seen q inside]
  exact Spread.termTrue (h.valued q inside)

theorem memberIn (h : Beneath m a p suffix below shown) (inside : q ∈ below) :
    m.isIn i q.node.id = (q.member suffix).isIn i := by
  simp [FeatureModel.isIn, h.placed q inside, GroupMember.isIn, Placed.member]

theorem memberCount (h : Beneath m a p suffix below shown) :
    ((below.map (·.member suffix)).countP fun c => c.isIn i && c.term.isTrue a) =
      p.node.children.countP fun c => m.isIn i c && shown c := by
  rw [← h.children, List.countP_map, List.countP_map]
  refine List.countP_congr fun q inside => ?_
  simp only [Function.comp, h.memberTrue inside, h.memberIn inside]

theorem someMember (h : Beneath m a p suffix below shown) :
    (∃ c ∈ below.map (·.member suffix), c.isIn i = true) ↔
      ∃ c ∈ p.node.children, m.isIn i c = true := by
  constructor
  · intro some
    obtain ⟨c, inside, here⟩ := some
    obtain ⟨q, member, rfl⟩ := List.mem_map.mp inside
    exact ⟨q.node.id, h.listed member, (h.memberIn member).trans here⟩
  · intro some
    obtain ⟨c, listed, here⟩ := some
    obtain ⟨q, member, rfl⟩ := h.childOf listed
    exact ⟨_, List.mem_map.mpr ⟨q, member, rfl⟩, (h.memberIn member).symm.trans here⟩

theorem forcedMembers (h : Beneath m a p suffix below shown) :
    (∀ c ∈ below.map (·.member suffix), c.isForced p.node.groups.toList = true →
      c.term.isTrue a = true) ↔
    ∀ (c : NodeId) (child : Node), c ∈ p.node.children → m.nodes[c.index]? = some child →
      child.mandatory = true → p.node.groups[child.parentGroup.index]? = some .and →
      shown c = true := by
  constructor
  · intro all c child listed stored mandatory kind
    obtain ⟨q, inside, rfl⟩ := h.childOf listed
    cases Option.some.inj ((h.placed q inside).symm.trans stored)
    rw [← h.memberTrue inside]
    refine all _ (List.mem_map.mpr ⟨q, inside, rfl⟩) ?_
    simp_all [GroupMember.isForced, Placed.member]
  · intro forced c listed own
    obtain ⟨q, inside, rfl⟩ := List.mem_map.mp listed
    simp only [GroupMember.isForced, Placed.member, Bool.and_eq_true, beq_iff_eq] at own
    rw [h.memberTrue inside]
    exact forced _ _ (h.listed inside) (h.placed q inside) own.1 (by simpa using own.2)

theorem groupConjunctsExact (h : Beneath m a p suffix below shown) {term : Formula}
    (narrow : p.node.children.length < UInt32.size) (owner : term.Valued a) :
    (∀ f ∈ p.groupConjuncts term suffix below, f.isTrue a = true) ↔
      (term.isTrue a = true → m.Balanced p.node shown) := by
  have valued : ∀ c ∈ below.map (·.member suffix), c.term.Valued a := by
    intro c inside
    obtain ⟨q, member, rfl⟩ := List.mem_map.mp inside
    exact Spread.termValued (h.valued q member)
  have short : (below.map (·.member suffix)).length < UInt32.size := by
    rw [← h.children, List.length_map] at narrow
    rw [List.length_map]
    exact narrow
  rw [groupConjuncts, groupsExact owner valued short, h.forcedMembers]
  simp only [h.someMember, h.memberCount, Array.getElem?_toList]
  refine imp_congr_right fun _ => ?_
  constructor
  · intro balanced
    exact ⟨balanced.1, balanced.2⟩
  · intro balanced
    exact ⟨balanced.forced, balanced.groups⟩

end Beneath
end Placed

def Tree.conjuncts (t : Tree) (term : Formula) (suffix : Option String) : List Formula :=
  t.place.groupConjuncts term suffix (t.children.map place) ++
    t.children.flatMap fun c => c.place.conditions term suffix

theorem Tree.conjunctsExact {m : FeatureModel} {t : Tree} {term : Formula}
    (mirrors : Mirrors m t) (narrow : m.Narrow) (owner : term.Valued a)
    (each : ∀ c ∈ t.children, ∀ o ∈ (c.place.spread suffix).occurrences, o.term.Valued a)
    {shown : NodeId → Bool} (seen : ∀ c ∈ t.children, shown c.id =
      (c.place.spread suffix).occurrences.any fun o => o.term.isTrue a) :
    (∀ f ∈ t.conjuncts term suffix, f.isTrue a = true) ↔
      (term.isTrue a = true → m.Balanced t.place.node shown) ∧
      ∀ c ∈ t.children, c.place.Follows a term (c.place.spread suffix).occurrences := by
  have beneath : t.place.Beneath m a suffix (t.children.map place) shown := by
    refine ⟨?_, ?_, ?_, ?_⟩
    · rw [List.map_map]
      exact mirrors.children
    · exact List.forall_mem_map.mpr fun c child => (mirrors.deeper c child).stored
    · exact List.forall_mem_map.mpr each
    · exact List.forall_mem_map.mpr seen
  have few := narrow _ (Array.mem_of_getElem? mirrors.stored)
  rw [conjuncts, List.forall_mem_append]
  refine and_congr (beneath.groupConjunctsExact few owner) ?_
  simp only [List.mem_flatMap, forall_exists_index, and_imp]
  constructor
  · intro all c child
    exact (Placed.conditionsExact owner (each c child)).mp fun f inside => all f c child inside
  · intro spec f c child inside
    exact (Placed.conditionsExact owner (each c child)).mpr (spec c child) f inside

end Spreads
end ProductLine
