import ProductLine.Proofs.Model.Contexts

/-!
The buckets as a whole. Sorting a position in adds it once, so every position is sorted in once; the
keys are the sets of contexts, and a context is the nearest repeated node.
-/
namespace ProductLine

namespace Buckets
variable {b : Buckets} {all : List ContextSet} {c : ContextSet} {i : Nat}

def listed (b : Buckets) : List Nat := b.plain ++ b.byContexts.entries.flatMap Prod.snd

theorem placeListed {entries : List (ContextSet × List Nat)} :
    ((SortedMap.place c (·.getD [] ++ [i]) entries).flatMap Prod.snd).Perm
      (i :: entries.flatMap Prod.snd) := by
  induction entries with
  | nil => exact .refl _
  | cons entry rest ih =>
    obtain ⟨d, positions⟩ := entry
    rw [SortedMap.place]
    cases compare c d with
    | lt => exact .refl _
    | eq =>
      simp only [List.flatMap_cons, Option.getD_some, List.append_assoc]
      exact List.perm_middle
    | gt =>
      simp only [List.flatMap_cons]
      exact (ih.append_left positions).trans List.perm_middle

theorem addListed : (b.add c i).listed.Perm (i :: b.listed) := by
  have keyed : (b.plain ++ (SortedMap.place c (·.getD [] ++ [i]) b.byContexts.entries).flatMap
      Prod.snd).Perm (i :: b.listed) :=
    (placeListed.append_left b.plain).trans List.perm_middle
  unfold add
  cases c.scope with
  | plain =>
    simp only [listed, List.append_assoc]
    exact List.perm_middle
  | inside n => exact keyed
  | across => exact keyed

theorem listedOnce (all : List ContextSet) :
    (ofContexts all).listed.Perm (List.range all.length) := by
  induction all using List.reverseRecOn with
  | nil => exact .refl _
  | append_singleton all d ih =>
    rw [ofContextsSnoc, List.length_append, List.length_singleton, List.range_succ]
    exact (addListed.trans (ih.cons _)).trans (List.perm_append_singleton _ _).symm

theorem positionsSome (member : c ∈ all) : positions all c ≠ [] := by
  obtain ⟨i, found⟩ := List.mem_iff_getElem?.mp member
  exact List.ne_nil_of_mem (memPositions.mpr found)

structure Partition (b : Buckets) (m : FeatureModel) : Prop where
  once : b.listed.Perm (List.range m.constraints.size)
  plain : ∀ i k, m.constraint i = .ok k →
    (i ∈ b.plain ↔ ∀ f ∈ k.referenced, m.context f = .ok .root)
  keyed : ∀ i k s, m.constraint i = .ok k →
    ((∃ positions, (s, positions) ∈ b.byContexts.entries ∧ i ∈ positions) ↔
      (∀ own, own ∈ s ↔ ∃ f ∈ k.referenced, m.context f = .ok own) ∧
      ¬ ∀ f ∈ k.referenced, m.context f = .ok .root)
  plainIncreasing : b.plain.Pairwise (· < ·)
  increasing : ∀ s positions, (s, positions) ∈ b.byContexts.entries → positions.Pairwise (· < ·)
  nonempty : ∀ s positions, (s, positions) ∈ b.byContexts.entries → positions ≠ []
  concerned : ∀ s positions, (s, positions) ∈ b.byContexts.entries → s.scope ≠ .plain

end Buckets

structure FeatureModel.Nearest (m : FeatureModel) (c n : NodeId) : Prop where
  repeated : m.repeats c = true
  above : m.Within c n
  between : ∀ x, m.Above c x → m.Within x n → m.repeats x = false

namespace WellFormed
variable {m : FeatureModel}

theorem contextNearest (w : WellFormed m) (f : FeatureId) : ∃ own, m.context f = .ok own ∧
    ∀ c, own = .within c ↔ ∃ n, m.placement f = some n ∧ m.Nearest c n := by
  obtain ⟨own, answered, -, within⟩ := w.contextOk f
  refine ⟨own, answered, fun c => ?_⟩
  constructor
  · intro same
    obtain ⟨repeated, n, placed, above, lowest⟩ := w.contextWithin (same ▸ answered)
    refine ⟨n, placed, repeated, above, fun x below inside => Bool.eq_false_iff.mpr fun many => ?_⟩
    -- a repeated node at or above `n` is at or above `c`, so it is not below `c`
    exact w.notWithinAbove below (lowest x many inside)
  · intro h
    obtain ⟨n, placed, nearest⟩ := h
    obtain ⟨o, same, inside⟩ := (within c nearest.repeated).mp ⟨n, placed, nearest.above⟩
    obtain ⟨repeated, n', placed', above, -⟩ := w.contextWithin (same ▸ answered)
    cases placed.symm.trans placed'
    rcases Relation.reflTransGen_iff_eq_or_transGen.mp inside with rfl | below
    · exact same
    · rw [nearest.between o below above] at repeated
      cases repeated

theorem contextsExact (w : WellFormed m) {k : Constraint} {s : ContextSet} :
    m.contexts k = .ok s ↔ ∀ own, own ∈ s ↔ ∃ f ∈ k.referenced, m.context f = .ok own := by
  obtain ⟨s', answered, exact⟩ := w.contextsOk k
  rw [answered, Except.ok.injEq]
  constructor
  · intro same
    exact same ▸ exact
  · intro members
    exact SortedSet.ext fun own => (exact own).trans (members own).symm

theorem keyedPosition {all : List ContextSet} {i : Nat} {k : Constraint} {s : ContextSet}
    (each : m.constraints.toList.mapM m.contexts = .ok all)
    (there : m.constraints[i]? = some k) :
    (∃ positions, (s, positions) ∈ (Buckets.ofContexts all).byContexts.entries ∧ i ∈ positions) ↔
      m.contexts k = .ok s ∧ s.scope ≠ .plain := by
  have own : all[i]? = some s ↔ m.contexts k = .ok s := by
    simp [contextsAt each, there]
  simp only [Buckets.memBuckets]
  constructor
  · intro h
    obtain ⟨positions, ⟨concerned, -, rfl⟩, inside⟩ := h
    exact ⟨own.mp (Buckets.memPositions.mp inside), concerned⟩
  · intro h
    have found := own.mpr h.1
    exact ⟨_, ⟨h.2, List.mem_of_getElem? found, rfl⟩, Buckets.memPositions.mpr found⟩

theorem partition (w : WellFormed m) {b : Buckets} (buckets : m.buckets = .ok b) :
    b.Partition m := by
  obtain ⟨all, each, sorted⟩ := w.bucketsOk
  cases buckets.symm.trans sorted
  have size : all.length = m.constraints.size := by
    simpa using (mapMEqOk.mp each).length_eq.symm
  constructor
  case once => exact size ▸ Buckets.listedOnce all
  case plain =>
    intro i k there
    have stored := fetchEqOk.mp there
    simp [w.plainPosition buckets, stored]
  case keyed =>
    intro i k s there
    rw [keyedPosition each (fetchEqOk.mp there), ← w.contextsExact]
    exact and_congr_right fun answered => not_congr (w.contextsPlain answered)
  case plainIncreasing => exact Buckets.plainSorted
  case increasing =>
    intro s positions inside
    obtain ⟨-, -, rfl⟩ := Buckets.memBuckets.mp inside
    exact Buckets.positionsSorted all s
  case nonempty =>
    intro s positions inside
    obtain ⟨-, member, rfl⟩ := Buckets.memBuckets.mp inside
    exact Buckets.positionsSome member
  case concerned =>
    intro s positions inside
    exact (Buckets.memBuckets.mp inside).1

end WellFormed

theorem bucketsPartition {m : FeatureModel} (built : Built m) :
    (∃ b, m.buckets = .ok b ∧ b.Partition m) ∧
    ∀ f, ∃ own, m.context f = .ok own ∧
      ∀ c, own = .within c ↔ ∃ n, m.placement f = some n ∧ m.Nearest c n := by
  have w := built.wellFormed
  obtain ⟨all, -, sorted⟩ := w.bucketsOk
  exact ⟨⟨_, sorted, w.partition sorted⟩, w.contextNearest⟩

theorem Example.rackBuckets : Built rack ∧
    (∃ b, rack.buckets = .ok b ∧ b.Partition rack ∧ b.listed.Perm [0, 1]) ∧
    rack.Nearest ⟨1⟩ ⟨2⟩ := by
  obtain ⟨⟨b, sorted, partition⟩, nearest⟩ := bucketsPartition rackBuilt
  refine ⟨rackBuilt, ⟨b, sorted, partition, partition.once⟩, ?_⟩
  obtain ⟨own, answered, exact⟩ := nearest ⟨2⟩
  have context : rack.context ⟨2⟩ = .ok (.within ⟨1⟩) := rfl
  cases context.symm.trans answered
  obtain ⟨n, placed, near⟩ := (exact ⟨1⟩).mp rfl
  have place : rack.placement ⟨2⟩ = some ⟨2⟩ := rfl
  cases place.symm.trans placed
  exact near

end ProductLine
