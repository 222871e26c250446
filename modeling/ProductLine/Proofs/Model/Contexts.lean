import Mathlib.Data.List.Induction
import Mathlib.Data.List.Nodup
import ProductLine.Proofs.Model.Ancestry

/-!
Contexts of features and constraints in a well-formed model, and the buckets that they are sorted
into: each set of contexts that concerns a repeated node holds the positions where it occurs.
-/
namespace ProductLine

namespace Buckets

def positions (all : List ContextSet) (c : ContextSet) : List Nat :=
  (all.zipIdx.filter fun e => e.1 = c).map Prod.snd

variable {all : List ContextSet} {c d : ContextSet}

theorem memPositions {i : Nat} : i ∈ positions all c ↔ all[i]? = some c := by
  simp only [positions, List.mem_map, List.mem_filter, decide_eq_true_eq, Prod.exists,
    List.mk_mem_zipIdx_iff_getElem?]
  constructor
  · intro h
    obtain ⟨_, _, ⟨found, rfl⟩, rfl⟩ := h
    exact found
  · intro found
    exact ⟨c, i, ⟨found, rfl⟩, rfl⟩

theorem positionsSnoc : positions (all ++ [d]) c =
    positions all c ++ if d = c then [all.length] else [] := by
  rw [positions, List.zipIdx_append, List.filter_append, List.map_append]
  by_cases same : d = c <;> simp [positions, same]

theorem selectedSorted {p : ContextSet × Nat → Bool} :
    ((all.zipIdx.filter p).map Prod.snd).Pairwise (· < ·) := by
  have numbers : (all.zipIdx.map Prod.snd).Pairwise (· < ·) := by
    rw [List.zipIdx_map_snd]
    exact List.pairwise_lt_range'
  exact numbers.sublist (List.filter_sublist.map _)

theorem positionsSorted (all : List ContextSet) (c : ContextSet) :
    (positions all c).Pairwise (· < ·) := selectedSorted

theorem ofContextsSnoc : ofContexts (all ++ [d]) = (ofContexts all).add d all.length := by
  simp [ofContexts, List.zipIdx_append]

theorem addBucket {b : Buckets} {i : Nat} : (b.add d i).byContexts.get? c =
    if d.scope ≠ .plain ∧ c = d then some ((b.byContexts.get? d).getD [] ++ [i])
    else b.byContexts.get? c := by
  unfold add
  cases d.scope with
  | plain => simp
  | inside n => simp [SortedMap.getUpdate]
  | across => simp [SortedMap.getUpdate]

theorem bucketOf : (ofContexts all).byContexts.get? c =
    if c.scope ≠ .plain ∧ c ∈ all then some (positions all c) else none := by
  induction all using List.reverseRecOn with
  | nil => simp [ofContexts]
  | append_singleton all d ih =>
    rw [ofContextsSnoc, addBucket, positionsSnoc]
    by_cases same : d = c
    · subst same
      by_cases plain : d.scope = .plain
      · simp [plain, ih]
      · by_cases seen : d ∈ all
        · simp [plain, seen, ih]
        · have none : positions all d = [] := by
            refine List.eq_nil_iff_forall_not_mem.mpr fun i inside => seen ?_
            exact List.mem_of_getElem? (memPositions.mp inside)
          simp [plain, seen, ih, none]
    · simp [same, Ne.symm same, ih]

theorem plainOf : (ofContexts all).plain =
    (all.zipIdx.filter fun e => e.1.scope = .plain).map Prod.snd := by
  induction all using List.reverseRecOn with
  | nil => rfl
  | append_singleton all d ih =>
    rw [ofContextsSnoc, List.zipIdx_append, List.filter_append, List.map_append, ← ih, add]
    cases scope : d.scope <;> simp [scope]

theorem memPlain {i : Nat} : i ∈ (ofContexts all).plain ↔
    ∃ s, all[i]? = some s ∧ s.scope = .plain := by
  simp only [plainOf, List.mem_map, List.mem_filter, decide_eq_true_eq, Prod.exists,
    List.mk_mem_zipIdx_iff_getElem?, exists_eq_right]

theorem plainSorted : (ofContexts all).plain.Pairwise (· < ·) := plainOf ▸ selectedSorted

theorem plainNodup : (ofContexts all).plain.Nodup := plainSorted.imp Nat.ne_of_lt

theorem memBuckets {ps : List Nat} : (c, ps) ∈ (ofContexts all).byContexts.entries ↔
    c.scope ≠ .plain ∧ c ∈ all ∧ ps = positions all c := by
  rw [← SortedMap.getEqSome, bucketOf]
  constructor
  · intro h
    split at h
    · rename_i there
      exact ⟨there.1, there.2, (Option.some.inj h).symm⟩
    · cases h
  · intro h
    rw [if_pos ⟨h.1, h.2.1⟩, h.2.2]

end Buckets

theorem ContextSet.memNodes {c : ContextSet} {n : NodeId} :
    n ∈ c.nodes ↔ .within n ∈ c := by
  simp only [nodes, List.mem_filterMap]
  constructor
  · intro h
    obtain ⟨x, inside, node⟩ := h
    cases x with
    | root => cases node
    | within o =>
      cases node
      exact inside
  · intro h
    exact ⟨_, h, rfl⟩

theorem ContextSet.nodesNodup (c : ContextSet) : c.nodes.Nodup := by
  refine c.nodup.filterMap fun x y n first second => ?_
  cases x with
  | root => cases first
  | within o =>
    cases y with
    | root => cases second
    | within o' =>
      cases first
      cases second
      rfl

theorem ContextSet.scopeOfNode {c : ContextSet} {n : NodeId} (inside : .within n ∈ c) :
    c.scope ≠ .plain := by
  have node := memNodes.mpr inside
  unfold scope
  cases nodes : c.nodes with
  | nil => simp [nodes] at node
  | cons o rest => simp only; split <;> simp

theorem ContextSet.scopePlain {c : ContextSet} : c.scope = .plain ↔ ∀ n, .within n ∉ c := by
  constructor
  · intro plain n inside
    exact scopeOfNode inside plain
  · intro absent
    have none : c.nodes = [] := List.eq_nil_iff_forall_not_mem.mpr fun n node =>
      absent n (memNodes.mp node)
    rw [scope, none]

theorem ContextSet.scopeInside {c : ContextSet} {n : NodeId} (inside : c.scope = .inside n) :
    c.toList = [.within n] := by
  unfold scope at inside
  split at inside
  · cases inside
  · rename_i first rest nodes
    split at inside
    · rename_i one
      cases inside
      obtain ⟨own, alone⟩ := List.length_eq_one_iff.mp one
      have member : .within n ∈ c.toList := memNodes.mp (nodes ▸ List.mem_cons_self)
      rw [alone, List.mem_singleton] at member
      rw [alone, member]
    · cases inside

namespace WellFormed
variable {m : FeatureModel} {f : FeatureId}

theorem placementNode (w : WellFormed m) {n : NodeId} (placed : m.placement f = some n) :
    ∃ node, m.nodes[n.index]? = some node ∧ node.feature = f := by
  have first := (w.placed f n).mp placed
  exact Option.map_eq_some_iff.mp first.1

theorem contextOk (w : WellFormed m) (f : FeatureId) : ∃ own, m.context f = .ok own ∧
    (∀ c, own = .within c → m.repeats c = true) ∧
    ∀ c, m.repeats c = true → ((∃ n, m.placement f = some n ∧ m.Within c n) ↔
      ∃ o, own = .within o ∧ m.Within c o) := by
  unfold FeatureModel.context
  cases placed : m.placement f with
  | none => exact ⟨.root, rfl, by simp, by simp⟩
  | some n =>
    obtain ⟨node, found, -⟩ := w.placementNode placed
    obtain ⟨own, answered, lowest, others⟩ := w.repeatedAtOk found
    refine ⟨.ofNode? own, mapEqOk.mpr ⟨own, answered, rfl⟩, fun c same => ?_, fun c repeated => ?_⟩
    · cases own with
      | none => cases same
      | some o =>
        cases same
        exact (lowest _ rfl).1
    · have within := others c repeated
      cases own with
      | none => simpa [Context.ofNode?] using within
      | some o => simpa [Context.ofNode?] using within

theorem contextWithin (w : WellFormed m) {c : NodeId} (own : m.context f = .ok (.within c)) :
    m.repeats c = true ∧ ∃ n, m.placement f = some n ∧ m.Within c n ∧
      ∀ x, m.repeats x = true → m.Within x n → m.Within x c := by
  obtain ⟨own', answered, repeats, within⟩ := w.contextOk f
  cases own.symm.trans answered
  have repeated := repeats c rfl
  obtain ⟨n, placed, below⟩ := (within c repeated).mpr ⟨c, rfl, .refl⟩
  refine ⟨repeated, n, placed, below, fun x many above => ?_⟩
  obtain ⟨o, same, top⟩ := (within x many).mp ⟨n, placed, above⟩
  cases same
  exact top

theorem contextRoot (w : WellFormed m) {n c : NodeId} (own : m.context f = .ok .root)
    (placed : m.placement f = some n) (above : m.Within c n) : m.repeats c = false := by
  obtain ⟨own', answered, -, within⟩ := w.contextOk f
  cases own.symm.trans answered
  cases repeated : m.repeats c with
  | false => rfl
  | true =>
    obtain ⟨o, same, -⟩ := (within c repeated).mp ⟨n, placed, above⟩
    cases same

theorem contextShared (w : WellFormed m) {n c : NodeId} (placed : m.placement f = some n)
    (repeated : m.repeats c = true) (within : m.Within c n) :
    ∃ o, m.context f = .ok (.within o) := by
  obtain ⟨own, answered, -⟩ := w.contextOk f
  cases own with
  | root =>
    rw [w.contextRoot answered placed within] at repeated
    cases repeated
  | within o => exact ⟨o, answered⟩

theorem contextsOk (w : WellFormed m) (c : Constraint) : ∃ s, m.contexts c = .ok s ∧
    ∀ own, own ∈ s ↔ ∃ f ∈ c.referenced, m.context f = .ok own := by
  have answers : ∀ f ∈ c.referenced, ∃ own, m.context f = .ok own := by
    intro f _
    obtain ⟨own, answered, -⟩ := w.contextOk f
    exact ⟨own, answered⟩
  obtain ⟨all, each⟩ := mapMExists answers
  refine ⟨.ofList all, mapEqOk.mpr ⟨all, each, rfl⟩, fun own => ?_⟩
  rw [SortedSet.memOfList]
  rw [mapMEqOk] at each
  constructor
  · intro inside
    exact forall₂Right each inside
  · intro h
    obtain ⟨f, inside, answered⟩ := h
    obtain ⟨own', listed, answered'⟩ := forall₂Left each inside
    cases answered.symm.trans answered'
    exact listed

theorem contextsPlain (w : WellFormed m) {k : Constraint} {s : ContextSet}
    (answered : m.contexts k = .ok s) :
    s.scope = .plain ↔ ∀ f ∈ k.referenced, m.context f = .ok .root := by
  obtain ⟨s', answered', exact⟩ := w.contextsOk k
  cases answered.symm.trans answered'
  rw [ContextSet.scopePlain]
  constructor
  · intro absent f referenced
    obtain ⟨own, context, -⟩ := w.contextOk f
    cases own with
    | root => exact context
    | within n => exact absurd ((exact _).mpr ⟨f, referenced, context⟩) (absent n)
  · intro root n inside
    obtain ⟨f, referenced, context⟩ := (exact _).mp inside
    cases context.symm.trans (root f referenced)

theorem contextsRepeat (w : WellFormed m) {k : Constraint} {s : ContextSet} {c : NodeId}
    (answered : m.contexts k = .ok s) (inside : .within c ∈ s) : m.repeats c = true := by
  obtain ⟨s', answered', exact⟩ := w.contextsOk k
  cases answered.symm.trans answered'
  obtain ⟨f, -, context⟩ := (exact _).mp inside
  obtain ⟨own, context', repeats, -⟩ := w.contextOk f
  cases context.symm.trans context'
  exact repeats c rfl

theorem bucketsOk (w : WellFormed m) : ∃ all, m.constraints.toList.mapM m.contexts = .ok all ∧
    m.buckets = .ok (.ofContexts all) := by
  have answers : ∀ c ∈ m.constraints.toList, ∃ s, m.contexts c = .ok s := by
    intro c _
    obtain ⟨s, answered, -⟩ := w.contextsOk c
    exact ⟨s, answered⟩
  obtain ⟨all, each⟩ := mapMExists answers
  exact ⟨all, each, mapEqOk.mpr ⟨all, each, rfl⟩⟩

theorem contextsAt {all : List ContextSet} {s : ContextSet} {i : Nat}
    (each : m.constraints.toList.mapM m.contexts = .ok all) :
    all[i]? = some s ↔ ∃ k, m.constraints[i]? = some k ∧ m.contexts k = .ok s := by
  simpa using mapMAt each (i := i)

theorem plainPosition (w : WellFormed m) {b : Buckets} (buckets : m.buckets = .ok b) {i : Nat} :
    i ∈ b.plain ↔ ∃ k, m.constraints[i]? = some k ∧
      ∀ f ∈ k.referenced, m.context f = .ok .root := by
  obtain ⟨all, each, sorted⟩ := w.bucketsOk
  cases buckets.symm.trans sorted
  simp only [Buckets.memPlain, contextsAt each]
  constructor
  · intro h
    obtain ⟨s, ⟨k, there, answered⟩, plain⟩ := h
    exact ⟨k, there, (w.contextsPlain answered).mp plain⟩
  · intro h
    obtain ⟨k, there, root⟩ := h
    obtain ⟨s, answered, -⟩ := w.contextsOk k
    exact ⟨s, ⟨k, there, answered⟩, (w.contextsPlain answered).mpr root⟩

end WellFormed
end ProductLine
