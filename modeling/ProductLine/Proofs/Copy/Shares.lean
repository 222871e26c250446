import ProductLine.Proofs.Copy.Occasions
import ProductLine.Proofs.Model.Constraining

/-!
Copies constraint by constraint. Constraints are copied bucket by bucket and clone by clone, each
beside the others of its bucket; yet all copies together are those that each constraint has by
itself, in another order.
-/
namespace ProductLine

section Lists
variable {α β γ : Type} {R : α → β → Prop} {xs : List α} {ys : List β}

theorem forall₂Numbered (h : List.Forall₂ R xs ys) :
    List.Forall₂ (fun x e => R x e.1 ∧ xs[e.2]? = some x) xs ys.zipIdx := by
  rw [List.forall₂_iff_get] at h ⊢
  obtain ⟨length, each⟩ := h
  refine ⟨by simpa using length, fun i here there => ?_⟩
  simp only [List.get_eq_getElem, List.getElem_zipIdx, Nat.zero_add, List.getElem?_eq_getElem here,
    and_true]
  exact each i here (by simpa using there)

theorem filterParts {keep : α → Prop} [DecidablePred keep] {g : α → β} :
    (xs.filter fun x => keep x).map g = xs.flatMap fun x => if keep x then [g x] else [] := by
  induction xs with
  | nil => rfl
  | cons x xs ih =>
    by_cases kept : keep x <;> simp [kept, ih]

theorem flatMapsEqual {f : α → List γ} {g : β → List γ}
    (h : List.Forall₂ (fun x y => f x = g y) xs ys) : xs.flatMap f = ys.flatMap g := by
  rw [List.flatMap_def, List.flatMap_def, mapsEqual.mpr h]

end Lists

namespace Occasion
variable {r : Roster} {contexts : ContextSet} {positions : List Nat} {o : Occasion}
  {all : List ContextSet}

theorem inBucketAt : o ∈ ofBucket r contexts positions ↔
    o ∈ ofBucket r contexts [o.position] ∧ o.position ∈ positions := by
  cases o with
  | perClone i c clone => simp [cloneInBucket, position, and_assoc]
  | whole i => simp [wholeInBucket, position]

theorem bucketConcerned (inside : o ∈ ofBucket r contexts positions) : contexts.scope ≠ .plain := by
  cases o with
  | perClone i c clone => exact ContextSet.scopeOfNode (cloneInBucket.mp inside).1
  | whole i => simp [(wholeInBucket.mp inside).1]

theorem ofBucketsPerm (sound : r.Sound) : (ofBuckets r (.ofContexts all)).Perm
    (all.zipIdx.flatMap fun e => ofBucket r e.1 [e.2]) := by
  have once : (all.zipIdx.flatMap fun e => ofBucket r e.1 [e.2]).Nodup := by
    rw [List.nodup_flatMap]
    refine ⟨fun e _ => ofBucketNodup sound (List.nodup_singleton _), ?_⟩
    have numbers : (all.zipIdx.map Prod.snd).Nodup := by
      rw [List.zipIdx_map_snd]
      exact List.nodup_range'
    refine (List.pairwise_map.mp numbers).imp fun {e e'} apart => ?_
    intro o first second
    have here := List.mem_singleton.mp (positionInBucket first)
    have there := List.mem_singleton.mp (positionInBucket second)
    exact apart (here.symm.trans there)
  rw [List.perm_ext_iff_of_nodup (ofBucketsNodup sound) once]
  intro o
  simp only [inBuckets, List.mem_flatMap, Prod.exists, List.mk_mem_zipIdx_iff_getElem?]
  constructor
  · intro h
    obtain ⟨s, -, -, inside⟩ := h
    obtain ⟨own, position⟩ := inBucketAt.mp inside
    exact ⟨s, o.position, Buckets.memPositions.mp position, own⟩
  · intro h
    obtain ⟨s, i, there, own⟩ := h
    cases List.mem_singleton.mp (positionInBucket own)
    exact ⟨s, bucketConcerned own, List.mem_of_getElem? there,
      inBucketAt.mpr ⟨own, Buckets.memPositions.mpr there⟩⟩

end Occasion

namespace CopySource

def shares (s : CopySource) (k : Constraint) : List (Except Failure Formula) :=
  match s.model.contexts k with
  | .error failure => [.error failure]
  | .ok contexts =>
    if contexts.scope = .plain then [.ok k.formula]
    else (contexts.nodes.flatMap fun c => (s.roster.ofNode c).map fun clone =>
      s.guarded c clone k) ++ if contexts.scope = .across then [s.unguarded k] else []

section Shares
variable {m : FeatureModel} {trees : List Tree} {r : Roster} {policy : MissingPolicy}
  {ks : List Constraint} {k : Constraint} {s : ContextSet} {b : Buckets} {c : NodeId}
  {clone : InstanceId}

theorem shareOfClone (answered : m.contexts k = .ok s) (node : .within c ∈ s)
    (instant : clone ∈ r.ofNode c) :
    (CopySource.mk m r policy).guarded c clone k ∈ (CopySource.mk m r policy).shares k := by
  simp only [shares, answered]
  rw [if_neg (ContextSet.scopeOfNode node)]
  refine List.mem_append_left _ (List.mem_flatMap.mpr ⟨c, ContextSet.memNodes.mpr node, ?_⟩)
  exact List.mem_map.mpr ⟨clone, instant, rfl⟩

theorem shareOfWhole (answered : m.contexts k = .ok s) (across : s.scope = .across) :
    (CopySource.mk m r policy).unguarded k ∈ (CopySource.mk m r policy).shares k := by
  simp [shares, answered, across]

theorem sharesAt {i : Nat} (there : ks[i]? = some k) (answered : m.contexts k = .ok s) :
    (if s.scope = .plain then [i] else []).map
        (fun i => Constraint.formula <$> (m.holding ks).constraint i) ++
      (Occasion.ofBucket r s [i]).map (CopySource.mk (m.holding ks) r policy).copyFor =
    (CopySource.mk m r policy).shares k := by
  have fetched : (m.holding ks).constraint i = .ok k :=
    fetchEqOk.mpr (FeatureModel.holdingAt.trans there)
  have forClone := copyForClone (s := CopySource.mk (m.holding ks) r policy) fetched
  have forWhole := copyForWhole (s := CopySource.mk (m.holding ks) r policy) fetched
  simp only [shares, answered]
  by_cases plain : s.scope = .plain
  · have none : s.nodes = [] := by
      refine List.eq_nil_iff_forall_not_mem.mpr fun n node => ?_
      exact ContextSet.scopePlain.mp plain n (ContextSet.memNodes.mp node)
    simp [plain, none, Occasion.ofBucket, fetched, Functor.map, Except.map]
  · rw [if_neg plain, if_neg plain, List.map_nil, List.nil_append]
    simp only [Occasion.ofBucket, List.map_append, List.map_flatMap, List.map_cons, List.map_nil,
      forClone, FeatureModel.guardedHolding]
    congr 1
    · simp only [List.map_eq_flatMap]
    · split
      · simp [forWhole, FeatureModel.unguardedHolding]
      · rfl

theorem sharesTogether (w : WellFormed (m.holding ks)) (sound : r.Sound)
    (buckets : (m.holding ks).buckets = .ok b) {plain copies : List Formula}
    (read : b.plain.mapM (fun i => Constraint.formula <$> (m.holding ks).constraint i) = .ok plain)
    (copied : (CopySource.mk (m.holding ks) r policy).copies b = .ok copies) :
    ((plain ++ copies).map Except.ok).Perm (ks.flatMap (CopySource.mk m r policy).shares) := by
  obtain ⟨all, each, sorted⟩ := w.bucketsOk
  cases buckets.symm.trans sorted
  rw [FeatureModel.holdingConstraints, FeatureModel.contextsHolding, mapMEqOk] at each
  rw [mapMEqOk, Buckets.plainOf, filterParts] at read
  have plainParts := mapsEqual.mpr read
  have copyParts := mapsEqual.mpr (copiesEach copied)
  rw [List.map_append, ← plainParts, ← copyParts, List.map_flatMap]
  refine (((Occasion.ofBucketsPerm sound).map _).append_left _).trans ?_
  rw [List.map_flatMap]
  refine (List.flatMap_append_perm _ _ _).trans (.of_eq ?_)
  refine (flatMapsEqual ((forall₂Numbered each).imp fun k e h => ?_)).symm
  exact (sharesAt h.2 h.1).symm

theorem sharesSuffice (h : Rostered (m.holding ks) trees r)
    (buckets : (m.holding ks).buckets = .ok b)
    (each : ∀ k ∈ ks, ∀ share ∈ (CopySource.mk m r policy).shares k, ∃ f, share = .ok f) :
    ∃ copies, (CopySource.mk (m.holding ks) r policy).copies b = .ok copies := by
  refine avoidsAll.mp (copiesAvoids h buckets fun o due => avoidsAll.mpr ?_)
  cases o with
  | perClone i c clone =>
    obtain ⟨k, s, there, answered, node, -, instant⟩ := h.cloneDue due
    rw [copyForClone (fetchEqOk.mpr there), FeatureModel.guardedHolding]
    rw [FeatureModel.contextsHolding] at answered
    rw [FeatureModel.holdingAt] at there
    exact each k (List.mem_of_getElem? there) _ (shareOfClone answered node instant)
  | whole i =>
    obtain ⟨k, s, there, answered, across⟩ := due
    rw [copyForWhole (fetchEqOk.mpr there), FeatureModel.unguardedHolding]
    rw [FeatureModel.contextsHolding] at answered
    rw [FeatureModel.holdingAt] at there
    exact each k (List.mem_of_getElem? there) _ (shareOfWhole answered across)

end Shares
end CopySource
end ProductLine
