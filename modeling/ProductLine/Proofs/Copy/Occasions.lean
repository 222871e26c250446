import ProductLine.Proofs.Copy.Meaning
import ProductLine.Proofs.Encoding.Unrolled

/-!
The copies together. Each constraint that concerns repeated nodes is copied once for every clone of
its contexts, and once more for the model as a whole if it reaches across contexts; all copies hold
just when every constraint does on each of these occasions.
-/
namespace ProductLine

def Roster.ofFeature (r : Roster) (f : FeatureId) : List InstanceId := r.those (·.feature == f)

open Classical in
noncomputable def FeatureModel.seenFrom (m : FeatureModel) (r : Roster) (repeated : NodeId)
    (clone : InstanceId) (f : FeatureId) : List InstanceId :=
  if ∃ n, m.placement f = some n ∧ m.Within repeated n then
    (r.ofFeature f).filter fun j => r.Within clone j
  else r.ofFeature f

inductive Occasion where
  | perClone (position : Nat) (repeated : NodeId) (clone : InstanceId)
  | whole (position : Nat)
  deriving DecidableEq, Repr

namespace Occasion

def position : Occasion → Nat
  | perClone i _ _ | whole i => i

def Due (m : FeatureModel) (r : Roster) : Occasion → Prop
  | perClone i c clone => ∃ k s x, m.constraints[i]? = some k ∧ m.contexts k = .ok s ∧
      .within c ∈ s ∧ r.instances[clone.index]? = some x ∧ x.node = c
  | whole i => ∃ k s, m.constraints[i]? = some k ∧ m.contexts k = .ok s ∧ s.scope = .across

def Upheld (m : FeatureModel) (r : Roster) (a : Assignment) : Occasion → Prop
  | perClone i c clone => r.selects a clone = true → ∀ k, m.constraints[i]? = some k →
      (m.view r (m.seenFrom r c clone) k).reads a k.formula = some true
  | whole i => ∀ k, m.constraints[i]? = some k →
      (m.view r r.ofFeature k).reads a k.formula = some true

def ofBucket (r : Roster) (contexts : ContextSet) (positions : List Nat) : List Occasion :=
  (contexts.nodes.flatMap fun c => (r.ofNode c).flatMap fun clone =>
    positions.map fun i => perClone i c clone) ++
  if contexts.scope = .across then positions.map whole else []

def ofBuckets (r : Roster) (b : Buckets) : List Occasion :=
  b.byContexts.entries.flatMap fun entry => ofBucket r entry.1 entry.2

end Occasion

namespace CopySource

def copyFor (s : CopySource) : Occasion → Except Failure Formula
  | .perClone i c clone => do s.guarded c clone (← s.model.constraint i)
  | .whole i => do s.unguarded (← s.model.constraint i)

section Listing
variable {s : CopySource} {contexts : ContextSet} {positions : List Nat} {ks : List Constraint}
  {out : List Formula}

theorem forNodeEach (found : positions.mapM s.model.constraint = .ok ks) {c : NodeId}
    (done : s.forNode ks c = .ok out) :
    List.Forall₂ (fun o f => s.copyFor o = .ok f) ((s.roster.ofNode c).flatMap fun clone =>
      positions.map fun i => .perClone i c clone) out := by
  obtain ⟨perClone, each, rfl⟩ := mapEqOk.mp done
  rw [mapMEqOk] at found each
  refine forall₂Flatten (each.imp fun clone fs copied => ?_)
  rw [mapMEqOk] at copied
  rw [List.forall₂_map_left_iff]
  exact (forall₂Through found copied).imp fun i f h => bindEqOk.mpr h

theorem forBucketEach (done : s.forBucket contexts positions = .ok out) :
    List.Forall₂ (fun o f => s.copyFor o = .ok f)
      (Occasion.ofBucket s.roster contexts positions) out := by
  obtain ⟨ks, found, rest⟩ := bindEqOk.mp done
  obtain ⟨perNode, each, last⟩ := bindEqOk.mp rest
  have clones : List.Forall₂ (fun o f => s.copyFor o = .ok f)
      (contexts.nodes.flatMap fun c => (s.roster.ofNode c).flatMap fun clone =>
        positions.map fun i => .perClone i c clone) perNode.flatten := by
    rw [mapMEqOk] at each
    exact forall₂Flatten (each.imp fun c fs made => forNodeEach found made)
  unfold Occasion.ofBucket
  cases scope : contexts.scope with
  | across =>
    rw [scope] at last
    obtain ⟨whole, copied, last⟩ := bindEqOk.mp last
    cases pureEqOk.mp last
    rw [if_pos rfl]
    refine List.rel_append clones ?_
    rw [mapMEqOk] at found copied
    rw [List.forall₂_map_left_iff]
    exact (forall₂Through found copied).imp fun i f h => bindEqOk.mpr h
  | plain =>
    rw [scope] at last
    cases pureEqOk.mp last
    rw [if_neg (by simp), List.append_nil]
    exact clones
  | inside n =>
    rw [scope] at last
    cases pureEqOk.mp last
    rw [if_neg (by simp), List.append_nil]
    exact clones

theorem copiesEach {b : Buckets} (done : s.copies b = .ok out) :
    List.Forall₂ (fun o f => s.copyFor o = .ok f) (Occasion.ofBuckets s.roster b) out := by
  obtain ⟨perBucket, each, rfl⟩ := mapEqOk.mp done
  rw [mapMEqOk] at each
  exact forall₂Flatten (each.imp fun entry fs made => forBucketEach made)

end Listing
end CopySource

namespace Occasion

section Buckets
variable {r : Roster} {contexts : ContextSet} {positions : List Nat} {o : Occasion}
  {all : List ContextSet}

theorem cloneInBucket {i : Nat} {c : NodeId} {clone : InstanceId} :
    perClone i c clone ∈ ofBucket r contexts positions ↔
      .within c ∈ contexts ∧ clone ∈ r.ofNode c ∧ i ∈ positions := by
  have other : perClone i c clone ∉
      if contexts.scope = .across then positions.map whole else [] := by
    split <;> simp
  simp only [ofBucket, List.mem_append, other, or_false, List.mem_flatMap, List.mem_map,
    perClone.injEq, ContextSet.memNodes]
  constructor
  · intro h
    obtain ⟨c', node, clone', instant, i', listed, rfl, rfl, rfl⟩ := h
    exact ⟨node, instant, listed⟩
  · intro h
    exact ⟨c, h.1, clone, h.2.1, i, h.2.2, rfl, rfl, rfl⟩

theorem wholeInBucket {i : Nat} :
    whole i ∈ ofBucket r contexts positions ↔ contexts.scope = .across ∧ i ∈ positions := by
  by_cases across : contexts.scope = .across <;> simp [ofBucket, across]

theorem positionInBucket (inside : o ∈ ofBucket r contexts positions) : o.position ∈ positions := by
  cases o with
  | perClone i c clone => exact (cloneInBucket.mp inside).2.2
  | whole i => exact (wholeInBucket.mp inside).2

theorem ofBucketNodup (sound : r.Sound) (once : positions.Nodup) :
    (ofBucket r contexts positions).Nodup := by
  have clones : (contexts.nodes.flatMap fun c => (r.ofNode c).flatMap fun clone =>
      positions.map fun i => perClone i c clone).Nodup := by
    rw [List.nodup_flatMap]
    constructor
    · intro c _
      rw [List.nodup_flatMap]
      constructor
      · intro clone _
        exact once.map fun i j same => (perClone.inj same).1
      · have distinct := sound.ofNodeNodup c
        refine distinct.imp fun {clone clone'} apart => ?_
        intro o first second
        obtain ⟨i, -, rfl⟩ := List.mem_map.mp first
        obtain ⟨j, -, same⟩ := List.mem_map.mp second
        exact apart (perClone.inj same).2.2.symm
    · have distinct : contexts.nodes.Nodup := contexts.nodesNodup
      refine distinct.imp fun {c c'} apart => ?_
      intro o first second
      simp only [List.mem_flatMap, List.mem_map] at first second
      obtain ⟨clone, -, i, -, rfl⟩ := first
      obtain ⟨clone', -, j, -, same⟩ := second
      exact apart (perClone.inj same).2.1.symm
  have wholes : (if contexts.scope = .across then positions.map whole else []).Nodup := by
    split
    · exact once.map fun i j same => whole.inj same
    · exact .nil
  refine clones.append wholes ?_
  rw [List.disjoint_left]
  intro o first second
  simp only [List.mem_flatMap, List.mem_map] at first
  obtain ⟨c, -, clone, -, i, -, rfl⟩ := first
  split at second
  · simp at second
  · cases second

theorem ofBucketsNodup (sound : r.Sound) : (ofBuckets r (.ofContexts all)).Nodup := by
  rw [ofBuckets, List.nodup_flatMap]
  constructor
  · intro entry inside
    obtain ⟨contexts, positions⟩ := entry
    obtain ⟨-, -, rfl⟩ := Buckets.memBuckets.mp inside
    exact ofBucketNodup sound ((Buckets.positionsSorted all contexts).imp Nat.ne_of_lt)
  · refine List.Pairwise.imp_of_mem (fun {e e'} inside inside' before => ?_)
      (Buckets.ofContexts all).byContexts.sorted
    intro o first second
    have here := positionInBucket first
    have there := positionInBucket second
    rw [(Buckets.memBuckets.mp inside).2.2, Buckets.memPositions] at here
    rw [(Buckets.memBuckets.mp inside').2.2, Buckets.memPositions] at there
    exact SortedMap.notBelow before (Option.some.inj (here.symm.trans there))

theorem inBuckets : o ∈ ofBuckets r (.ofContexts all) ↔
    ∃ s, s.scope ≠ .plain ∧ s ∈ all ∧ o ∈ ofBucket r s (Buckets.positions all s) := by
  simp only [ofBuckets, List.mem_flatMap, Prod.exists, Buckets.memBuckets]
  constructor
  · intro h
    obtain ⟨s, positions, ⟨scope, listed, rfl⟩, inside⟩ := h
    exact ⟨s, scope, listed, inside⟩
  · intro h
    obtain ⟨s, scope, listed, inside⟩ := h
    exact ⟨s, _, ⟨scope, listed, rfl⟩, inside⟩

theorem dueExact {m : FeatureModel} (sound : r.Sound)
    (each : m.constraints.toList.mapM m.contexts = .ok all) :
    o ∈ ofBuckets r (.ofContexts all) ↔ o.Due m r := by
  rw [inBuckets]
  cases o with
  | perClone i c clone =>
    simp only [cloneInBucket, Buckets.memPositions, sound.memOfNode, WellFormed.contextsAt each]
    constructor
    · intro h
      obtain ⟨s, -, -, node, ⟨x, stored, here⟩, k, there, answered⟩ := h
      exact ⟨k, s, x, there, answered, node, stored, here⟩
    · intro h
      obtain ⟨k, s, x, there, answered, node, stored, here⟩ := h
      have found := (WellFormed.contextsAt each).mpr ⟨k, there, answered⟩
      exact ⟨s, ContextSet.scopeOfNode node, List.mem_of_getElem? found, node,
        ⟨x, stored, here⟩, k, there, answered⟩
  | whole i =>
    simp only [wholeInBucket, Buckets.memPositions, WellFormed.contextsAt each]
    constructor
    · intro h
      obtain ⟨s, -, -, across, k, there, answered⟩ := h
      exact ⟨k, s, there, answered, across⟩
    · intro h
      obtain ⟨k, s, there, answered, across⟩ := h
      have found := (WellFormed.contextsAt each).mpr ⟨k, there, answered⟩
      exact ⟨s, by simp [across], List.mem_of_getElem? found, across, k, there, answered⟩

end Buckets

end Occasion

namespace Rostered
variable {m : FeatureModel} {trees : List Tree} {r : Roster}

theorem occasionDue {b : Buckets} {o : Occasion} (h : Rostered m trees r)
    (buckets : m.buckets = .ok b) : o ∈ Occasion.ofBuckets r b ↔ o.Due m r := by
  obtain ⟨all, each, sorted⟩ := h.wellFormed.bucketsOk
  cases buckets.symm.trans sorted
  exact Occasion.dueExact h.sound each

theorem cloneDue {i : Nat} {c : NodeId} {clone : InstanceId} (h : Rostered m trees r)
    (due : Occasion.Due m r (.perClone i c clone)) : ∃ k s, m.constraints[i]? = some k ∧
      m.contexts k = .ok s ∧ .within c ∈ s ∧ m.repeats c = true ∧ clone ∈ r.ofNode c := by
  obtain ⟨k, s, x, there, answered, node, stored, here⟩ := due
  exact ⟨k, s, there, answered, node, h.wellFormed.contextsRepeat answered node,
    h.sound.memOfNode.mpr ⟨x, stored, here⟩⟩

end Rostered

namespace CopySource

section Each
variable {s : CopySource} {contexts : ContextSet} {positions : List Nat} {bad : Failure → Prop}

theorem copyForClone {i : Nat} {k : Constraint} (there : s.model.constraint i = .ok k) (c : NodeId)
    (clone : InstanceId) : s.copyFor (.perClone i c clone) = s.guarded c clone k := by
  simp only [copyFor, there, bind, Except.bind]

theorem copyForWhole {i : Nat} {k : Constraint} (there : s.model.constraint i = .ok k) :
    s.copyFor (.whole i) = s.unguarded k := by
  simp only [copyFor, there, bind, Except.bind]

theorem forBucketAvoids (valid : ∀ i ∈ positions, Avoids bad (s.model.constraint i))
    (each : ∀ o ∈ Occasion.ofBucket s.roster contexts positions, Avoids bad (s.copyFor o)) :
    Avoids bad (s.forBucket contexts positions) := by
  refine avoidsBind (avoidsMapM valid) fun ks found => ?_
  rw [mapMEqOk] at found
  have clones : ∀ c ∈ contexts.nodes, Avoids bad (s.forNode ks c) := by
    intro c node
    refine avoidsMap (avoidsMapM fun clone instant => avoidsMapM fun k listed => ?_)
    obtain ⟨i, position, there⟩ := forall₂Right found listed
    rw [← copyForClone there c clone]
    exact each _ (Occasion.cloneInBucket.mpr ⟨ContextSet.memNodes.mp node, instant, position⟩)
  have wholes : contexts.scope = .across → Avoids bad (ks.mapM s.unguarded) := by
    intro across
    refine avoidsMapM fun k listed => ?_
    obtain ⟨i, position, there⟩ := forall₂Right found listed
    rw [← copyForWhole there]
    exact each _ (Occasion.wholeInBucket.mpr ⟨across, position⟩)
  refine avoidsBind (avoidsMapM clones) fun perClone _ => ?_
  cases scope : contexts.scope with
  | across => exact avoidsBind (wholes scope) fun whole _ => avoidsOk _
  | plain => exact avoidsOk _
  | inside n => exact avoidsOk _

variable {m : FeatureModel} {trees : List Tree} {r : Roster} {policy : MissingPolicy} {b : Buckets}

theorem copiesAvoids (h : Rostered m trees r) (buckets : m.buckets = .ok b)
    (each : ∀ o : Occasion, o.Due m r → Avoids bad ((CopySource.mk m r policy).copyFor o)) :
    Avoids bad ((CopySource.mk m r policy).copies b) := by
  obtain ⟨all, answered, sorted⟩ := h.wellFormed.bucketsOk
  cases buckets.symm.trans sorted
  refine avoidsMap (avoidsMapM fun entry listed => ?_)
  obtain ⟨contexts, positions⟩ := entry
  obtain ⟨concerned, member, rfl⟩ := Buckets.memBuckets.mp listed
  refine forBucketAvoids (fun i position => ?_) fun o inside => ?_
  · obtain ⟨k, there, -⟩ := (mapMAt answered).mp (Buckets.memPositions.mp position)
    have fetched : m.constraint i = .ok k := fetchEqOk.mpr (by simpa using there)
    exact fetched ▸ avoidsOk k
  · exact each o ((h.occasionDue sorted).mp
      (Occasion.inBuckets.mpr ⟨contexts, concerned, member, inside⟩))

theorem copiesDue (h : Rostered m trees r) (buckets : m.buckets = .ok b) {out : List Formula}
    (done : (CopySource.mk m r policy).copies b = .ok out) {o : Occasion} (due : o.Due m r) :
    ∃ copied ∈ out, (CopySource.mk m r policy).copyFor o = .ok copied :=
  forall₂Left (copiesEach done) ((h.occasionDue buckets).mpr due)

theorem copiesFrom (h : Rostered m trees r) (buckets : m.buckets = .ok b) {out : List Formula}
    (done : (CopySource.mk m r policy).copies b = .ok out) {copied : Formula}
    (inside : copied ∈ out) :
    ∃ o : Occasion, o.Due m r ∧ (CopySource.mk m r policy).copyFor o = .ok copied := by
  obtain ⟨o, listed, made⟩ := forall₂Right (copiesEach done) inside
  exact ⟨o, (h.occasionDue buckets).mp listed, made⟩

end Each
end CopySource

section Sights
variable {m : FeatureModel} {trees : List Tree} {r : Roster} {f : FeatureId} {n c : NodeId}
  {clone j : InstanceId}

theorem Roster.memOfFeature : j ∈ r.ofFeature f ↔ r.isOf f j = true := by
  rw [ofFeature, memThose, Rostered.isOfExact]
  simp only [beq_iff_eq]

theorem Rostered.nodeFeature (h : Rostered m trees r) (once : m.PlacedOnce)
    (placed : m.placement f = some n) : j ∈ r.ofNode n ↔ j ∈ r.ofFeature f := by
  obtain ⟨node, there, carries⟩ := h.wellFormed.placementNode placed
  rw [h.ofNodeExact, Roster.memOfFeature, isOfExact]
  constructor
  · intro inside
    obtain ⟨e, found, rfl⟩ := inside
    exact ⟨_, h.entryInstance found, (h.entryFeature found there).trans carries⟩
  · intro has
    obtain ⟨x, stored, own⟩ := has
    obtain ⟨e, found, rfl⟩ := h.instanceEntry stored
    have here := (h.mirror found).stored
    have same : e.tree.place.node = node := by
      refine List.inj_on_of_nodup_map once ?_ ?_ ?_
      · exact Array.mem_toList_iff.mpr (Array.mem_of_getElem? here)
      · exact Array.mem_toList_iff.mpr (Array.mem_of_getElem? there)
      · rw [carries, ← own, h.entryFeature found here]
    exact ⟨e, found, (congrArg Node.id same).trans (h.wellFormed.linked.ids there)⟩

theorem Rostered.sightWhole (h : Rostered m trees r) (once : m.PlacedOnce) (apart : m.NamesApart) :
    Sight m trees r r.ofFeature where
  rostered := h
  once := once
  apart := apart
  distinct := fun _ => Roster.thoseNodup _
  own := fun _ _ inside => Roster.memOfFeature.mp inside

theorem Rostered.sightFrom (h : Rostered m trees r) (once : m.PlacedOnce) (apart : m.NamesApart)
    (c : NodeId) (clone : InstanceId) : Sight m trees r (m.seenFrom r c clone) where
  rostered := h
  once := once
  apart := apart
  distinct := by
    intro f
    unfold FeatureModel.seenFrom
    split
    · exact (Roster.thoseNodup _).filter _
    · exact Roster.thoseNodup _
  own := by
    intro f j inside
    unfold FeatureModel.seenFrom at inside
    split at inside
    · exact Roster.memOfFeature.mp (List.mem_filter.mp inside).1
    · exact Roster.memOfFeature.mp inside

theorem memSeenFrom (placed : m.placement f = some n) : j ∈ m.seenFrom r c clone f ↔
    j ∈ r.ofFeature f ∧ (m.Within c n → r.Within clone j) := by
  have inside : (∃ n, m.placement f = some n ∧ m.Within c n) ↔ m.Within c n := by
    simp [placed]
  unfold FeatureModel.seenFrom
  by_cases within : m.Within c n <;> simp [inside, within]

theorem Resolution.Answers.congr {placement : Option NodeId}
    {found found' : NodeId → InstanceId → Prop} {answer : Resolution}
    (answers : answer.Answers placement found)
    (same : ∀ n, placement = some n → ∀ j, found n j ↔ found' n j) :
    answer.Answers placement found' := by
  cases answer with
  | itself => exact answers
  | instances ids =>
    obtain ⟨some, distinct, n, placed, exact⟩ := answers
    exact ⟨some, distinct, n, placed, fun j => (exact j).trans (same n placed j)⟩

theorem Rostered.everywhereAnswers (h : Rostered m trees r) (once : m.PlacedOnce)
    {policy : MissingPolicy} (f : FeatureId) : ∃ answer,
    (CopySource.mk m r policy).everywhere f = .ok answer ∧
      answer.Answers (m.placement f) fun _ j => j ∈ r.ofFeature f := by
  obtain ⟨answer, answered, answers⟩ := CopySource.everywhereOk h f
  exact ⟨answer, answered policy, answers.congr fun n placed j => h.nodeFeature once placed⟩

theorem Rostered.seenFromAnswers (h : Rostered m trees r) (once : m.PlacedOnce)
    {policy : MissingPolicy} (repeated : m.repeats c = true) (instant : clone ∈ r.ofNode c)
    (f : FeatureId) : ∃ answer, (CopySource.mk m r policy).seenFrom c clone f = .ok answer ∧
      answer.Answers (m.placement f) fun _ j => j ∈ m.seenFrom r c clone f := by
  obtain ⟨answer, answered, answers⟩ := CopySource.seenFromOk h repeated instant f
  refine ⟨answer, answered policy, answers.congr fun n placed j => ?_⟩
  rw [memSeenFrom placed, h.nodeFeature once placed, Roster.memOfFeature]
  by_cases within : m.Within c n <;> simp [within, and_comm]

end Sights

section Copies
variable {m : FeatureModel} {trees : List Tree} {r : Roster} {policy : MissingPolicy}
  {k : Constraint} {c : NodeId} {clone : InstanceId} {copied : Formula} {a : Assignment}

theorem unguardedReads (h : Rostered m trees r) (once : m.PlacedOnce) (apart : m.NamesApart)
    (declared : k ∈ m.constraints)
    (valued : ∀ (i : Nat) (x : Instance), r.instances[i]? = some x → x.term.Valued a)
    (done : (CopySource.mk m r policy).unguarded k = .ok copied) :
    copied.evaluate a = (m.view r r.ofFeature k).reads a k.formula := by
  exact (h.sightWhole once apart).copyReads (h.wellFormed.refers k declared)
    (fun f _ => h.everywhereAnswers once f) valued done

theorem guardedReads (h : Rostered m trees r) (once : m.PlacedOnce) (apart : m.NamesApart)
    (declared : k ∈ m.constraints) (repeated : m.repeats c = true) {x : Instance}
    (stored : r.instances[clone.index]? = some x) (here : x.node = c)
    (valued : ∀ (i : Nat) (x : Instance), r.instances[i]? = some x → x.term.Valued a)
    (done : (CopySource.mk m r policy).guarded c clone k = .ok copied) :
    copied.evaluate a = some true ↔ (r.selects a clone = true →
      (m.view r (m.seenFrom r c clone) k).reads a k.formula = some true) := by
  obtain ⟨guard, fetched, rest⟩ := bindEqOk.mp done
  obtain ⟨body, made, last⟩ := bindEqOk.mp rest
  cases pureEqOk.mp last
  cases (fetchEqOk.mp fetched).symm.trans stored
  have reads : body.evaluate a = (m.view r (m.seenFrom r c clone) k).reads a k.formula := by
    have instant := h.sound.memOfNode.mpr ⟨x, stored, here⟩
    exact (h.sightFrom once apart c clone).copyReads (h.wellFormed.refers k declared)
      (fun f _ => h.seenFromAnswers once repeated instant f) valued made
  have selected : r.selects a clone = x.term.isTrue a := by
    rw [Roster.selects, stored]
    rfl
  rw [← Formula.isTrueIff, Formula.impliesTrue (valued _ x stored), selected, ← reads,
    Formula.isTrueIff (f := body)]

theorem copyForReads (h : Rostered m trees r) (once : m.PlacedOnce) (apart : m.NamesApart)
    {o : Occasion} (due : o.Due m r)
    (valued : ∀ (i : Nat) (x : Instance), r.instances[i]? = some x → x.term.Valued a)
    (done : (CopySource.mk m r policy).copyFor o = .ok copied) :
    copied.evaluate a = some true ↔ o.Upheld m r a := by
  cases o with
  | perClone i c clone =>
    obtain ⟨k, s, x, there, answered, node, stored, here⟩ := due
    obtain ⟨k', fetched, made⟩ := bindEqOk.mp done
    cases (fetchEqOk.mp fetched).symm.trans there
    rw [guardedReads h once apart (Array.mem_of_getElem? there)
      (h.wellFormed.contextsRepeat answered node) stored here valued made]
    simp [Occasion.Upheld, there]
  | whole i =>
    obtain ⟨k, s, there, -⟩ := due
    obtain ⟨k', fetched, made⟩ := bindEqOk.mp done
    cases (fetchEqOk.mp fetched).symm.trans there
    rw [unguardedReads h once apart (Array.mem_of_getElem? there) valued made]
    simp [Occasion.Upheld, there]

/-- There is one copy for every occasion, and the copies hold together just when the constraints do
on all of them. -/
theorem copiesExact (built : Built m) (once : m.PlacedOnce) (apart : m.NamesApart) {u : Unrolling}
    (unrolled : m.unroll = .ok u) {b : Buckets} (sorted : m.buckets = .ok b) {out : List Formula}
    (done : (CopySource.mk m u.roster policy).copies b = .ok out) :
    (∃ occasions : List Occasion, occasions.Nodup ∧ (∀ o, o ∈ occasions ↔ o.Due m u.roster) ∧
      List.Forall₂ (fun o copied => (CopySource.mk m u.roster policy).copyFor o = .ok copied)
        occasions out) ∧
    ∀ a : Assignment,
      (∀ (i : Nat) (x : Instance), u.roster.instances[i]? = some x → x.term.Valued a) →
      ((∀ f ∈ out, f.evaluate a = some true) ↔
        ∀ o : Occasion, o.Due m u.roster → o.Upheld m u.roster a) := by
  have w := built.wellFormed
  obtain ⟨trees, h⟩ := w.rostered unrolled
  obtain ⟨all, each, listed⟩ := w.bucketsOk
  cases sorted.symm.trans listed
  have due := fun o => Occasion.dueExact (o := o) h.sound each
  have made := CopySource.copiesEach done
  refine ⟨⟨_, Occasion.ofBucketsNodup h.sound, due, made⟩, fun a valued => ?_⟩
  constructor
  · intro hold o asked
    obtain ⟨copied, listed, answered⟩ := forall₂Left made ((due o).mpr asked)
    exact (copyForReads h once apart asked valued answered).mp (hold copied listed)
  · intro upheld copied listed
    obtain ⟨o, inside, answered⟩ := forall₂Right made listed
    have asked := (due o).mp inside
    exact (copyForReads h once apart asked valued answered).mpr (upheld o asked)

end Copies

theorem Example.rackCopies : Built rack ∧ rack.PlacedOnce ∧ rack.NamesApart ∧
    ∃ u b out, rack.unroll = .ok u ∧ rack.buckets = .ok b ∧
      (CopySource.mk rack u.roster .fail).copies b = .ok out ∧ out.length = 5 ∧
      (∀ (i : Nat) (x : Instance), u.roster.instances[i]? = some x → x.term.Valued oneSlot) ∧
      ∀ o : Occasion, o.Due rack u.roster → o.Upheld rack u.roster oneSlot := by
  have once : rack.PlacedOnce := by decide
  have apart : rack.NamesApart := FeatureModel.namesApart (by decide)
  have checked := toOptionEqSome.mp (show (do
      let u ← rack.unroll
      let b ← rack.buckets
      let out ← (CopySource.mk rack u.roster .fail).copies b
      return u.roster.instances.all (fun x => (x.term.evaluate oneSlot).isSome) &&
        (out.length == 5 && out.all fun f => f.evaluate oneSlot == some true)).toOption =
      some true by decide +kernel)
  obtain ⟨u, unrolled, rest⟩ := bindEqOk.mp checked
  obtain ⟨b, sorted, rest⟩ := bindEqOk.mp rest
  obtain ⟨out, done, last⟩ := bindEqOk.mp rest
  have good := pureEqOk.mp last
  simp only [Bool.and_eq_true, Array.all_eq_true', List.all_eq_true, beq_iff_eq,
    Option.isSome_iff_exists] at good
  obtain ⟨known, five, hold⟩ := good
  have valued : ∀ (i : Nat) (x : Instance), u.roster.instances[i]? = some x →
      x.term.Valued oneSlot :=
    fun i x stored => known x (Array.mem_of_getElem? stored)
  obtain ⟨-, exact⟩ := copiesExact rackBuilt once apart unrolled sorted done
  exact ⟨rackBuilt, once, apart, u, b, out, unrolled, sorted, done, five, valued,
    (exact _ valued).mp hold⟩

end ProductLine
