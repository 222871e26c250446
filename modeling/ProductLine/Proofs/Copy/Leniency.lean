import ProductLine.Proofs.Copy.Policy
import ProductLine.Proofs.Roster.Breadth

/-!
Copies made with a roster of any kind, in which instances may be missing. The lenient policy goes on
where the strict one gives up; what it cannot do comes from a feature without a sort or without a
single value.
-/
namespace ProductLine

inductive Failure.OfFeature : Failure → Prop
  | unsorted (feature : String) (type : FeatureType) :
    OfFeature (.rejected (.unsupportedFeatureType feature type))
  | several (feature context : String) :
      OfFeature (.rejected (.ambiguousFeatureValue feature context))

theorem Feature.sortFails (f : Feature) : Avoids (¬ ·.OfFeature) f.sort := by
  intro e failed other
  unfold sort at failed
  split at failed
  · cases failed
  · cases failed
    exact other (.unsorted f.name f.type)

inductive Resolution.Stored (r : Roster) : Resolution → Prop
  | itself : Stored r .itself
  | instances {ids : List InstanceId} (there : ∀ i ∈ ids, ∃ x, r.get i = .ok x) :
    Stored r (.instances ids)

namespace CopySource
variable {m : FeatureModel} {r : Roster} {c : NodeId} {clone : InstanceId} {f : FeatureId}
  {k : Constraint} {label : String}

theorem foundKept (known : ∃ feature, m.feature f = .ok feature) {ids : List InstanceId}
    (there : ∀ i ∈ ids, ∃ x, r.get i = .ok x) :
    ∃ answer, (CopySource.mk m r .keepFeature).found f label ids = .ok answer ∧
      answer.Stored r := by
  cases ids with
  | nil =>
    obtain ⟨feature, stored⟩ := known
    exact ⟨.itself, bindEqOk.mpr ⟨feature, stored, rfl⟩, .itself⟩
  | cons i ids => exact ⟨.instances (i :: ids), rfl, .instances there⟩

theorem everywhereKept (sound : r.Sound) (known : ∃ feature, m.feature f = .ok feature) :
    ∃ answer, (CopySource.mk m r .keepFeature).everywhere f = .ok answer ∧ answer.Stored r := by
  unfold everywhere
  cases m.placement f with
  | none => exact ⟨.itself, rfl, .itself⟩
  | some n =>
    refine foundKept known fun i inside => ?_
    obtain ⟨x, stored, -⟩ := sound.memOfNode.mp inside
    exact ⟨x, fetchEqOk.mpr stored⟩

theorem seenFromKept (w : WellFormed m) (sound : r.Sound)
    (known : ∃ feature, m.feature f = .ok feature) (there : ∃ x, r.get clone = .ok x) :
    ∃ answer, (CopySource.mk m r .keepFeature).seenFrom c clone f = .ok answer ∧
      answer.Stored r := by
  obtain ⟨own, inside, context, belongs, -⟩ := belongsExact w c f
  obtain ⟨guard, entered⟩ := there
  rw [seenFromEq context (belongs r _) entered]
  cases inside with
  | true =>
    refine foundKept known fun i listed => ?_
    obtain ⟨x, stored, -⟩ := Rostered.isOfExact.mp (List.mem_filter.mp listed).2
    exact ⟨x, fetchEqOk.mpr stored⟩
  | false => exact everywhereKept sound known

theorem copyKept {resolve : FeatureId → Except Failure Resolution}
    (known : ∀ f ∈ k.referenced, ∃ feature, m.feature f = .ok feature)
    (answered : ∀ f ∈ k.referenced, ∃ answer, resolve f = .ok answer ∧ answer.Stored r) :
    Avoids (¬ ·.OfFeature) ((CopySource.mk m r .keepFeature).copy label resolve k) := by
  refine copyAvoids Feature.sortFails
    (fun feature context other => other (.several feature context))
    (fun f inside => ?_) (fun f inside => ?_)
  · obtain ⟨feature, stored⟩ := known f inside
    exact stored ▸ avoidsOk feature
  · obtain ⟨answer, resolved, kept⟩ := answered f inside
    refine ⟨answer, resolved, fun ids same i listed => ?_⟩
    cases kept with
    | itself => cases same
    | instances there =>
      cases same
      obtain ⟨x, stored⟩ := there i listed
      exact stored ▸ avoidsOk x

theorem guardedKept (w : WellFormed m) (sound : r.Sound) (declared : k ∈ m.constraints)
    (instant : clone ∈ r.ofNode c) :
    Avoids (¬ ·.OfFeature) ((CopySource.mk m r .keepFeature).guarded c clone k) := by
  obtain ⟨x, stored, -⟩ := sound.memOfNode.mp instant
  have fetched : r.get clone = .ok x := fetchEqOk.mpr stored
  refine avoidsBind (fetched ▸ avoidsOk x) fun guard _ => avoidsBind ?_ fun body _ => avoidsOk _
  exact copyKept (fun _ inside => w.referencedKnown declared inside) fun _ inside =>
    seenFromKept w sound (w.referencedKnown declared inside) ⟨x, fetched⟩

theorem unguardedKept (w : WellFormed m) (sound : r.Sound) (declared : k ∈ m.constraints) :
    Avoids (¬ ·.OfFeature) ((CopySource.mk m r .keepFeature).unguarded k) :=
  copyKept (fun _ inside => w.referencedKnown declared inside) fun _ inside =>
    everywhereKept sound (w.referencedKnown declared inside)

theorem copiesKept (w : WellFormed m) (sound : r.Sound) {b : Buckets}
    (there : ∀ entry ∈ b.byContexts.entries, ∀ i ∈ entry.2, i < m.constraints.size) :
    Avoids (¬ ·.OfFeature) ((CopySource.mk m r .keepFeature).copies b) := by
  refine avoidsMap (avoidsMapM fun entry listed => ?_)
  obtain ⟨contexts, positions⟩ := entry
  have stored : ∀ i ∈ positions, ∃ k ∈ m.constraints, m.constraint i = .ok k := fun i position =>
    have inside := there _ listed i position
    ⟨m.constraints[i], Array.getElem_mem inside, fetchEqOk.mpr (Array.getElem?_eq_getElem inside)⟩
  refine forBucketAvoids (fun i position => ?_) fun o inside => ?_
  · obtain ⟨k, -, fetched⟩ := stored i position
    exact fetched ▸ avoidsOk k
  · obtain ⟨k, declared, fetched⟩ := stored o.position (Occasion.positionInBucket inside)
    cases o with
    | perClone i c clone =>
      rw [copyForClone fetched]
      exact guardedKept w sound declared (Occasion.cloneInBucket.mp inside).2.1
    | whole i =>
      rw [copyForWhole fetched]
      exact unguardedKept w sound declared

end CopySource

/-- With any roster, the lenient policy gives what the strict one gives, unless that finds an
instance missing; the lenient one never does, and neither policy makes a call that it should not. -/
theorem leniencyConservative {m : FeatureModel} (built : Built m) (entries : List Instance)
    {b : Buckets} (there : ∀ entry ∈ b.byContexts.entries, ∀ i ∈ entry.2, i < m.constraints.size) :
    (∀ out, (CopySource.mk m (.ofAttempts entries) .fail).copies b = .ok out →
      (CopySource.mk m (.ofAttempts entries) .keepFeature).copies b = .ok out) ∧
    (∀ e, (CopySource.mk m (.ofAttempts entries) .fail).copies b = .error e → ¬ e.SaysMissing →
      (CopySource.mk m (.ofAttempts entries) .keepFeature).copies b = .error e) ∧
    (∀ feature context, (CopySource.mk m (.ofAttempts entries) .keepFeature).copies b ≠
      .error (.rejected (.missingContextualInstance feature context))) ∧
    ∀ policy how, (CopySource.mk m (.ofAttempts entries) policy).copies b ≠
      .error (.misused how) := by
  have kept := CopySource.copiesKept built.wellFormed (Roster.Sound.ofAttempts entries) there
  have ofFeature : ∀ e, (CopySource.mk m (.ofAttempts entries) .keepFeature).copies b = .error e →
      e.OfFeature := fun e failed => Classical.not_not.mp (kept e failed)
  have found : ∀ feature context, (CopySource.mk m (.ofAttempts entries) .keepFeature).copies b ≠
      .error (.rejected (.missingContextualInstance feature context)) :=
    fun _ _ failed => nomatch ofFeature _ failed
  have used : ∀ how, (CopySource.mk m (.ofAttempts entries) .keepFeature).copies b ≠
      .error (.misused how) := fun _ failed => nomatch ofFeature _ failed
  -- either both runs are the same, or the strict one stops at a missing instance
  rcases CopySource.copiesAgree (m := m) (r := .ofAttempts entries) b with
    same | ⟨e, failed, missing⟩
  · refine ⟨fun out done => same ▸ done, fun e failed _ => same ▸ failed, found, ?_⟩
    intro policy how
    cases policy with
    | fail => exact same ▸ used how
    | keepFeature => exact used how
  · refine ⟨fun out done => ?_, fun e' failed' other => ?_, found, ?_⟩
    · cases failed.symm.trans done
    · cases failed.symm.trans failed'
      exact absurd missing other
    · intro policy how
      cases policy with
      | fail =>
        obtain ⟨feature, context, rfl⟩ := missing
        rw [failed]
        exact fun same => nomatch same
      | keepFeature => exact used how

namespace Example

def slotOnly : List Instance :=
  [⟨⟨0⟩, ⟨0⟩, none, "Server", none, .literal "Server"⟩,
    ⟨⟨1⟩, ⟨1⟩, some ⟨0⟩, "Slot_1", some 1, .literal "Slot_1"⟩]

def slotWhole : List Instance := slotOnly ++
  [⟨⟨2⟩, ⟨2⟩, some ⟨1⟩, "Speed__1", none, .literal "Speed__1"⟩,
    ⟨⟨3⟩, ⟨3⟩, some ⟨0⟩, "Backup", none, .literal "Backup"⟩]

theorem slotOnlyCopied : Built rack ∧ ∃ b, rack.buckets = .ok b ∧
    (CopySource.mk rack (.ofAttempts slotOnly) .fail).copies b =
      .error (.rejected (.missingContextualInstance "Backup" "model")) ∧
    (∃ out, (CopySource.mk rack (.ofAttempts slotOnly) .keepFeature).copies b = .ok out ∧
      .implies (.literal "Backup") (.literal "Slot_1") ∈ out) ∧
    (∀ feature context, (CopySource.mk rack (.ofAttempts slotOnly) .keepFeature).copies b ≠
      .error (.rejected (.missingContextualInstance feature context))) ∧
    ∃ out, (CopySource.mk rack (.ofAttempts slotWhole) .fail).copies b = .ok out ∧
      (CopySource.mk rack (.ofAttempts slotWhole) .keepFeature).copies b = .ok out := by
  have sorted : rack.buckets =
      .ok (.ofContexts [.ofList [.root, .within ⟨1⟩], .ofList [.within ⟨1⟩]]) := rfl
  refine ⟨rackBuilt, _, sorted, rfl, ⟨_, rfl, List.mem_cons_of_mem _ List.mem_cons_self⟩, ?_, ?_⟩
  · exact (leniencyConservative rackBuilt slotOnly (by decide)).2.2.1
  · exact ⟨_, rfl, (leniencyConservative rackBuilt slotWhole (by decide)).1 _ rfl⟩

end Example
end ProductLine
