import ProductLine.Compilation
import ProductLine.Proofs.Copy.Occasions

/-!
The policies for missing instances act alike up to the first one missing. In a model that was built
no instance is ever missing, so the policy makes no difference.
-/
namespace ProductLine

def Failure.SaysMissing (e : Failure) : Prop :=
  ∃ feature context, e = .rejected (.missingContextualInstance feature context)

section Agreement
variable {m : FeatureModel} {r : Roster} {c : NodeId} {clone : InstanceId} {f : FeatureId}
  {k : Constraint} {label : String}

namespace CopySource

theorem missingAgrees : AgreesUnless Failure.SaysMissing
    ((CopySource.mk m r .fail).missing f label)
    ((CopySource.mk m r .keepFeature).missing f label) := by
  refine agreesBind (agreesSame _) fun feature => ?_
  exact .inr ⟨_, rfl, feature.name, label, rfl⟩

theorem foundAgrees (ids : List InstanceId) : AgreesUnless Failure.SaysMissing
    ((CopySource.mk m r .fail).found f label ids)
    ((CopySource.mk m r .keepFeature).found f label ids) := by
  cases ids with
  | nil => exact missingAgrees
  | cons i ids => exact agreesSame _

theorem everywhereAgrees : AgreesUnless Failure.SaysMissing
    ((CopySource.mk m r .fail).everywhere f) ((CopySource.mk m r .keepFeature).everywhere f) := by
  unfold everywhere
  cases m.placement f with
  | none => exact agreesSame _
  | some n => exact foundAgrees _

theorem seenFromAgrees : AgreesUnless Failure.SaysMissing
    ((CopySource.mk m r .fail).seenFrom c clone f)
    ((CopySource.mk m r .keepFeature).seenFrom c clone f) := by
  refine agreesBind (agreesSame _) fun own => agreesBind (agreesSame _) fun inside => ?_
  cases inside with
  | true =>
    refine agreesBind (agreesSame _) fun guard => agreesBind (agreesSame _) fun ids => ?_
    exact foundAgrees ids
  | false => exact everywhereAgrees

theorem copyAgrees {resolve resolve' : FeatureId → Except Failure Resolution}
    (resolved : ∀ f ∈ k.referenced, AgreesUnless Failure.SaysMissing (resolve f) (resolve' f)) :
    AgreesUnless Failure.SaysMissing ((CopySource.mk m r .fail).copy label resolve k)
      ((CopySource.mk m r .keepFeature).copy label resolve' k) := by
  refine agreesBind (agreesMapM fun f inside => ?_) fun references => agreesSame _
  exact agreesBind (resolved f inside) fun answer => agreesSame _

theorem guardedAgrees : AgreesUnless Failure.SaysMissing
    ((CopySource.mk m r .fail).guarded c clone k)
    ((CopySource.mk m r .keepFeature).guarded c clone k) := by
  refine agreesBind (agreesSame _) fun guard => agreesBind ?_ fun body => agreesSame _
  exact copyAgrees fun _ _ => seenFromAgrees

theorem unguardedAgrees : AgreesUnless Failure.SaysMissing
    ((CopySource.mk m r .fail).unguarded k) ((CopySource.mk m r .keepFeature).unguarded k) :=
  copyAgrees fun _ _ => everywhereAgrees

theorem forBucketAgrees (contexts : ContextSet) (positions : List Nat) :
    AgreesUnless Failure.SaysMissing ((CopySource.mk m r .fail).forBucket contexts positions)
      ((CopySource.mk m r .keepFeature).forBucket contexts positions) := by
  refine agreesBind (agreesSame _) fun ks => agreesBind (agreesMapM fun n _ => ?_) fun clones => ?_
  · exact agreesMap _ (agreesMapM fun clone _ => agreesMapM fun k _ => guardedAgrees)
  · cases contexts.scope with
    | across => exact agreesBind (agreesMapM fun k _ => unguardedAgrees) fun whole => agreesSame _
    | plain => exact agreesSame _
    | inside n => exact agreesSame _

theorem copiesAgree (b : Buckets) : AgreesUnless Failure.SaysMissing
    ((CopySource.mk m r .fail).copies b) ((CopySource.mk m r .keepFeature).copies b) :=
  agreesMap _ (agreesMapM fun entry _ => forBucketAgrees entry.1 entry.2)

end CopySource

theorem compileFullAgrees (m : FeatureModel) :
    AgreesUnless Failure.SaysMissing (m.compileFull .fail) (m.compileFull .keepFeature) := by
  refine agreesBind (agreesSame _) fun u => agreesBind (agreesSame _) fun b => ?_
  refine agreesBind (agreesSame _) fun plain => agreesBind ?_ fun copies => agreesSame _
  exact CopySource.copiesAgree b

end Agreement

section Spared
variable {m : FeatureModel}

theorem fetchSpared {α : Type} (store : Array α) (i : Nat) :
    Avoids Failure.SaysMissing (fetch store i) := by
  intro e failed missing
  obtain ⟨feature, context, rfl⟩ := missing
  unfold fetch at failed
  split at failed <;> cases failed

theorem sortSpared (f : Feature) : Avoids Failure.SaysMissing f.sort := by
  intro e failed missing
  obtain ⟨feature, context, rfl⟩ := missing
  unfold Feature.sort at failed
  split at failed <;> cases failed

theorem placedSpared (m : FeatureModel) (n : NodeId) :
    Avoids Failure.SaysMissing (m.placed n) := by
  refine avoidsBind (fetchSpared _ _) fun node _ => avoidsBind (fetchSpared _ _) fun feature _ => ?_
  exact avoidsBind (sortSpared feature) fun sort _ => avoidsOk _

theorem growSpared (m : FeatureModel) (depth : Nat) (p : Placed) :
    Avoids Failure.SaysMissing (m.grow depth p) := by
  induction depth generalizing p with
  | zero => exact avoidsOk _
  | succ depth ih =>
    refine avoidsBind (avoidsMapM fun n _ => placedSpared m n) fun below _ => ?_
    exact avoidsBind (avoidsMapM fun q _ => ih q) fun ts _ => avoidsOk _

theorem unrollSpared (m : FeatureModel) : Avoids Failure.SaysMissing m.unroll := by
  refine avoidsMap (avoidsMapM fun n _ => ?_)
  exact avoidsBind (placedSpared m n) fun p _ => growSpared m _ p

theorem throwSpared {α : Type} {e : Failure} (other : ¬ e.SaysMissing) :
    Avoids Failure.SaysMissing (throw e : Except Failure α) := by
  intro e' failed
  cases failed
  exact other

theorem checkSpared (m : FeatureModel) : Avoids Failure.SaysMissing m.check := by
  have constraint : ∀ c, Avoids Failure.SaysMissing (m.checkConstraint c) := by
    intro c
    unfold FeatureModel.checkConstraint
    split
    · refine avoidsBind (throwSpared (by simp [Failure.SaysMissing])) fun _ thrown => ?_
      cases thrown
    · refine avoidsForM fun f _ => ?_
      exact avoidsBind (fetchSpared _ _) fun feature _ =>
        avoidsBind (sortSpared feature) fun _ _ => avoidsOk _
  unfold FeatureModel.check
  split
  · refine avoidsBind (throwSpared (by simp [Failure.SaysMissing])) fun _ thrown => ?_
    cases thrown
  · exact avoidsForM fun c _ => constraint c

namespace CopySource
variable {s : CopySource} {trees : List Tree} {r : Roster} {c : NodeId} {clone : InstanceId}

section Avoided
variable {bad : Failure → Prop} {label : String} {k : Constraint}
  {resolve : FeatureId → Except Failure Resolution}

theorem referAvoids {f : FeatureId} {answer : Resolution} (answered : resolve f = .ok answer)
    (known : Avoids bad (s.model.feature f)) (sorts : ∀ feature : Feature, Avoids bad feature.sort)
    (there : ∀ ids, answer = .instances ids → ∀ i ∈ ids, Avoids bad (s.roster.get i)) :
    Avoids bad (s.refer resolve f) := by
  unfold refer
  rw [answered]
  refine avoidsBind (avoidsOk _) fun resolution same => avoidsBind known fun feature _ => ?_
  cases same
  refine avoidsBind (avoidsMap (avoidsMap (sorts feature))) fun target _ => ?_
  cases answer with
  | itself => exact avoidsOk _
  | instances ids =>
    refine avoidsBind (avoidsMapM fun i inside => ?_) fun terms _ => avoidsOk _
    exact avoidsMap (there ids rfl i inside)

theorem valueNameAvoids (label : String) (body : Formula) {reference : Reference}
    (single : ∀ feature context, ¬ bad (.rejected (.ambiguousFeatureValue feature context)))
    (there : ∀ ids, reference.resolution = .instances ids → ∀ i ∈ ids,
      Avoids bad (s.roster.get i)) : Avoids bad (s.valueName label body reference) := by
  unfold valueName
  split
  · exact avoidsOk _
  · rename_i ids resolution
    split
    · split
      · exact avoidsBind (there _ resolution _ List.mem_cons_self) fun x _ => avoidsOk _
      · intro e failed
        cases failed
        exact single _ _
    · exact avoidsOk _

theorem copyAvoids (sorts : ∀ feature : Feature, Avoids bad feature.sort)
    (single : ∀ feature context, ¬ bad (.rejected (.ambiguousFeatureValue feature context)))
    (known : ∀ f ∈ k.referenced, Avoids bad (s.model.feature f))
    (answered : ∀ f ∈ k.referenced, ∃ answer, resolve f = .ok answer ∧
      ∀ ids, answer = .instances ids → ∀ i ∈ ids, Avoids bad (s.roster.get i)) :
    Avoids bad (s.copy label resolve k) := by
  refine avoidsBind (avoidsMapM fun f inside => ?_) fun references made => ?_
  · obtain ⟨answer, resolved, there⟩ := answered f inside
    exact referAvoids resolved (known f inside) sorts there
  · refine avoidsBind (avoidsMapM fun reference listed => ?_) fun renamings _ => avoidsOk _
    obtain ⟨f, inside, done⟩ := forall₂Right (mapMEqOk.mp made) listed
    obtain ⟨answer, resolved, there⟩ := answered f inside
    cases resolved.symm.trans (referParts done).resolved
    exact valueNameAvoids label _ single there

end Avoided

theorem copySpared {label : String} {resolve : FeatureId → Except Failure Resolution}
    {k : Constraint} (answered : ∀ f ∈ k.referenced, ∃ answer, resolve f = .ok answer) :
    Avoids Failure.SaysMissing (s.copy label resolve k) := by
  refine copyAvoids sortSpared (by simp [Failure.SaysMissing]) (fun f _ => fetchSpared _ _) ?_
  intro f inside
  obtain ⟨answer, resolved⟩ := answered f inside
  exact ⟨answer, resolved, fun _ _ i _ => fetchSpared _ _⟩

theorem guardedSpared (h : Rostered m trees r) (repeated : m.repeats c = true)
    (instant : clone ∈ r.ofNode c) (k : Constraint) (policy : MissingPolicy) :
    Avoids Failure.SaysMissing ((CopySource.mk m r policy).guarded c clone k) := by
  refine avoidsBind (fetchSpared _ _) fun guard _ => avoidsBind (copySpared fun f _ => ?_)
    fun body _ => avoidsOk _
  obtain ⟨answer, answered, -⟩ := seenFromOk h repeated instant f
  exact ⟨answer, answered policy⟩

theorem unguardedSpared (h : Rostered m trees r) (k : Constraint) (policy : MissingPolicy) :
    Avoids Failure.SaysMissing ((CopySource.mk m r policy).unguarded k) := by
  refine copySpared fun f _ => ?_
  obtain ⟨answer, answered, -⟩ := everywhereOk h f
  exact ⟨answer, answered policy⟩

theorem copyForSpared (h : Rostered m trees r) {o : Occasion} (due : o.Due m r)
    (policy : MissingPolicy) :
    Avoids Failure.SaysMissing ((CopySource.mk m r policy).copyFor o) := by
  cases o with
  | perClone i c clone =>
    obtain ⟨-, -, -, -, -, repeated, instant⟩ := h.cloneDue due
    exact avoidsBind (fetchSpared _ _) fun k _ => guardedSpared h repeated instant k policy
  | whole i => exact avoidsBind (fetchSpared _ _) fun k _ => unguardedSpared h k policy

end CopySource

theorem compileFullSpared (w : WellFormed m) (policy : MissingPolicy) :
    Avoids Failure.SaysMissing (m.compileFull policy) := by
  refine avoidsBind (unrollSpared m) fun u unrolled => ?_
  obtain ⟨trees, h⟩ := w.rostered unrolled
  obtain ⟨all, each, sorted⟩ := w.bucketsOk
  refine avoidsBind (by rw [sorted]; exact avoidsOk _) fun b buckets => ?_
  refine avoidsBind (avoidsMapM fun i _ => avoidsMap (fetchSpared _ _)) fun plain _ => ?_
  refine avoidsBind (CopySource.copiesAvoids h buckets fun o due => ?_) fun copies _ => avoidsOk _
  exact CopySource.copyForSpared h due policy

theorem compileFullSame (w : WellFormed m) (policy policy' : MissingPolicy) :
    m.compileFull policy = m.compileFull policy' := by
  have same : m.compileFull .fail = m.compileFull .keepFeature :=
    agreesAvoids (compileFullAgrees m) (compileFullSpared w .fail)
  cases policy with
  | fail =>
    cases policy' with
    | fail => rfl
    | keepFeature => exact same
  | keepFeature =>
    cases policy' with
    | fail => exact same.symm
    | keepFeature => rfl

/-- Compiling never finds an instance missing, so the policy for that makes no difference. -/
theorem compileIgnoresPolicy (built : Built m) :
    m.compile ⟨.full, .fail⟩ = m.compile ⟨.full, .keepFeature⟩ ∧
    ∀ policy feature context, m.compile ⟨.full, policy⟩ ≠
      .error (.rejected (.missingContextualInstance feature context)) := by
  have w := built.wellFormed
  constructor
  · exact congrArg (m.check >>= ·) (funext fun _ => compileFullSame w .fail .keepFeature)
  · intro policy feature context failed
    have spared := avoidsBind (checkSpared m) fun _ _ => compileFullSpared w policy
    exact spared _ failed ⟨feature, context, rfl⟩

end Spared

theorem Example.rackIgnoresPolicy : Built rack ∧
    (∃ out, rack.compile ⟨.full, .fail⟩ = .ok out ∧ rack.compile ⟨.full, .keepFeature⟩ = .ok out) ∧
    ∀ policy feature context, rack.compile ⟨.full, policy⟩ ≠
      .error (.rejected (.missingContextualInstance feature context)) := by
  obtain ⟨same, never⟩ := compileIgnoresPolicy rackBuilt
  have compiles : (rack.compile ⟨.full, .fail⟩).toOption.isSome = true := by decide +kernel
  refine ⟨rackBuilt, ?_, never⟩
  rw [← same]
  cases answer : rack.compile ⟨.full, .fail⟩ with
  | ok out => exact ⟨out, rfl, rfl⟩
  | error failure =>
    rw [answer] at compiles
    cases compiles

end ProductLine
