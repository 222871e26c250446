import ProductLine.Proofs.Copy.Rewriting

/-!
The references of a constraint in a copy: what is put in the place of each feature's test, and what
its value is renamed to.
-/
namespace ProductLine
open CopySource (Reference)

structure Referred (m : FeatureModel) (r : Roster) (seen : FeatureId → List InstanceId)
    (f : FeatureId) (reference : Reference) : Prop where
  known : m.features[f.index]? = some reference.feature
  target : ∃ sort, reference.feature.type.sort? = some sort ∧
    reference.target = (Variable.mk reference.feature.name sort).selected
  itself : reference.resolution = .itself →
    m.placeOf f = none ∧ reference.replacement = reference.target
  instances : ∀ ids, reference.resolution = .instances ids → ids.Nodup ∧
    (∀ j, j ∈ ids ↔ j ∈ seen f) ∧ ∃ p, m.placeOf f = some p ∧
      reference.replacement = .disjunction ((r.symbols p.sort ids).map Variable.selected)

namespace Sight
variable {m : FeatureModel} {trees : List Tree} {r : Roster} {seen : FeatureId → List InstanceId}
  {f g : FeatureId} {p : Placed} {k : Constraint} {policy : MissingPolicy}
  {resolve : FeatureId → Except Failure Resolution} {answer : Resolution} {reference : Reference}

theorem placeExists (h : Sight m trees r seen) {n : NodeId} (placed : m.placement f = some n) :
    ∃ p, m.placeOf f = some p := by
  obtain ⟨node, there, -⟩ := h.rostered.wellFormed.placementNode placed
  obtain ⟨i, e, found, rfl⟩ := h.rostered.nodeEntry there
  exact ⟨_, placeOfSome.mpr ⟨_, placed, (h.rostered.mirror found).placed⟩⟩

theorem termsOk (h : Sight m trees r seen) (place : m.placeOf f = some p) {ids : List InstanceId}
    (all : ∀ j ∈ ids, j ∈ seen f) :
    r.terms ids = .ok ((r.symbols p.sort ids).map Variable.selected) := by
  induction ids with
  | nil => rfl
  | cons j ids ih =>
    obtain ⟨x, stored, term⟩ := h.instanceTerm place (all j List.mem_cons_self)
    have rest := ih fun i inside => all i (List.mem_cons_of_mem _ inside)
    have fetched : r.get j = .ok x := fetchEqOk.mpr stored
    unfold Roster.terms at rest ⊢
    rw [List.mapM_cons, rest, fetched, Roster.symbolsCons stored]
    simp only [Functor.map, Except.map, bind, Except.bind, pure, Except.pure, List.map_cons, term]

theorem referred (h : Sight m trees r seen) (answered : resolve f = .ok answer)
    (answers : answer.Answers (m.placement f) fun _ j => j ∈ seen f)
    (done : (CopySource.mk m r policy).refer resolve f = .ok reference) :
    Referred m r seen f reference := by
  have made := CopySource.referParts done
  cases answered.symm.trans made.resolved
  refine ⟨made.known, made.target, fun itself => ?_, fun ids same => ?_⟩
  · rw [itself] at answers
    have unplaced : m.placement f = none := answers
    exact ⟨by simp [FeatureModel.placeOf, unplaced], made.itself itself⟩
  · rw [same] at answers
    obtain ⟨-, distinct, n, placed, exact⟩ := answers
    obtain ⟨p, place⟩ := h.placeExists placed
    obtain ⟨terms, read, replacement⟩ := made.instances ids same
    cases read.symm.trans (h.termsOk place fun j inside => (exact j).mp inside)
    exact ⟨distinct, exact, p, place, replacement⟩

end Sight

structure Replaces (m : FeatureModel) (r : Roster) (seen : FeatureId → List InstanceId)
    (k : Constraint) (lookup : Formula → Option Formula) : Prop where
  atoms : ∀ g : Formula, g.isAtom = false → lookup g = none
  placed : ∀ f ∈ k.referenced, ∀ (p : Placed) (g : Formula), m.placeOf f = some p →
    (Variable.mk p.feature.name p.sort).selected.same g = true →
    ∃ ids, ids.Nodup ∧ (∀ j, j ∈ ids ↔ j ∈ seen f) ∧
      lookup g = some (.disjunction ((r.symbols p.sort ids).map Variable.selected))
  others : ∀ g new : Formula, lookup g = some new →
    (∃ f ∈ k.referenced, ∃ p, m.placeOf f = some p ∧
      (Variable.mk p.feature.name p.sort).selected.same g = true) ∨
    ∃ (f : FeatureId) (v : Variable), m.placeOf f = none ∧ (∃ feature : Feature,
      m.features[f.index]? = some feature ∧ feature.name = v.name) ∧
      v.selected.same g = true ∧ new = v.selected

structure Renames (m : FeatureModel) (r : Roster) (seen : FeatureId → List InstanceId)
    (k : Constraint) (body : Formula) (image : Variable → Option Variable) : Prop where
  given : ∀ v w : Variable, image v = some w → ∃ f ∈ k.referenced, ∃ p single x,
    m.placeOf f = some p ∧ p.feature.name = v.name ∧ seen f = [single] ∧
      r.instances[single.index]? = some x ∧ w = ⟨x.identifier, v.sort⟩
  asked : ∀ f ∈ k.referenced, ∀ (p : Placed) (v : Variable), m.placeOf f = some p →
    p.feature.name = v.name → body.mentionsVariable v.name = true → ∃ w, image v = some w

namespace Sight
variable {m : FeatureModel} {trees : List Tree} {r : Roster} {seen : FeatureId → List InstanceId}
  {f : FeatureId} {p : Placed} {k : Constraint} {policy : MissingPolicy} {reference : Reference}
  {references : List Reference} {body : Formula} {label : String}

theorem referredPlaced (h : Sight m trees r seen) (referred : Referred m r seen f reference)
    (place : m.placeOf f = some p) : reference.feature = p.feature ∧
      reference.target = (Variable.mk p.feature.name p.sort).selected ∧
      ∃ ids, reference.resolution = .instances ids := by
  obtain ⟨-, known, sorted⟩ := h.rostered.wellFormed.placeFeature place
  have same : reference.feature = p.feature := Option.some.inj (referred.known.symm.trans known)
  obtain ⟨sort, typed, target⟩ := referred.target
  rw [same, sorted] at typed
  cases typed
  refine ⟨same, by rw [target, same], ?_⟩
  cases resolution : reference.resolution with
  | itself =>
    have unplaced := (referred.itself resolution).1
    rw [place] at unplaced
    cases unplaced
  | instances ids => exact ⟨ids, rfl⟩

variable {resolve : FeatureId → Except Failure Resolution}

theorem referredIn (h : Sight m trees r seen)
    (resolved : ∀ f ∈ k.referenced, ∃ answer, resolve f = .ok answer ∧
      answer.Answers (m.placement f) fun _ j => j ∈ seen f) (referenced : f ∈ k.referenced)
    (done : (CopySource.mk m r policy).refer resolve f = .ok reference) :
    Referred m r seen f reference := by
  obtain ⟨answer, answered, answers⟩ := resolved f referenced
  exact h.referred answered answers done

theorem replaces (h : Sight m trees r seen)
    (resolved : ∀ f ∈ k.referenced, ∃ answer, resolve f = .ok answer ∧
      answer.Answers (m.placement f) fun _ j => j ∈ seen f)
    (found : List.Forall₂ (fun f reference =>
      (CopySource.mk m r policy).refer resolve f = .ok reference) k.referenced references) :
    Replaces m r seen k
      (Formula.firstReplacement (references.map fun r => (r.target, r.replacement))) where
  atoms := fun g => CopySource.testsAtoms found
  placed := by
    intro f referenced p g place test
    obtain ⟨reference, -, done⟩ := forall₂Left found referenced
    have referred := h.referredIn resolved referenced done
    obtain ⟨-, target, ids, resolution⟩ := h.referredPlaced referred place
    obtain ⟨distinct, exact, p', place', replacement⟩ := referred.instances ids resolution
    cases place.symm.trans place'
    rw [← target] at test
    exact ⟨ids, distinct, exact, replacement ▸
      CopySource.testFound h.rostered.wellFormed found referenced done test⟩
  others := by
    intro g new put
    obtain ⟨f, referenced, reference, done, test, rfl⟩ := CopySource.testPut found put
    have referred := h.referredIn resolved referenced done
    obtain ⟨sort, -, target⟩ := referred.target
    cases resolution : reference.resolution with
    | itself =>
      obtain ⟨unplaced, kept⟩ := referred.itself resolution
      exact .inr ⟨f, ⟨_, sort⟩, unplaced, ⟨_, referred.known, rfl⟩, target ▸ test,
        kept.trans target⟩
    | instances ids =>
      obtain ⟨-, -, p, place, -⟩ := referred.instances ids resolution
      obtain ⟨-, target, -⟩ := h.referredPlaced referred place
      exact .inl ⟨f, referenced, p, place, target ▸ test⟩

theorem renames (h : Sight m trees r seen)
    (resolved : ∀ f ∈ k.referenced, ∃ answer, resolve f = .ok answer ∧
      answer.Answers (m.placement f) fun _ j => j ∈ seen f)
    (found : List.Forall₂ (fun f reference =>
      (CopySource.mk m r policy).refer resolve f = .ok reference) k.referenced references)
    {renamings : List (Option Renaming)}
    (named : List.Forall₂ (fun reference rename =>
      (CopySource.mk m r policy).valueName label body reference = .ok rename)
      references renamings) :
    Renames m r seen k body (Renaming.first (renamings.filterMap id)) where
  given := by
    intro v w image
    obtain ⟨reference, inside, single, x, resolution, stored, source, rfl⟩ :=
      CopySource.valueGiven named image
    obtain ⟨f, referenced, done⟩ := forall₂Right found inside
    have referred := h.referredIn resolved referenced done
    obtain ⟨distinct, exact, p, place, -⟩ := referred.instances _ resolution
    obtain ⟨same, -⟩ := h.referredPlaced referred place
    refine ⟨f, referenced, p, single, x, place, same ▸ source, ?_, stored, rfl⟩
    have perm := (List.perm_ext_iff_of_nodup distinct (h.distinct f)).mpr exact
    exact List.perm_singleton.mp perm.symm
  asked := by
    intro f referenced p v place name mentioned
    obtain ⟨reference, inside, done⟩ := forall₂Left found referenced
    have referred := h.referredIn resolved referenced done
    obtain ⟨same, -, ids, resolution⟩ := h.referredPlaced referred place
    exact CopySource.valueAsked named inside resolution (same ▸ name) mentioned

end Sight

theorem Sight.copyMade {m : FeatureModel} {trees : List Tree} {r : Roster}
    {seen : FeatureId → List InstanceId} (h : Sight m trees r seen) {k : Constraint}
    {policy : MissingPolicy} {label : String} {resolve : FeatureId → Except Failure Resolution}
    (resolved : ∀ f ∈ k.referenced, ∃ answer, resolve f = .ok answer ∧
      answer.Answers (m.placement f) fun _ j => j ∈ seen f) {copied : Formula}
    (done : (CopySource.mk m r policy).copy label resolve k = .ok copied) : ∃ lookup image,
    Replaces m r seen k lookup ∧ Renames m r seen k (k.formula.substitute lookup) image ∧
      copied = (k.formula.substitute lookup).renameVariables image := by
  obtain ⟨references, renamings, _, found, named, rfl, rfl⟩ := CopySource.copyParts done
  exact ⟨_, _, h.replaces resolved found, h.renames resolved found named, rfl⟩

end ProductLine
