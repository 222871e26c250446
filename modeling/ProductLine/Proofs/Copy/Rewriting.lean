import ProductLine.Proofs.Copy.Views
import ProductLine.Proofs.Formula.Atoms

/-!
How a copy rewrites a constraint: a reference to each feature is made from what the feature is
resolved to, tests are replaced through the references, and values renamed through them. Nothing is
assumed of the resolution.
-/
namespace ProductLine

theorem Roster.termsEqOk {r : Roster} {ids : List InstanceId} {terms : List Formula} :
    r.terms ids = .ok terms ↔
      List.Forall₂ (fun j g => ∃ x, r.instances[j.index]? = some x ∧ x.term = g) ids terms := by
  unfold Roster.terms Roster.get
  simp only [mapMEqOk, mapEqOk, fetchEqOk]

theorem WellFormed.namedFeature {m : FeatureModel} (w : WellFormed m) {k : Constraint}
    (declared : k ∈ m.constraints) {name : String} (named : name ∈ k.formula.names) :
    ∃ f ∈ k.referenced, m.featureByName name = some f ∧ ∃ feature : Feature,
      m.features[f.index]? = some feature ∧ feature.name = name ∧
      (feature.type.isNumeric = true → k.formula.contains (.literal name) = false) := by
  obtain ⟨f, referenced, refer, feature, known, allowed⟩ := forall₂Left (w.refers k declared) named
  obtain ⟨feature', known', source⟩ := w.declared.names.mp refer
  cases known.symm.trans known'
  exact ⟨f, referenced, refer, feature, known, source, allowed⟩

namespace CopySource

structure Made (s : CopySource) (resolve : FeatureId → Except Failure Resolution) (f : FeatureId)
    (reference : Reference) : Prop where
  resolved : resolve f = .ok reference.resolution
  known : s.model.features[f.index]? = some reference.feature
  target : ∃ sort, reference.feature.type.sort? = some sort ∧
    reference.target = (Variable.mk reference.feature.name sort).selected
  itself : reference.resolution = .itself → reference.replacement = reference.target
  instances : ∀ ids, reference.resolution = .instances ids → ∃ terms,
    s.roster.terms ids = .ok terms ∧ reference.replacement = .disjunction terms

section References
variable {s : CopySource} {resolve : FeatureId → Except Failure Resolution} {f : FeatureId}
  {reference : Reference} {label : String} {body : Formula}

theorem referParts (done : s.refer resolve f = .ok reference) : Made s resolve f reference := by
  obtain ⟨resolution, resolved, rest⟩ := bindEqOk.mp done
  obtain ⟨feature, known, rest⟩ := bindEqOk.mp rest
  obtain ⟨target, plain, last⟩ := bindEqOk.mp rest
  obtain ⟨sort, typed, rfl⟩ := Feature.plainEqOk.mp plain
  have stored : s.model.features[f.index]? = some feature := fetchEqOk.mp known
  cases resolution with
  | itself =>
    cases pureEqOk.mp last
    exact ⟨resolved, stored, ⟨sort, typed, rfl⟩, fun _ => rfl, fun ids same => by cases same⟩
  | instances ids =>
    obtain ⟨terms, read, last⟩ := bindEqOk.mp last
    cases pureEqOk.mp last
    refine ⟨resolved, stored, ⟨sort, typed, rfl⟩, fun same => (by cases same), fun ids' same => ?_⟩
    cases same
    exact ⟨terms, read, rfl⟩

theorem valueNameSome {rename : Renaming}
    (done : s.valueName label body reference = .ok (some rename)) :
    ∃ single x, reference.resolution = .instances [single] ∧
      s.roster.instances[single.index]? = some x ∧
      rename = ⟨reference.feature.name, x.identifier, none⟩ := by
  unfold valueName at done
  split at done
  · cases done
  · rename_i ids resolution
    split at done
    · split at done
      · rename_i single
        obtain ⟨x, fetched, last⟩ := bindEqOk.mp done
        cases pureEqOk.mp last
        exact ⟨single, x, resolution, fetchEqOk.mp fetched, rfl⟩
      · cases done
    · cases done

theorem valueNameAsked {ids : List InstanceId} {rename : Option Renaming}
    (resolution : reference.resolution = .instances ids)
    (asked : body.mentionsVariable reference.feature.name = true)
    (done : s.valueName label body reference = .ok rename) : ∃ given, rename = some given := by
  unfold valueName at done
  rw [resolution] at done
  dsimp only at done
  rw [if_pos asked] at done
  split at done
  · obtain ⟨x, -, last⟩ := bindEqOk.mp done
    exact ⟨_, (pureEqOk.mp last).symm⟩
  · cases done

end References

structure Rewrites (s : CopySource) (resolve : FeatureId → Except Failure Resolution)
    (k : Constraint) (lookup : Formula → Option Formula) (image : Variable → Option Variable) :
    Prop where
  atoms : ∀ g : Formula, g.isAtom = false → lookup g = none
  found : ∀ f ∈ k.referenced, ∃ reference, s.refer resolve f = .ok reference ∧
    ∀ g, reference.target.same g = true → lookup g = some reference.replacement
  put : ∀ g new, lookup g = some new → ∃ f ∈ k.referenced, ∃ reference,
    s.refer resolve f = .ok reference ∧ reference.target.same g = true ∧
      new = reference.replacement
  given : ∀ v w, image v = some w → ∃ f ∈ k.referenced, ∃ reference single x,
    s.refer resolve f = .ok reference ∧ reference.resolution = .instances [single] ∧
      s.roster.instances[single.index]? = some x ∧ reference.feature.name = v.name ∧
      w = ⟨x.identifier, v.sort⟩
  asked : ∀ f ∈ k.referenced, ∀ reference ids v, s.refer resolve f = .ok reference →
    reference.resolution = .instances ids → reference.feature.name = v.name →
    (k.formula.substitute lookup).mentionsVariable v.name = true → ∃ w, image v = some w

section Copies
variable {s : CopySource} {resolve : FeatureId → Except Failure Resolution} {f : FeatureId}
  {k : Constraint} {label : String} {body g new copied : Formula} {references : List Reference}
  {renamings : List (Option Renaming)} {v w : Variable} {reference : Reference}

theorem copyParts (done : s.copy label resolve k = .ok copied) :
    ∃ (references : List Reference) (renamings : List (Option Renaming)) (body : Formula),
      List.Forall₂ (fun f reference => s.refer resolve f = .ok reference) k.referenced references ∧
      List.Forall₂ (fun reference rename => s.valueName label body reference = .ok rename)
        references renamings ∧
      body = k.formula.substitute
        (Formula.firstReplacement (references.map fun r => (r.target, r.replacement))) ∧
      copied = body.renameVariables (Renaming.first (renamings.filterMap id)) := by
  obtain ⟨references, found, rest⟩ := bindEqOk.mp done
  obtain ⟨renamings, named, last⟩ := bindEqOk.mp rest
  rw [mapMEqOk] at found named
  exact ⟨references, renamings, _, found, named, rfl, (pureEqOk.mp last).symm⟩

theorem testsAtoms (made : List.Forall₂ (fun f reference =>
      s.refer resolve f = .ok reference) k.referenced references)
    (compound : g.isAtom = false) :
    Formula.firstReplacement (references.map fun r => (r.target, r.replacement)) g = none := by
  refine firstReplacementAtoms (fun pair inside => ?_) compound
  obtain ⟨reference, listed, rfl⟩ := List.mem_map.mp inside
  obtain ⟨f, -, done⟩ := forall₂Right made listed
  obtain ⟨sort, -, target⟩ := (referParts done).target
  exact ⟨_, target⟩

theorem testPut (made : List.Forall₂ (fun f reference =>
      s.refer resolve f = .ok reference) k.referenced references)
    (put : Formula.firstReplacement (references.map fun r => (r.target, r.replacement)) g =
      some new) : ∃ f ∈ k.referenced, ∃ reference, s.refer resolve f = .ok reference ∧
        reference.target.same g = true ∧ new = reference.replacement := by
  rw [Formula.firstReplacement, Option.map_eq_some_iff] at put
  obtain ⟨pair, search, rfl⟩ := put
  have test := List.find?_some search
  obtain ⟨reference, listed, rfl⟩ := List.mem_map.mp (List.mem_of_find?_eq_some search)
  obtain ⟨f, referenced, done⟩ := forall₂Right made listed
  exact ⟨f, referenced, reference, done, test, rfl⟩

theorem testFound (w : WellFormed s.model)
    (made : List.Forall₂ (fun f reference =>
      s.refer resolve f = .ok reference) k.referenced references)
    (referenced : f ∈ k.referenced) (own : s.refer resolve f = .ok reference)
    (test : reference.target.same g = true) :
    Formula.firstReplacement (references.map fun r => (r.target, r.replacement)) g =
      some reference.replacement := by
  obtain ⟨reference', listed, own'⟩ := forall₂Left made referenced
  cases own.symm.trans own'
  cases put : Formula.firstReplacement (references.map fun r => (r.target, r.replacement)) g with
  | none =>
    rw [Formula.firstReplacement, Option.map_eq_none_iff] at put
    exact absurd test (List.find?_eq_none.mp put _ (List.mem_map.mpr ⟨reference, listed, rfl⟩))
  | some new =>
    obtain ⟨f', -, other, done, test', rfl⟩ := testPut made put
    obtain ⟨sort, -, target⟩ := (referParts own).target
    obtain ⟨sort', -, target'⟩ := (referParts done).target
    rw [target] at test
    rw [target'] at test'
    cases w.featureOfName (referParts done).known (referParts own).known
      (Variable.selectedName test' test)
    cases own.symm.trans done
    rfl

theorem valueGiven (named : List.Forall₂ (fun reference rename =>
      s.valueName label body reference = .ok rename) references renamings)
    (image : Renaming.first (renamings.filterMap id) v = some w) :
    ∃ reference ∈ references, ∃ single x, reference.resolution = .instances [single] ∧
      s.roster.instances[single.index]? = some x ∧ reference.feature.name = v.name ∧
      w = ⟨x.identifier, v.sort⟩ := by
  rw [Renaming.first, Option.map_eq_some_iff] at image
  obtain ⟨rename, search, rfl⟩ := image
  have chosen := List.find?_some search
  obtain ⟨_, listed, rfl⟩ := List.mem_filterMap.mp (List.mem_of_find?_eq_some search)
  obtain ⟨reference, inside, done⟩ := forall₂Right named listed
  obtain ⟨single, x, resolution, stored, rfl⟩ := valueNameSome done
  exact ⟨reference, inside, single, x, resolution, stored, by simpa using chosen, rfl⟩

theorem valueAsked {ids : List InstanceId} (named : List.Forall₂ (fun reference rename =>
      s.valueName label body reference = .ok rename) references renamings)
    (inside : reference ∈ references) (resolution : reference.resolution = .instances ids)
    (source : reference.feature.name = v.name) (asked : body.mentionsVariable v.name = true) :
    ∃ w, Renaming.first (renamings.filterMap id) v = some w := by
  obtain ⟨rename, listed, done⟩ := forall₂Left named inside
  obtain ⟨given, rfl⟩ := valueNameAsked resolution (source ▸ asked) done
  obtain ⟨single, x, -, -, rfl⟩ := valueNameSome done
  cases search : (renamings.filterMap id).find? fun r => r.source == v.name with
  | none =>
    have missed := List.find?_eq_none.mp search _ (List.mem_filterMap.mpr ⟨_, listed, rfl⟩)
    simp [source] at missed
  | some rename =>
    refine ⟨⟨rename.target, rename.sort.getD v.sort⟩, ?_⟩
    rw [Renaming.first, search]
    rfl

theorem copyRewrites (w : WellFormed s.model) (done : s.copy label resolve k = .ok copied) :
    ∃ lookup image, Rewrites s resolve k lookup image ∧
      copied = (k.formula.substitute lookup).renameVariables image := by
  obtain ⟨references, renamings, _, made, named, rfl, rfl⟩ := copyParts done
  refine ⟨_, _, ⟨fun g => testsAtoms made, fun f referenced => ?_, fun g new => testPut made,
    fun v w image => ?_, fun f referenced reference ids v own resolution source asked => ?_⟩, rfl⟩
  · obtain ⟨reference, -, own⟩ := forall₂Left made referenced
    exact ⟨reference, own, fun g => testFound w made referenced own⟩
  · obtain ⟨reference, listed, single, x, facts⟩ := valueGiven named image
    obtain ⟨f, referenced, own⟩ := forall₂Right made listed
    exact ⟨f, referenced, reference, single, x, own, facts⟩
  · obtain ⟨reference', listed, own'⟩ := forall₂Left made referenced
    cases own.symm.trans own'
    exact valueAsked named listed resolution source asked

namespace Rewrites
variable {lookup : Formula → Option Formula} {image : Variable → Option Variable} {name : String}
  {ids : List InstanceId}

theorem literalPut (rewrites : Rewrites s resolve k lookup image) (w : WellFormed s.model)
    (declared : k ∈ s.model.constraints) (inside : .literal name ∈ k.formula.atoms) :
    ∃ f ∈ k.referenced, s.model.featureByName name = some f ∧ ∃ reference,
      s.refer resolve f = .ok reference ∧ reference.target = .literal name ∧
      lookup (.literal name) = some reference.replacement := by
  have spoken : ⟨name, .boolean⟩ ∈ k.formula.symbols :=
    Formula.memSymbols.mpr ⟨_, inside, List.mem_singleton_self _⟩
  obtain ⟨f, referenced, named, feature, known, source, literal⟩ :=
    w.namedFeature declared (Formula.memNames.mpr ⟨_, spoken, rfl⟩)
  obtain ⟨reference, done, put⟩ := rewrites.found f referenced
  have made := referParts done
  cases known.symm.trans made.known
  obtain ⟨sort, typed, target⟩ := made.target
  have boolean : sort = .boolean := by
    rw [Formula.containsLiteral.mpr inside] at literal
    cases type : reference.feature.type <;> simp_all [FeatureType.isNumeric, FeatureType.sort?]
  rw [boolean, source] at target
  exact ⟨f, referenced, named, reference, done, target,
    put _ (Formula.sameLiteral.mpr target)⟩

theorem valueSole (rewrites : Rewrites s resolve k lookup image) (w : WellFormed s.model)
    (inside : g ∈ k.formula.atoms) (kept : lookup g = none) (term : .var v ∈ g.terms)
    (referenced : f ∈ k.referenced) (done : s.refer resolve f = .ok reference)
    (resolution : reference.resolution = .instances ids)
    (source : reference.feature.name = v.name) :
    ∃ single x, ids = [single] ∧ s.roster.instances[single.index]? = some x ∧
      image v = some ⟨x.identifier, v.sort⟩ := by
  obtain ⟨part, atom⟩ := Formula.memAtoms.mp inside
  have asked := mentions (Formula.substituteKeeps rewrites.atoms part atom kept) term rfl
  obtain ⟨value, renamed⟩ :=
    rewrites.asked f referenced reference ids v done resolution source asked
  obtain ⟨f', -, reference', single, x, done', alone, stored, source', rfl⟩ :=
    rewrites.given v value renamed
  cases w.featureOfName (referParts done').known (referParts done).known
    (source'.trans source.symm)
  cases done.symm.trans done'
  cases resolution.symm.trans alone
  exact ⟨single, x, rfl, stored, renamed⟩

end Rewrites
end Copies
end CopySource
end ProductLine
