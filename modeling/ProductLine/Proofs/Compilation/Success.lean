import ProductLine.Compilation
import ProductLine.Proofs.Copy.Success
import ProductLine.Proofs.Encoding.Atoms
import ProductLine.Proofs.Encoding.Merged

/-!
When a model compiles. Apart from what no encoding can handle, only constraints stand in the way
that ask for the value of a feature with several variables.
-/
namespace ProductLine

section Merging
variable {m : FeatureModel} {trees : List Tree} {places : List Placed} {p : Placed} {n : NodeId}
  {f : FeatureId} {k : Constraint} {bad : Failure → Prop}

theorem replacementFresh (apart : m.NamesApart)
    (repeated : m.RepeatedPlaces places)
    (placed : m.placed n = .ok p) {g new : Formula}
    (found : Formula.firstReplacement (places.map Placed.replacement) g = some new) :
    new.mentionsVariable p.feature.name = false := by
  cases mentioned : new.mentionsVariable p.feature.name with
  | false => rfl
  | true =>
    rw [Formula.firstReplacement, Option.map_eq_some_iff] at found
    obtain ⟨pair, search, rfl⟩ := found
    obtain ⟨q, listed, rfl⟩ := List.mem_map.mp (List.mem_of_find?_eq_some search)
    obtain ⟨n', placed', many⟩ := (repeated q).mp listed
    obtain ⟨g', part, v, term, name⟩ := Formula.mentionsVar.mp mentioned
    obtain ⟨o, inside, rfl⟩ := Spread.memTermAtoms.mp part
    have spoken := Formula.comparedSpoken term
    rw [Occurrence.term, Variable.selectedSymbols, List.mem_singleton] at spoken
    obtain ⟨i, position⟩ := List.mem_iff_getElem?.mp inside
    rcases Placed.occurrenceAt.mp position with ⟨-, -, rfl⟩ | ⟨single, -, -⟩
    · have declared := Array.mem_of_getElem? (FeatureModel.placedEqOk.mp placed).2.1
      have declared' := Array.mem_of_getElem? (FeatureModel.placedEqOk.mp placed').2.1
      have plain : q.identifier (some (i + 1)) none = p.identifier none none := by
        rw [spoken] at name
        simpa [Placed.identifier, Placed.occurrence] using name
      obtain ⟨-, numbered, -⟩ := Placed.identifierOnce apart declared' declared plain
      cases numbered
    · cases single.symm.trans many

theorem restatedMentions (w : WellFormed m) (once : m.PlacedOnce) (apart : m.NamesApart)
    (repeated : m.RepeatedPlaces places)
    (declared : k ∈ m.constraints) (listed : p ∈ places) :
    (k.formula.substitute (Formula.firstReplacement
      (places.map Placed.replacement))).mentionsVariable p.feature.name = true ↔
      m.Compares k p.node.feature := by
  obtain ⟨n, placed, many⟩ := (repeated p).mp listed
  obtain ⟨-, known, sorted⟩ := FeatureModel.placedEqOk.mp placed
  have tests : ∀ g, m.Tests p.node.feature g ↔ p.standing.own.selected.same g = true := by
    intro g
    simp [FeatureModel.testsKnown known, sorted, Placed.standing]
  rw [Formula.mentionedAfter (fun _ => firstReplacementAtoms replacementTargets)
    fun g _ new => replacementFresh apart repeated placed]
  constructor
  · intro asked
    obtain ⟨g, inside, kept, v, term, name⟩ := asked
    refine ⟨g, (Formula.memAtoms.mp inside).1, fun f' referenced tested => ?_, v, p.feature, term,
      known, name.symm⟩
    obtain ⟨feature, known', named⟩ := tested.named term
    cases w.featureOfName known' known (named.trans name)
    have put := replacementFound w once repeated placed many ((tests g).mp tested)
    cases kept.symm.trans put
  · intro compares
    have referenced := w.comparesReferenced (w.refers k declared) compares
    obtain ⟨g, inside, untested, v, feature, term, known', name⟩ := compares
    cases known.symm.trans known'
    refine ⟨g, Formula.memAtoms.mpr ⟨inside, Formula.comparedAtom term⟩, ?_, v, term, name.symm⟩
    refine replacementMissing w repeated fun s standing same => ?_
    obtain ⟨n', q, placed', -, rfl⟩ := (memCloneView w).mp standing
    have own : q.feature.name = p.feature.name := by
      rw [name, Variable.selectedTerms same term rfl]
      rfl
    cases w.placeOfName once placed' placed own
    exact untested _ referenced ((tests g).mpr same)

theorem restateAvoids (settled : ∀ p ∈ places, (k.formula.substitute (Formula.firstReplacement
      (places.map Placed.replacement))).mentionsVariable p.feature.name = false ∨
      ∀ feature context, ¬ bad (.rejected (.ambiguousFeatureValue feature context))) :
    Avoids bad (Merging.restate places k) := by
  unfold Merging.restate
  dsimp only
  split
  · rename_i p search
    intro e failed
    cases failed
    rcases settled p (List.mem_of_find?_eq_some search) with unasked | good
    · rw [List.find?_some search] at unasked
      cases unasked
    · exact good _ _
  · exact avoidsOk _

theorem restateDone {f : Formula} (done : Merging.restate places k = .ok f) (listed : p ∈ places) :
    (k.formula.substitute (Formula.firstReplacement
      (places.map Placed.replacement))).mentionsVariable p.feature.name = false := by
  unfold Merging.restate at done
  dsimp only at done
  split at done
  · cases done
  · rename_i search
    simpa using List.find?_eq_none.mp search p listed

end Merging

structure FeatureModel.Encodable (m : FeatureModel) : Prop where
  rooted : m.roots ≠ []
  counted : m.hasRepeatedNode = true → ∀ k ∈ m.constraints, k.formula.containsAggregate = false
  placed : m.Typed
  referenced : ∀ k ∈ m.constraints, ∀ f ∈ k.referenced, ∀ feature : Feature,
    m.features[f.index]? = some feature → feature.type ≠ .text

def FeatureModel.Definite (m : FeatureModel) : Encoding → Prop
  | .full => m.AsksOne
  | .simple => ∀ k ∈ m.constraints, ∀ f n, m.placement f = some n → m.repeats n = true →
      ¬ m.Compares k f

section Checks
variable {m : FeatureModel} {k : Constraint} {f : FeatureId}

theorem FeatureType.sortSome {t : FeatureType} : (∃ s, t.sort? = some s) ↔ t ≠ .text := by
  cases t <;> simp [sort?]

theorem WellFormed.hasSort (w : WellFormed m) (declared : k ∈ m.constraints)
    (referenced : f ∈ k.referenced) : m.HasSort f ↔ ∀ feature : Feature,
      m.features[f.index]? = some feature → feature.type ≠ .text := by
  obtain ⟨feature, found⟩ := w.referencedKnown declared referenced
  have known := fetchEqOk.mp found
  simp [FeatureModel.HasSort, known, FeatureType.sortSome]

theorem WellFormed.typed (w : WellFormed m) {trees : List Tree} (grown : m.forest = .ok trees) :
    m.Typed := by
  obtain ⟨tops, mirrors⟩ := w.forestMirrors grown
  intro node inside
  obtain ⟨i, found⟩ := Array.mem_iff_getElem?.mp inside
  obtain ⟨t, member, s, part, id⟩ := w.forestWhole (n := ⟨i⟩) tops mirrors found
  have placed := (part.mirrors (mirrors t member)).placed
  rw [id] at placed
  obtain ⟨stored, known, sorted⟩ := FeatureModel.placedEqOk.mp placed
  cases Option.some.inj (stored.symm.trans found)
  rw [known, Option.all_some, bne_iff_ne]
  exact FeatureType.sortSome.mp ⟨_, sorted⟩

theorem checkConstraintOk : m.checkConstraint k = .ok () ↔
    (m.hasRepeatedNode = true → k.formula.containsAggregate = false) ∧
      ∀ f ∈ k.referenced, m.HasSort f := by
  have each : ∀ f : FeatureId, (do
      let feature ← m.feature f
      let _ ← feature.sort
      return () : Except Failure Unit) = .ok () ↔ m.HasSort f := by
    intro f
    simp only [bindEqOk, pureEqOk, FeatureModel.feature, fetchEqOk, Feature.sortEqOk, and_true,
      FeatureModel.HasSort, exists_and_left]
  unfold FeatureModel.checkConstraint
  split
  · rename_i conflict
    rw [Bool.and_eq_true] at conflict
    constructor
    · intro done
      cases done
    · intro h
      rw [h.1 conflict.1] at conflict
      cases conflict.2
  · rename_i free
    rw [forMEqOk]
    simp only [each]
    simp_all

theorem checkOk : m.check = .ok () ↔ m.roots ≠ [] ∧
    (m.hasRepeatedNode = true → ∀ k ∈ m.constraints, k.formula.containsAggregate = false) ∧
      ∀ k ∈ m.constraints, ∀ f ∈ k.referenced, m.HasSort f := by
  unfold FeatureModel.check
  split
  · rename_i bare
    refine ⟨fun done => (by cases done), fun h => absurd (List.isEmpty_iff.mp bare) h.1⟩
  · rename_i rooted
    rw [forMEqOk]
    simp only [checkConstraintOk, Array.mem_toList_iff]
    constructor
    · intro each
      exact ⟨fun bare => rooted (List.isEmpty_iff.mpr bare), fun many k declared =>
        (each k declared).1 many, fun k declared => (each k declared).2⟩
    · intro h k declared
      exact ⟨fun many => h.2.1 many k declared, h.2.2 k declared⟩

theorem FeatureModel.Encodable.sorted (w : WellFormed m) (encodable : m.Encodable) :
    ∀ k ∈ m.constraints, ∀ f ∈ k.referenced, m.HasSort f := by
  intro k declared f referenced
  exact (w.hasSort declared referenced).mpr (encodable.referenced k declared f referenced)

theorem FeatureModel.Encodable.checked (w : WellFormed m) (encodable : m.Encodable) :
    m.check = .ok () :=
  checkOk.mpr ⟨encodable.rooted, encodable.counted, encodable.sorted w⟩

end Checks

section Encodings
variable {m : FeatureModel} {policy : MissingPolicy} {bad : Failure → Prop}

theorem WellFormed.plainOk (w : WellFormed m) {b : Buckets} (buckets : m.buckets = .ok b) :
    ∃ fs, b.plain.mapM (fun i => Constraint.formula <$> m.constraint i) = .ok fs := by
  refine mapMExists fun i position => ?_
  obtain ⟨k, there, -⟩ := (w.plainPosition buckets).mp position
  exact ⟨_, mapEqOk.mpr ⟨k, fetchEqOk.mpr there, rfl⟩⟩

theorem compileFullAvoids (w : WellFormed m) (once : m.PlacedOnce) (apart : m.NamesApart)
    (encodable : m.Encodable) (settled : m.AsksOne ∨ ∀ feature context,
      ¬ bad (.rejected (.ambiguousFeatureValue feature context))) :
    Avoids bad (m.compileFull policy) := by
  obtain ⟨trees, unrolled, h⟩ := w.unrollOk encodable.placed
  obtain ⟨all, -, sorted⟩ := w.bucketsOk
  obtain ⟨plain, read⟩ := w.plainOk sorted
  refine avoidsBind (unrolled ▸ avoidsOk _) fun u same => ?_
  cases unrolled.symm.trans same
  refine avoidsBind (sorted ▸ avoidsOk _) fun b same => ?_
  cases sorted.symm.trans same
  refine avoidsBind (read ▸ avoidsOk _) fun _ _ => avoidsBind ?_ fun _ _ => avoidsOk _
  exact CopySource.copiesAvoids h sorted fun o due =>
    copyForAvoids h once apart (encodable.sorted w) settled due

theorem compileSimpleAvoids (w : WellFormed m) (once : m.PlacedOnce) (apart : m.NamesApart)
    (encodable : m.Encodable) (settled : m.Definite .simple ∨ ∀ feature context,
      ¬ bad (.rejected (.ambiguousFeatureValue feature context))) :
    Avoids bad m.compileSimple := by
  obtain ⟨trees, grown⟩ := w.forestExists encodable.placed
  obtain ⟨tops, mirrors⟩ := w.forestMirrors grown
  refine avoidsBind (avoidsBind (grown ▸ avoidsOk _) fun trees' same => ?_) fun _ _ => avoidsOk _
  cases grown.symm.trans same
  refine avoidsBind (avoidsMapM fun k listed => restateAvoids fun p inside => ?_)
    fun _ _ => avoidsOk _
  have repeated := repeatedPlaces w tops mirrors
  have declared := Array.mem_toList_iff.mp listed
  refine settled.imp_left fun definite => ?_
  obtain ⟨n, placed, many⟩ := (repeated p).mp inside
  have found := FeatureModel.placedNode placed
  rw [← Bool.not_eq_true, restatedMentions w once apart repeated declared inside]
  exact definite k declared _ n (w.placementOnce once found)
    ((FeatureModel.repeatsEqTrue found).trans many)

theorem compileAvoids (built : Built m) (once : m.PlacedOnce) (apart : m.NamesApart)
    (encodable : m.Encodable) {settings : Settings}
    (settled : m.Definite settings.encoding ∨ ∀ feature context,
      ¬ bad (.rejected (.ambiguousFeatureValue feature context))) :
    Avoids bad (m.compile settings) := by
  have w := built.wellFormed
  refine avoidsBind (encodable.checked w ▸ avoidsOk ()) fun _ _ => ?_
  obtain ⟨encoding, policy⟩ := settings
  cases encoding with
  | full => exact compileFullAvoids w once apart encodable settled
  | simple => exact compileSimpleAvoids w once apart encodable settled

theorem compileFullParts (w : WellFormed m) {out : Compiled}
    (done : m.compileFull policy = .ok out) :
    ∃ trees b plain copies, m.unroll = .ok (.ofForest trees) ∧
      Rostered m trees (Unrolling.ofForest trees).roster ∧ m.buckets = .ok b ∧
      b.plain.mapM (fun i => Constraint.formula <$> m.constraint i) = .ok plain ∧
      (CopySource.mk m (Unrolling.ofForest trees).roster policy).copies b = .ok copies ∧
      out = .ofConjuncts (Unrolling.ofForest trees).symbols
        ((Unrolling.ofForest trees).conjuncts ++ plain ++ copies) := by
  obtain ⟨u, unrolled, rest⟩ := bindEqOk.mp done
  obtain ⟨b, buckets, rest⟩ := bindEqOk.mp rest
  obtain ⟨plain, read, rest⟩ := bindEqOk.mp rest
  obtain ⟨copies, copied, last⟩ := bindEqOk.mp rest
  obtain ⟨trees, grown, rfl⟩ := mapEqOk.mp unrolled
  obtain ⟨tops, mirrors⟩ := w.forestMirrors grown
  exact ⟨trees, b, plain, copies, unrolled, ⟨w, tops, mirrors, rfl⟩, buckets, read, copied,
    (pureEqOk.mp last).symm⟩

theorem compileFullDone (w : WellFormed m) (once : m.PlacedOnce) (apart : m.NamesApart)
    (sorted : ∀ k ∈ m.constraints, ∀ f ∈ k.referenced, m.HasSort f) {out : Compiled}
    (done : m.compileFull policy = .ok out) : m.Typed ∧ m.AsksOne := by
  obtain ⟨trees, b, plain, copies, unrolled, h, buckets, -, copied, -⟩ := compileFullParts w done
  obtain ⟨trees', grown, -⟩ := mapEqOk.mp unrolled
  exact ⟨w.typed grown, (copiesExist h once apart sorted buckets).mp ⟨copies, copied⟩⟩

theorem compileSimpleParts (w : WellFormed m) {out : Compiled} (done : m.compileSimple = .ok out) :
    ∃ trees restated, m.forest = .ok trees ∧ Rostered m trees (Unrolling.ofForest trees).roster ∧
      m.constraints.toList.mapM (Merging.restate ((trees.flatMap Tree.places).filter
        fun p => p.node.isRepeated)) = .ok restated ∧
      out = .ofConjuncts (.ofList ((trees.flatMap Tree.places).flatMap fun p =>
          (p.spread none).occurrences.map Occurrence.symbol))
        (trees.flatMap (fun t => t.place.rootConjuncts ++ t.mergedBody) ++ restated) := by
  obtain ⟨merged, made, last⟩ := bindEqOk.mp done
  obtain ⟨trees, grown, rest⟩ := bindEqOk.mp made
  obtain ⟨restated, each, built⟩ := bindEqOk.mp rest
  obtain ⟨tops, mirrors⟩ := w.forestMirrors grown
  cases pureEqOk.mp built
  exact ⟨trees, restated, grown, ⟨w, tops, mirrors, rfl⟩, each, (pureEqOk.mp last).symm⟩

theorem compileSimpleDone (w : WellFormed m) (once : m.PlacedOnce) (apart : m.NamesApart)
    {out : Compiled} (done : m.compileSimple = .ok out) : m.Typed ∧ m.Definite .simple := by
  obtain ⟨trees, restated, grown, h, each, -⟩ := compileSimpleParts w done
  refine ⟨w.typed grown, fun k declared f n placed repeated compares => ?_⟩
  rw [mapMEqOk] at each
  obtain ⟨g, -, said⟩ := forall₂Left each (Array.mem_toList_iff.mpr declared)
  obtain ⟨node, found, rfl⟩ := w.placementNode placed
  obtain ⟨p, place⟩ := w.placedExists (w.typed grown) found
  cases Option.some.inj (found.symm.trans (FeatureModel.placedNode place))
  have all := repeatedPlaces w h.tops h.mirrors
  have inside := (all p).mpr ⟨n, place, (FeatureModel.repeatsEqTrue found).symm.trans repeated⟩
  have unasked := restateDone said inside
  rw [(restatedMentions w once apart all declared inside).mpr compares] at unasked
  cases unasked

theorem compileDone (built : Built m) (once : m.PlacedOnce) (apart : m.NamesApart)
    {settings : Settings} {out : Compiled} (done : m.compile settings = .ok out) :
    m.Encodable ∧ m.Definite settings.encoding := by
  have w := built.wellFormed
  obtain ⟨_, checked, done⟩ := bindEqOk.mp done
  obtain ⟨rooted, counted, sorted⟩ := checkOk.mp checked
  have referenced := fun k declared f inside =>
    (w.hasSort declared inside).mp (sorted k declared f inside)
  obtain ⟨encoding, policy⟩ := settings
  cases encoding with
  | full =>
    obtain ⟨typed, definite⟩ := compileFullDone w once apart sorted done
    exact ⟨⟨rooted, counted, typed, referenced⟩, definite⟩
  | simple =>
    obtain ⟨typed, definite⟩ := compileSimpleDone w once apart done
    exact ⟨⟨rooted, counted, typed, referenced⟩, definite⟩

theorem compilesWhen (built : Built m) (once : m.PlacedOnce) (apart : m.NamesApart)
    {settings : Settings} :
    (∃ out, m.compile settings = .ok out) ↔ m.Encodable ∧ m.Definite settings.encoding := by
  constructor
  · intro compiled
    obtain ⟨out, done⟩ := compiled
    exact compileDone built once apart done
  · intro h
    exact avoidsAll.mp (compileAvoids built once apart h.1 (.inl h.2))

/-- A model compiles just when it can be encoded and no constraint asks for a value that has several
variables. Where only the latter is missing the value is called ambiguous; a constraint that belongs
to one repeated node is copied for each of its clones whatever values it asks for. -/
theorem compilesExactly (built : Built m) (once : m.PlacedOnce) (apart : m.NamesApart)
    (settings : Settings) :
    ((∃ out, m.compile settings = .ok out) ↔ m.Encodable ∧ m.Definite settings.encoding) ∧
    (m.Encodable → ¬ m.Definite settings.encoding → ∃ feature context,
      m.compile settings = .error (.rejected (.ambiguousFeatureValue feature context))) ∧
    ∀ u, m.Encodable → m.unroll = .ok u → ∀ k ∈ m.constraints, ∀ s c, m.contexts k = .ok s →
      s.scope = .inside c → ∀ clone ∈ u.roster.ofNode c, ∃ copied,
        (CopySource.mk m u.roster settings.missing).guarded c clone k = .ok copied := by
  have w := built.wellFormed
  refine ⟨compilesWhen built once apart, fun encodable indefinite => ?_, ?_⟩
  · have avoids : Avoids (fun e => ¬ ∃ feature context,
        e = .rejected (.ambiguousFeatureValue feature context)) (m.compile settings) :=
      compileAvoids built once apart encodable (.inr fun feature context other =>
        other ⟨feature, context, rfl⟩)
    cases answer : m.compile settings with
    | ok out => exact absurd (compileDone built once apart answer).2 indefinite
    | error e =>
      obtain ⟨feature, context, rfl⟩ := not_not.mp (avoids e answer)
      exact ⟨feature, context, rfl⟩
  · intro u encodable unrolled k declared s c answered inside clone instant
    obtain ⟨trees, h⟩ := w.rostered unrolled
    have node : .within c ∈ s.toList := by
      rw [ContextSet.scopeInside inside]
      exact List.mem_cons_self
    refine avoidsAll.mp (guardedAvoids h once apart (encodable.sorted w k declared)
      (w.contextsRepeat answered node) instant fun f referenced o own => ?_)
    cases own.symm.trans (w.insideOwn answered inside referenced)
    exact .inl rfl

end Encodings

namespace Example

def fastCalls : List Call :=
  rackCalls ++ [.addConstraint (.implies (.literal "Backup")
    (.comparison .greater (.var ⟨"Speed", .integer⟩) (.constant (.int 100))))]

def fast : FeatureModel := (Call.makeAll fastCalls .empty).getD .empty

theorem fastBuilt : Built fast := by
  have made : Call.makeAll fastCalls .empty = some fast := rfl
  exact Built.empty.makeAll made

theorem fastAmbiguous : Built fast ∧ fast.PlacedOnce ∧ fast.NamesApart ∧ fast.Encodable ∧
    fast.Definite .simple ∧ (∃ out, fast.compile ⟨.simple, .fail⟩ = .ok out) ∧
    ¬ fast.Definite .full ∧ ∃ feature context,
      fast.compile ⟨.full, .fail⟩ =
        .error (.rejected (.ambiguousFeatureValue feature context)) := by
  have once : fast.PlacedOnce := by decide
  have apart : fast.NamesApart := FeatureModel.namesApart (by decide)
  obtain ⟨merged, -⟩ := compilesExactly fastBuilt once apart ⟨.simple, .fail⟩
  obtain ⟨unrolled, refused, -⟩ := compilesExactly fastBuilt once apart ⟨.full, .fail⟩
  have some : (fast.compile ⟨.simple, .fail⟩).toOption.isSome = true := by decide +kernel
  have none : (fast.compile ⟨.full, .fail⟩).toOption.isSome = false := by decide +kernel
  obtain ⟨out, compiled⟩ := Option.isSome_iff_exists.mp some
  obtain ⟨encodable, definite⟩ := merged.mp ⟨out, toOptionEqSome.mp compiled⟩
  have indefinite : ¬ fast.Definite .full := by
    intro definite
    obtain ⟨out, compiled⟩ := unrolled.mpr ⟨encodable, definite⟩
    rw [compiled] at none
    cases none
  exact ⟨fastBuilt, once, apart, encodable, definite, ⟨out, toOptionEqSome.mp compiled⟩, indefinite,
    refused encodable indefinite⟩

end Example
end ProductLine
