import ProductLine.Proofs.Compilation.Symbols
import ProductLine.Proofs.Copy.Restated

/-!
The full encoding beside the simple one in models with nothing below their repeated nodes. Both
compile the same models, and what the simple one says of a constraint is among the copies of it that
the full one makes.
-/
namespace ProductLine

def Occasion.whole? : Occasion → Option Nat
  | perClone .. => none
  | whole i => some i

theorem Occasion.wholeSome {o : Occasion} {i : Nat} : o.whole? = some i ↔ o = whole i := by
  cases o <;> simp [whole?]

namespace FeatureModel

def NoneInside (m : FeatureModel) : Prop :=
  ∀ k ∈ m.constraints, ∀ s, m.contexts k = .ok s → s.scope = .plain ∨ s.scope = .across

instance (m : FeatureModel) : Decidable m.NoneInside :=
  decidable_of_iff (∀ k ∈ m.constraints, ∀ s ∈ (m.contexts k).toOption,
      s.scope = .plain ∨ s.scope = .across) (by
    simp only [NoneInside, Option.mem_def, toOptionEqSome])

end FeatureModel

section Refinement
variable {m : FeatureModel} {trees : List Tree} {r : Roster} {places : List Placed} {b : Buckets}
  {policy : MissingPolicy} {k : Constraint}

theorem definiteAlike (w : WellFormed m) (leaves : m.RepeatsLeaves) (reaching : m.NoneInside) :
    m.Definite .full ↔ m.Definite .simple := by
  constructor
  · intro one k declared f n placed repeated compares
    -- What compares a clone concerns a repeated node, and then reaches across.
    obtain ⟨c, own⟩ := w.contextShared placed repeated .refl
    obtain ⟨s, answered, exact⟩ := w.contextsOk k
    have node := (exact _).mpr ⟨f, w.comparesReferenced (w.refers k declared) compares, own⟩
    rcases reaching k declared s answered with plain | across
    · exact ContextSet.scopeOfNode node plain
    · exact one k declared s answered across f c own compares
  · intro definite k declared s _ _ f c own
    obtain ⟨repeated, n, placed, within, -⟩ := w.contextWithin own
    cases w.leafWithin leaves repeated within
    exact definite k declared f c placed repeated

theorem restateEq {g : Formula} (done : Merging.restate places k = .ok g) :
    g = k.formula.substitute (Merging.lookup places) := by
  unfold Merging.restate at done
  dsimp only at done
  split at done
  · cases done
  · exact (Except.ok.inj done).symm

theorem restatedList {restated : List Formula}
    (each : m.constraints.toList.mapM (Merging.restate places) = .ok restated) :
    restated = m.constraints.toList.map fun k => k.formula.substitute (Merging.lookup places) := by
  rw [mapMEqOk] at each
  have same := mapsEqual.mpr (each.imp fun k g done => (restateEq done).symm)
  rw [same, List.map_id']

theorem positionsSplit (h : Rostered m trees r) (reaching : m.NoneInside)
    (buckets : m.buckets = .ok b) : (List.range m.constraints.size).Perm
      (b.plain ++ (Occasion.ofBuckets r b).filterMap Occasion.whole?) := by
  obtain ⟨all, each, sorted⟩ := h.wellFormed.bucketsOk
  cases buckets.symm.trans sorted
  have w := h.wellFormed
  have wholes : ∀ i, i ∈ (Occasion.ofBuckets r (.ofContexts all)).filterMap Occasion.whole? ↔
      ∃ k s, m.constraints[i]? = some k ∧ m.contexts k = .ok s ∧ s.scope = .across := by
    intro i
    simp only [List.mem_filterMap, Occasion.wholeSome, exists_eq_right, h.occasionDue buckets]
    rfl
  refine (List.perm_ext_iff_of_nodup List.nodup_range (List.nodup_append'.mpr
    ⟨Buckets.plainNodup, ?_, ?_⟩)).mpr fun i => ?_
  · exact (Occasion.ofBucketsNodup h.sound).filterMap fun o o' i here there => by
      rw [Option.mem_def, Occasion.wholeSome] at here there
      rw [here, there]
  · intro i here there
    obtain ⟨k, found, root⟩ := (w.plainPosition buckets).mp here
    obtain ⟨k', s, found', answered, across⟩ := (wholes i).mp there
    cases found.symm.trans found'
    cases ((w.contextsPlain answered).mpr root).symm.trans across
  · rw [List.mem_range, List.mem_append, w.plainPosition buckets, wholes]
    constructor
    · intro below
      have found : m.constraints[i]? = some m.constraints[i] := Array.getElem?_eq_getElem below
      obtain ⟨s, answered, -⟩ := w.contextsOk m.constraints[i]
      rcases reaching _ (Array.mem_of_getElem? found) s answered with plain | across
      · exact .inl ⟨_, found, (w.contextsPlain answered).mp plain⟩
      · exact .inr ⟨_, s, found, answered, across⟩
    · rintro (⟨k, found, -⟩ | ⟨k, s, found, -⟩)
      · exact storedBelow found
      · exact storedBelow found

def Merging.restatedAt (m : FeatureModel) (places : List Placed) (i : Nat) : Option Formula :=
  m.constraints[i]?.map fun k => k.formula.substitute (Merging.lookup places)

theorem Merging.restatedAtEqSome {i : Nat} {g : Formula} : restatedAt m places i = some g ↔
    ∃ k, m.constraints[i]? = some k ∧ k.formula.substitute (lookup places) = g :=
  Option.map_eq_some_iff

theorem restatedRange : (List.range m.constraints.size).filterMap (Merging.restatedAt m places) =
    m.constraints.toList.map fun k => k.formula.substitute (Merging.lookup places) := by
  refine forall₂FilterMap (List.forall₂_iff_get.mpr ⟨by simp, fun i here there => ?_⟩)
  rw [List.length_range] at here
  simp [Merging.restatedAt, here]

section Constraints
variable {plain copies : List Formula} (h : Rostered m trees r) (once : m.PlacedOnce)
  (apart : m.NamesApart) (leaves : m.RepeatsLeaves) (oneZero : m.OneZero)
  (repeated : m.RepeatedPlaces places)
  (definite : m.Definite .simple)

include h once repeated in
theorem plainRestated (buckets : m.buckets = .ok b)
    (read : b.plain.mapM (fun i => Constraint.formula <$> m.constraint i) = .ok plain) :
    (b.plain.filterMap (Merging.restatedAt m places)).Sublist plain := by
  rw [mapMEqOk] at read
  have each := (List.forall₂_and_left _ _).mpr ⟨fun i (inside : i ∈ b.plain) => inside, read⟩
  refine forall₂Sublist each fun i y z picked restated => ?_
  obtain ⟨inside, read⟩ := picked
  obtain ⟨k, found, rfl⟩ := mapEqOk.mp read
  obtain ⟨k', there, rfl⟩ := Merging.restatedAtEqSome.mp restated
  cases (fetchEqOk.mp found).symm.trans there
  obtain ⟨k', there', root⟩ := (h.wellFormed.plainPosition buckets).mp inside
  cases there.symm.trans there'
  exact Merging.lookupRooted h.wellFormed once repeated (Array.mem_of_getElem? there) root

include h once apart leaves oneZero repeated definite in
theorem wholesRestated
    (copied : (CopySource.mk m r policy).copies b = .ok copies) :
    ((Occasion.ofBuckets r b).filterMap fun o =>
      o.whole?.bind (Merging.restatedAt m places)).Sublist copies := by
  refine forall₂Sublist (CopySource.copiesEach copied) fun o y z made restated => ?_
  obtain ⟨i, whole, restated⟩ := Option.bind_eq_some_iff.mp restated
  obtain ⟨k, there, rfl⟩ := Merging.restatedAtEqSome.mp restated
  rw [Occasion.wholeSome.mp whole, CopySource.copyForWhole (fetchEqOk.mpr there)] at made
  have declared := Array.mem_of_getElem? there
  exact (unguardedRestated h once apart leaves oneZero repeated declared (definite k declared)
    made).symm

include h once apart leaves oneZero repeated definite in
theorem restatedSubperm (reaching : m.NoneInside) (buckets : m.buckets = .ok b)
    (read : b.plain.mapM (fun i => Constraint.formula <$> m.constraint i) = .ok plain)
    (copied : (CopySource.mk m r policy).copies b = .ok copies) :
    (m.constraints.toList.map fun k => k.formula.substitute (Merging.lookup places)).Subperm
      (plain ++ copies) := by
  have split := (positionsSplit h reaching buckets).filterMap (Merging.restatedAt m places)
  rw [restatedRange, List.filterMap_append, List.filterMap_filterMap] at split
  exact split.subperm.trans ((plainRestated h once repeated buckets read).append
    (wholesRestated h once apart leaves oneZero repeated definite copied)).subperm

include h once apart leaves oneZero repeated definite in
theorem copiesSpeak (buckets : m.buckets = .ok b)
    (read : b.plain.mapM (fun i => Constraint.formula <$> m.constraint i) = .ok plain)
    (copied : (CopySource.mk m r policy).copies b = .ok copies) {g : Formula} {v : Variable}
    (listed : g ∈ plain ++ copies) (spoken : v ∈ g.symbols) :
    v ∈ (Unrolling.ofForest trees).symbols ∨
      ∃ k ∈ m.constraints, v ∈ (k.formula.substitute (Merging.lookup places)).symbols := by
  have w := h.wellFormed
  rcases List.mem_append.mp listed with inside | inside
  · obtain ⟨k, declared, root, rfl⟩ := (w.plainExact buckets read).mp inside
    refine .inr ⟨k, declared, ?_⟩
    rwa [Merging.lookupRooted w once repeated declared root]
  · obtain ⟨o, due, made⟩ := CopySource.copiesFrom h buckets copied inside
    cases o with
    | perClone i c clone =>
      obtain ⟨k, -, there, -, -, many, instant⟩ := h.cloneDue due
      have declared := Array.mem_of_getElem? there
      rw [CopySource.copyForClone (fetchEqOk.mpr there)] at made
      exact (guardedRestated h once apart leaves repeated declared (definite k declared) many
        instant made spoken).imp_right fun said => ⟨k, declared, said⟩
    | whole i =>
      obtain ⟨k, s, there, -⟩ := due
      have declared := Array.mem_of_getElem? there
      rw [CopySource.copyForWhole (fetchEqOk.mpr there)] at made
      rw [unguardedRestated h once apart leaves oneZero repeated declared (definite k declared)
        made] at spoken
      exact .inr ⟨k, declared, spoken⟩

end Constraints

theorem compiledRefines (w : WellFormed m) (once : m.PlacedOnce) (apart : m.NamesApart)
    (leaves : m.RepeatsLeaves) (reaching : m.NoneInside) (oneZero : m.OneZero)
    (definite : m.Definite .simple) {full simple : Compiled}
    (unrolled : m.compileFull policy = .ok full) (merged : m.compileSimple = .ok simple) :
    full.symbols = simple.symbols ∧ simple.conjuncts.Subperm full.conjuncts := by
  obtain ⟨trees, restated, grown, h, each, rfl⟩ := compileSimpleParts w merged
  obtain ⟨trees', b, plain, copies, grown', -, buckets, read, copied, rfl⟩ :=
    compileFullParts w unrolled
  have again : m.unroll = .ok (.ofForest trees) := mapEqOk.mpr ⟨trees, grown, rfl⟩
  rw [Except.ok.inj (grown'.symm.trans again)] at copied ⊢
  -- The trees give both encodings the same: only what follows from the constraints differs.
  rw [← h.leafSymbols leaves, ← h.leafConjuncts leaves, restatedList each, List.append_assoc]
  have repeated := repeatedPlaces w h.tops h.mirrors
  have part := restatedSubperm h once apart leaves oneZero repeated definite reaching buckets read
    copied
  refine ⟨SortedSet.ext fun v => ?_, (List.subperm_append_left _).mpr part⟩
  rw [Compiled.memSymbols, Compiled.memSymbols]
  constructor
  · rintro (own | ⟨g, listed, spoken⟩)
    · exact .inl own
    · rcases List.mem_append.mp listed with tree | constraint
      · exact .inr ⟨g, List.mem_append_left _ tree, spoken⟩
      · refine (copiesSpeak h once apart leaves oneZero repeated definite buckets read copied
          constraint spoken).imp_right fun said => ?_
        obtain ⟨k, declared, said⟩ := said
        exact ⟨_, List.mem_append_right _
          (List.mem_map.mpr ⟨k, Array.mem_toList_iff.mpr declared, rfl⟩), said⟩
  · refine Or.imp_right fun said => ?_
    obtain ⟨g, listed, spoken⟩ := said
    exact ⟨g, ((List.subperm_append_left _).mpr part).subset listed, spoken⟩

/-- If only leaves repeat, and no constraint belongs to one repeated node alone, the full encoding
refines the simple one: it compiles the same models with the same variables, and states all that the
simple one does. The copies for single clones come on top. -/
theorem fullRefinesSimple (built : Built m) (once : m.PlacedOnce) (apart : m.NamesApart)
    (leaves : m.RepeatsLeaves) (reaching : m.NoneInside) (oneZero : m.OneZero)
    (policy policy' : MissingPolicy) :
    ((∃ out, m.compile ⟨.full, policy⟩ = .ok out) ↔ ∃ out, m.compile ⟨.simple, policy'⟩ = .ok out) ∧
    ∀ full simple, m.compile ⟨.full, policy⟩ = .ok full →
      m.compile ⟨.simple, policy'⟩ = .ok simple →
      full.symbols = simple.symbols ∧ simple.conjuncts.Subperm full.conjuncts ∧
      ∀ a : Assignment, full.formula.evaluate a = some true →
        simple.formula.evaluate a = some true := by
  have w := built.wellFormed
  constructor
  · rw [compilesWhen built once apart, compilesWhen built once apart]
    exact and_congr_right fun _ => definiteAlike w leaves reaching
  · intro full simple unrolled merged
    have definite := (compileDone built once apart merged).2
    obtain ⟨-, -, unrolled⟩ := bindEqOk.mp unrolled
    obtain ⟨-, -, merged⟩ := bindEqOk.mp merged
    obtain ⟨symbols, part⟩ := compiledRefines w once apart leaves reaching oneZero definite unrolled
      merged
    refine ⟨symbols, part, fun a satisfied => ?_⟩
    rw [Compiled.formula, Formula.andTrue] at satisfied ⊢
    exact fun f listed => satisfied f (part.subset listed)

end Refinement

namespace Example

def cooledCalls : List Call :=
  [.addRootFeature "Server", .makeMandatory ⟨0⟩, .addChildFeature ⟨0⟩ "Slot",
    .setCardinality ⟨1⟩ 1 2, .addChildFeature ⟨0⟩ "Fan", .setCardinality ⟨2⟩ 0 3,
    .addChildFeature ⟨0⟩ "Panel", .declare "Power" .integer, .addChild ⟨3⟩ ⟨4⟩,
    .declare "Budget" .integer,
    .addConstraint (.implies (.literal "Panel") (.literal "Slot")),
    .addConstraint (.implies (.and [.literal "Slot", .literal "Fan"])
      (.comparison .greater (.var ⟨"Power", .integer⟩) (.constant (.int 0)))),
    .addConstraint (.comparison .less (.var ⟨"Power", .integer⟩) (.var ⟨"Budget", .integer⟩))]

def cooled : FeatureModel := (Call.makeAll cooledCalls .empty).getD .empty

theorem cooledBuilt : Built cooled := by
  have made : Call.makeAll cooledCalls .empty = some cooled := rfl
  exact Built.empty.makeAll made

theorem cooledRefines : Built cooled ∧ cooled.PlacedOnce ∧ cooled.NamesApart ∧
    cooled.RepeatsLeaves ∧ cooled.NoneInside ∧ cooled.OneZero ∧
    ∃ full simple, cooled.compile ⟨.full, .fail⟩ = .ok full ∧
      cooled.compile ⟨.simple, .fail⟩ = .ok simple ∧ full.symbols = simple.symbols ∧
      simple.conjuncts.Subperm full.conjuncts ∧ ∀ a : Assignment,
        full.formula.evaluate a = some true → simple.formula.evaluate a = some true := by
  have once : cooled.PlacedOnce := by decide
  have apart : cooled.NamesApart := FeatureModel.namesApart (by decide)
  have leaves : cooled.RepeatsLeaves := by decide
  have reaching : cooled.NoneInside := by decide
  have oneZero : cooled.OneZero := by decide
  obtain ⟨alike, refines⟩ :=
    fullRefinesSimple cooledBuilt once apart leaves reaching oneZero .fail .fail
  have some : (cooled.compile ⟨.full, .fail⟩).toOption.isSome = true := by decide +kernel
  obtain ⟨full, compiled⟩ := Option.isSome_iff_exists.mp some
  have unrolled := toOptionEqSome.mp compiled
  obtain ⟨simple, merged⟩ := alike.mp ⟨full, unrolled⟩
  exact ⟨cooledBuilt, once, apart, leaves, reaching, oneZero, full, simple, unrolled, merged,
    refines full simple unrolled merged⟩

end Example
end ProductLine
