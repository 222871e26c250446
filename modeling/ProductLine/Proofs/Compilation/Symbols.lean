import ProductLine.Proofs.Compilation.Success
import ProductLine.Proofs.Copy.Symbols

/-!
The variables of a compiled model: those of the instances, and those of the features without a place
that constraints refer to. No other name gets into a conjunct, whether a constraint stands as it is
or is copied.
-/
namespace ProductLine

namespace FeatureModel

def Names (m : FeatureModel) (r : Roster) (v : Variable) : Prop :=
  ∃ (i : Nat) (x : Instance) (feature : Feature), r.instances[i]? = some x ∧
    m.features[x.feature.index]? = some feature ∧ feature.symbol x.identifier = .ok v

def Assumes (m : FeatureModel) (v : Variable) : Prop :=
  ∃ k ∈ m.constraints, ∃ f ∈ k.referenced, m.placement f = none ∧ m.Speaks f v

end FeatureModel

namespace Rostered
variable {m : FeatureModel} {trees : List Tree} {r : Roster} {f : FeatureId} {p : Placed}
  {n c : NodeId} {v w : Variable} {k : Constraint} {i : Nat} {e : Entry}

theorem entryNames (h : Rostered m trees r) :
    m.Names r v ↔ ∃ e ∈ Unrolling.entries trees, e.occurrence.symbol = v := by
  have own : ∀ {i : Nat} {e : Entry}, (Unrolling.entries trees)[i]? = some e → ∃ feature,
      m.features[e.toInstance.feature.index]? = some feature ∧
        feature.symbol e.toInstance.identifier = .ok e.occurrence.symbol := by
    intro i e found
    obtain ⟨stored, known, sorted⟩ := FeatureModel.placedEqOk.mp (h.mirror found).placed
    refine ⟨_, h.entryFeature found (h.mirror found).stored ▸ known, ?_⟩
    rw [entrySymbol found]
    exact Feature.symbolEqOk.mpr ⟨sorted, rfl⟩
  constructor
  · intro named
    obtain ⟨i, x, feature, stored, known, symbol⟩ := named
    obtain ⟨e, found, rfl⟩ := h.instanceEntry stored
    obtain ⟨feature', known', symbol'⟩ := own found
    cases known.symm.trans known'
    exact ⟨e, List.mem_of_getElem? found, Except.ok.inj (symbol'.symm.trans symbol)⟩
  · intro entry
    obtain ⟨e, inside, rfl⟩ := entry
    obtain ⟨i, found⟩ := List.mem_iff_getElem?.mp inside
    obtain ⟨feature, known, symbol⟩ := own found
    exact ⟨i, _, feature, h.entryInstance found, known, symbol⟩

theorem unrolledSymbols (h : Rostered m trees r) :
    v ∈ (Unrolling.ofForest trees).symbols ↔ m.Names r v := by
  rw [h.entryNames, Unrolling.memSymbols]

theorem conjunctNames (h : Rostered m trees r) {g : Formula}
    (listed : g ∈ (Unrolling.ofForest trees).conjuncts) (spoken : v ∈ g.symbols) :
    m.Names r v := by
  obtain ⟨atom, part, own⟩ := Formula.memSymbols.mp spoken
  obtain ⟨e, inside, rfl⟩ := Unrolling.conjunctsAtoms listed part
  rw [Occurrence.term, Variable.selectedSymbols, List.mem_singleton] at own
  exact h.entryNames.mpr ⟨e, inside, own.symm⟩

theorem rootNames (h : Rostered m trees r) (placed : m.placement f = some n)
    (own : m.context f = .ok .root) (speaks : m.Speaks f v) : m.Names r v := by
  obtain ⟨node, found, carries⟩ := h.wellFormed.placementNode placed
  obtain ⟨i, e, there, rfl⟩ := h.nodeEntry found
  have plain := h.entryPlainly there fun c => h.wellFormed.contextRoot own placed
  obtain ⟨stored, known, sorted⟩ := FeatureModel.placedEqOk.mp (h.mirror there).placed
  have place : m.placeOf f = some e.tree.place :=
    placeOfSome.mpr ⟨_, placed, (h.mirror there).placed⟩
  rw [(h.wellFormed.speaksPlace place).mp speaks]
  refine h.entryNames.mpr ⟨e, List.mem_of_getElem? there, ?_⟩
  rw [plain]
  simp [Placed.occurrence, Placed.identifier]

theorem shownNames {seen : FeatureId → List InstanceId} (s : Sight m trees r seen)
    (declared : k ∈ m.constraints) (referenced : f ∈ k.referenced) (shows : m.Shows r seen f v) :
    m.Names r v ∨ m.Assumes v := by
  cases place : m.placeOf f with
  | some p =>
    simp only [FeatureModel.Shows, place] at shows
    exact .inl (s.rostered.entryNames.mpr (s.symbolEntry place shows))
  | none =>
    simp only [FeatureModel.Shows, place] at shows
    refine .inr ⟨k, declared, f, referenced, ?_, shows⟩
    cases placed : m.placement f with
    | none => rfl
    | some n =>
      obtain ⟨p, there⟩ := s.placeExists placed
      cases place.symm.trans there

theorem sharedNowhere (h : Rostered m trees r) (once : m.PlacedOnce) (apart : m.NamesApart)
    (place : m.placeOf f = some p) (own : m.context f = .ok (.within c))
    (accounted : m.Names r v ∨ m.Assumes v) : v.name ≠ p.feature.name := by
  intro same
  rcases accounted with ⟨i, x, feature, stored, known, symbol⟩ |
    ⟨k, -, f', -, unplaced, feature, known, symbol⟩
  · refine (h.sightWhole once apart).sharedUnnamed place own stored ?_
    exact (Feature.symbolEqOk.mp symbol).2.trans same
  · have names := (Feature.symbolEqOk.mp symbol).2.trans same
    cases h.wellFormed.featureOfName known (h.wellFormed.placeFeature place).2.1 names
    simp [FeatureModel.placeOf, unplaced] at place

theorem namesOnce (h : Rostered m trees r) (once : m.PlacedOnce) (apart : m.NamesApart)
    (first : m.Names r v ∨ m.Assumes v) (second : m.Names r w ∨ m.Assumes w)
    (same : v.name = w.name) : v = w := by
  have mixed : ∀ {v w : Variable}, m.Names r v → m.Assumes w → v.name ≠ w.name := by
    intro v w named assumed same
    obtain ⟨e, inside, rfl⟩ := h.entryNames.mp named
    obtain ⟨k, -, f, -, unplaced, feature, known, symbol⟩ := assumed
    obtain ⟨i, found⟩ := List.mem_iff_getElem?.mp inside
    obtain ⟨names, -⟩ := h.entryName apart found (Array.mem_of_getElem? known)
      (same.trans (Feature.symbolEqOk.mp symbol).2.symm)
    obtain ⟨stored, known', -⟩ := FeatureModel.placedEqOk.mp (h.mirror found).placed
    cases h.wellFormed.featureOfName known' known names
    rw [h.wellFormed.placementOnce once stored] at unplaced
    cases unplaced
  rcases first with named | assumed
  · rcases second with named' | assumed'
    · obtain ⟨e, inside, rfl⟩ := h.entryNames.mp named
      obtain ⟨e', inside', rfl⟩ := h.entryNames.mp named'
      obtain ⟨i, found⟩ := List.mem_iff_getElem?.mp inside
      obtain ⟨j, found'⟩ := List.mem_iff_getElem?.mp inside'
      cases h.identifierOnce once apart found found' same
      cases found.symm.trans found'
      rfl
    · exact absurd same (mixed named assumed')
  · rcases second with named' | assumed'
    · exact absurd same.symm (mixed named' assumed)
    · obtain ⟨-, -, f, -, -, speaks⟩ := assumed
      obtain ⟨-, -, f', -, -, speaks'⟩ := assumed'
      exact (h.wellFormed.speaksOnce speaks speaks' same).2

end Rostered

section Constraints
variable {m : FeatureModel} {trees : List Tree} {r : Roster} {policy : MissingPolicy}
  {b : Buckets} {k : Constraint} {f : FeatureId} {g : Formula} {v : Variable} {plain : List Formula}

theorem WellFormed.plainExact (w : WellFormed m) (buckets : m.buckets = .ok b)
    (read : b.plain.mapM (fun i => Constraint.formula <$> m.constraint i) = .ok plain) :
    g ∈ plain ↔ ∃ k ∈ m.constraints, (∀ f ∈ k.referenced, m.context f = .ok .root) ∧
      k.formula = g := by
  rw [mapMEqOk] at read
  constructor
  · intro inside
    obtain ⟨i, position, read⟩ := forall₂Right read inside
    obtain ⟨k, found, rfl⟩ := mapEqOk.mp read
    obtain ⟨k', there, root⟩ := (w.plainPosition buckets).mp position
    cases (fetchEqOk.mp found).symm.trans there
    exact ⟨k, Array.mem_of_getElem? there, root, rfl⟩
  · intro h
    obtain ⟨k, declared, root, rfl⟩ := h
    obtain ⟨i, there⟩ := Array.mem_iff_getElem?.mp declared
    have position := (w.plainPosition buckets).mpr ⟨k, there, root⟩
    obtain ⟨g, inside, read⟩ := forall₂Left read position
    obtain ⟨k', found, rfl⟩ := mapEqOk.mp read
    cases (fetchEqOk.mp found).symm.trans there
    exact inside

theorem plainNames (h : Rostered m trees r) (wellSorted : m.WellSorted)
    (sorted : ∀ k ∈ m.constraints, ∀ f ∈ k.referenced, m.HasSort f) (declared : k ∈ m.constraints)
    (root : ∀ f ∈ k.referenced, m.context f = .ok .root) (spoken : v ∈ k.formula.symbols) :
    m.Names r v ∨ m.Assumes v := by
  obtain ⟨f, referenced, speaks⟩ :=
    (h.wellFormed.constraintSymbols wellSorted declared (sorted k declared)).mp spoken
  cases placed : m.placement f with
  | none => exact .inr ⟨k, declared, f, referenced, placed, speaks⟩
  | some n => exact .inl (h.rootNames placed (root f referenced) speaks)

theorem guardedSymbols (h : Rostered m trees r) (once : m.PlacedOnce) (apart : m.NamesApart)
    (wellSorted : m.WellSorted) (declared : k ∈ m.constraints)
    (sorted : ∀ f ∈ k.referenced, m.HasSort f) {c : NodeId} (repeated : m.repeats c = true)
    {clone : InstanceId} (instant : clone ∈ r.ofNode c)
    (done : (CopySource.mk m r policy).guarded c clone k = .ok g) :
    v ∈ g.symbols ↔ (∃ x, r.instances[clone.index]? = some x ∧ v ∈ x.term.symbols) ∨
      ∃ f ∈ k.referenced, m.Shows r (m.seenFrom r c clone) f v := by
  obtain ⟨guard, found, rest⟩ := bindEqOk.mp done
  obtain ⟨copied, made, last⟩ := bindEqOk.mp rest
  cases pureEqOk.mp last
  have stored : r.instances[clone.index]? = some guard := fetchEqOk.mp found
  have body : v ∈ copied.symbols ↔ _ := (h.sightFrom once apart c clone).copySymbols wellSorted
    declared sorted (fun f _ => h.seenFromAnswers once repeated instant f) made
  rw [← body]
  simp only [Formula.memSymbols, Formula.memImpliesAtoms, or_and_right, exists_or, stored,
    Option.some.injEq, exists_eq_left']

theorem copyForNames (h : Rostered m trees r) (once : m.PlacedOnce) (apart : m.NamesApart)
    (wellSorted : m.WellSorted)
    (sorted : ∀ k ∈ m.constraints, ∀ f ∈ k.referenced, m.HasSort f) {o : Occasion}
    (due : o.Due m r) (done : (CopySource.mk m r policy).copyFor o = .ok g)
    (spoken : v ∈ g.symbols) : m.Names r v ∨ m.Assumes v := by
  cases o with
  | perClone i c clone =>
    obtain ⟨k, -, there, -, -, repeated, instant⟩ := h.cloneDue due
    have declared := Array.mem_of_getElem? there
    rw [CopySource.copyForClone (fetchEqOk.mpr there)] at done
    rcases (guardedSymbols h once apart wellSorted declared (sorted k declared) repeated instant
      done).mp spoken with ⟨x, stored, own⟩ | ⟨f, referenced, shows⟩
    · exact .inl (h.unrolledSymbols.mp (h.instanceSpoken stored own))
    · exact Rostered.shownNames (h.sightFrom once apart c clone) declared referenced shows
  | whole i =>
    obtain ⟨k, s, there, answered, across⟩ := due
    have declared := Array.mem_of_getElem? there
    rw [CopySource.copyForWhole (fetchEqOk.mpr there)] at done
    have sight := h.sightWhole once apart
    obtain ⟨f, referenced, shows⟩ := (sight.copySymbols wellSorted declared (sorted k declared)
      (fun f _ => h.everywhereAnswers once f) done).mp spoken
    exact Rostered.shownNames sight declared referenced shows

theorem assumedCopied (h : Rostered m trees r) (once : m.PlacedOnce) (apart : m.NamesApart)
    (wellSorted : m.WellSorted)
    (sorted : ∀ k ∈ m.constraints, ∀ f ∈ k.referenced, m.HasSort f) (buckets : m.buckets = .ok b)
    {copies : List Formula} (done : (CopySource.mk m r policy).copies b = .ok copies)
    (declared : k ∈ m.constraints) {c : NodeId} {f' : FeatureId} (other : f' ∈ k.referenced)
    (own : m.context f' = .ok (.within c)) (referenced : f ∈ k.referenced)
    (unplaced : m.placement f = none) (speaks : m.Speaks f v) : ∃ g ∈ copies, v ∈ g.symbols := by
  obtain ⟨i, there⟩ := Array.mem_iff_getElem?.mp declared
  obtain ⟨s, answered, exact⟩ := h.wellFormed.contextsOk k
  obtain ⟨repeated, n, placed, within, -⟩ := h.wellFormed.contextWithin own
  obtain ⟨node, found, -⟩ := (Option.any_eq_true _ _).mp repeated
  obtain ⟨clone, instant⟩ := List.exists_mem_of_length_pos (h.ofNodeSome found)
  obtain ⟨x, stored, here⟩ := h.sound.memOfNode.mp instant
  obtain ⟨g, inside, made⟩ := CopySource.copiesDue h buckets done (o := .perClone i c clone)
    ⟨k, s, x, there, answered, (exact _).mpr ⟨f', other, own⟩, stored, here⟩
  rw [CopySource.copyForClone (fetchEqOk.mpr there)] at made
  refine ⟨g, inside, (guardedSymbols h once apart wellSorted declared (sorted k declared) repeated
    instant made).mpr (.inr ⟨f, referenced, ?_⟩)⟩
  simpa [FeatureModel.Shows, FeatureModel.placeOf, unplaced] using speaks

theorem Compiled.memSymbols {given : SortedSet Variable} {conjuncts : List Formula} :
    v ∈ (ofConjuncts given conjuncts).symbols ↔ v ∈ given ∨ ∃ g ∈ conjuncts, v ∈ g.symbols := by
  simp only [ofConjuncts, SortedSet.memInsertMany, List.mem_flatMap, SortedSet.memToList]

theorem fullSymbols (w : WellFormed m) (once : m.PlacedOnce) (apart : m.NamesApart)
    (wellSorted : m.WellSorted) (sorted : ∀ k ∈ m.constraints, ∀ f ∈ k.referenced, m.HasSort f)
    {out : Compiled} (done : m.compileFull policy = .ok out) :
    ∃ trees, m.unroll = .ok (.ofForest trees) ∧
      Rostered m trees (Unrolling.ofForest trees).roster ∧
      (∀ v, v ∈ out.symbols ↔ m.Names (Unrolling.ofForest trees).roster v ∨ m.Assumes v) ∧
      ∀ g ∈ out.conjuncts, ∀ v ∈ g.symbols, v ∈ out.symbols := by
  obtain ⟨trees, b, plain, copies, unrolled, h, buckets, read, copied, rfl⟩ :=
    compileFullParts w done
  refine ⟨trees, unrolled, h, fun v => ?_, fun g listed v own =>
    Compiled.memSymbols.mpr (.inr ⟨g, listed, own⟩)⟩
  rw [Compiled.memSymbols, h.unrolledSymbols]
  constructor
  · intro said
    rcases said with named | ⟨g, listed, own⟩
    · exact .inl named
    · rcases List.mem_append.mp listed with early | copy
      · rcases List.mem_append.mp early with conjunct | verbatim
        · exact .inl (h.conjunctNames conjunct own)
        · obtain ⟨k, declared, root, rfl⟩ := (w.plainExact buckets read).mp verbatim
          exact plainNames h wellSorted sorted declared root own
      · obtain ⟨o, due, made⟩ := CopySource.copiesFrom h buckets copied copy
        exact copyForNames h once apart wellSorted sorted due made own
  · intro accounted
    refine accounted.imp_right fun assumes => ?_
    obtain ⟨k, declared, f, referenced, unplaced, speaks⟩ := assumes
    by_cases root : ∀ f ∈ k.referenced, m.context f = .ok .root
    · have verbatim := (w.plainExact buckets read).mpr ⟨k, declared, root, rfl⟩
      exact ⟨k.formula, List.mem_append_left _ (List.mem_append_right _ verbatim),
        (w.constraintSymbols wellSorted declared (sorted k declared)).mpr ⟨f, referenced, speaks⟩⟩
    · simp only [not_forall] at root
      obtain ⟨f', other, shared⟩ := root
      obtain ⟨own, context, -⟩ := w.contextOk f'
      cases own with
      | root => exact absurd context shared
      | within c =>
        obtain ⟨g, inside, own⟩ := assumedCopied h once apart wellSorted sorted buckets copied
          declared other context referenced unplaced speaks
        exact ⟨g, List.mem_append_right _ inside, own⟩

theorem namedMentioned {name : String}
    (named : g.contains (.literal name) = true ∨ g.mentionsVariable name = true) :
    ∃ v ∈ g.symbols, v.name = name := by
  rcases named with literal | compared
  · exact ⟨⟨name, .boolean⟩, Formula.memSymbols.mpr ⟨_, Formula.containsLiteral.mp literal,
      List.mem_singleton_self _⟩, rfl⟩
  · obtain ⟨atom, part, v, term, name⟩ := Formula.mentionsVar.mp compared
    exact ⟨v, Formula.memSymbols.mpr ⟨atom, part, Formula.comparedSpoken term⟩, name⟩

/-- The variables of a compiled model are those of the instances and of the features without a place
that constraints refer to. No conjunct says the name of a feature that is repeated or below a
repeated node, and no name has two sorts. -/
theorem compiledSymbols (built : Built m) (once : m.PlacedOnce) (apart : m.NamesApart)
    (wellSorted : m.WellSorted) {out : Compiled} (done : m.compile ⟨.full, policy⟩ = .ok out) :
    ∃ u, m.unroll = .ok u ∧
      (∀ v, v ∈ out.symbols ↔ m.Names u.roster v ∨ m.Assumes v) ∧
      (∀ (f : FeatureId) (n c : NodeId) (feature : Feature), m.placement f = some n →
        m.repeats c = true → m.Within c n → m.features[f.index]? = some feature →
        ∀ g ∈ out.conjuncts, g.contains (.literal feature.name) = false ∧
          g.mentionsVariable feature.name = false) ∧
      ∀ v ∈ out.symbols, ∀ w ∈ out.symbols, v.name = w.name → v.sort = w.sort := by
  have w := built.wellFormed
  obtain ⟨_, checked, done⟩ := bindEqOk.mp done
  obtain ⟨-, -, sorted⟩ := checkOk.mp checked
  obtain ⟨trees, unrolled, h, exact, spoken⟩ := fullSymbols w once apart wellSorted sorted done
  refine ⟨_, unrolled, exact, ?_, ?_⟩
  · intro f n c feature placed repeated within known g listed
    obtain ⟨o, context⟩ := w.contextShared placed repeated within
    obtain ⟨p, place⟩ := (h.sightWhole once apart).placeExists placed
    cases (w.placeFeature place).2.1.symm.trans known
    have silent : ¬ (g.contains (.literal p.feature.name) = true ∨
        g.mentionsVariable p.feature.name = true) := by
      intro named
      obtain ⟨v, own, name⟩ := namedMentioned named
      have accounted := (exact v).mp (spoken g listed v own)
      exact h.sharedNowhere once apart place context accounted name
    simpa only [not_or, Bool.not_eq_true] using silent
  · intro v inside v' inside' name
    have same := h.namesOnce once apart ((exact v).mp inside) ((exact v').mp inside') name
    exact congrArg Variable.sort same

end Constraints

namespace Example

def pricedCalls : List Call :=
  rackCalls ++ [.declare "Budget" .integer, .addConstraint (.implies (.literal "Slot")
    (.comparison .greater (.var ⟨"Budget", .integer⟩) (.constant (.int 0))))]

def priced : FeatureModel := (Call.makeAll pricedCalls .empty).getD .empty

theorem pricedBuilt : Built priced := by
  have made : Call.makeAll pricedCalls .empty = some priced := rfl
  exact Built.empty.makeAll made

theorem pricedSymbols : Built priced ∧ priced.PlacedOnce ∧ priced.NamesApart ∧ priced.WellSorted ∧
    ∃ out, priced.compile ⟨.full, .fail⟩ = .ok out ∧ ∃ u, priced.unroll = .ok u ∧
      (∀ v, v ∈ out.symbols ↔ priced.Names u.roster v ∨ priced.Assumes v) ∧
      (∀ (f : FeatureId) (n c : NodeId) (feature : Feature), priced.placement f = some n →
        priced.repeats c = true → priced.Within c n → priced.features[f.index]? = some feature →
        ∀ g ∈ out.conjuncts, g.contains (.literal feature.name) = false ∧
          g.mentionsVariable feature.name = false) ∧
      ∀ v ∈ out.symbols, ∀ w ∈ out.symbols, v.name = w.name → v.sort = w.sort := by
  have once : priced.PlacedOnce := by decide
  have apart : priced.NamesApart := FeatureModel.namesApart (by decide)
  have wellSorted : priced.WellSorted := by decide
  have some : (priced.compile ⟨.full, .fail⟩).toOption.isSome = true := by decide +kernel
  obtain ⟨out, compiled⟩ := Option.isSome_iff_exists.mp some
  have done := toOptionEqSome.mp compiled
  exact ⟨pricedBuilt, once, apart, wellSorted, out, done,
    compiledSymbols pricedBuilt once apart wellSorted done⟩

end Example
end ProductLine
