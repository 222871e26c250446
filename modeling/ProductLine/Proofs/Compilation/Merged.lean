import ProductLine.Proofs.Compilation.Refinement
import ProductLine.Proofs.Compilation.Symbols

/-!
The variables of a model compiled with the simple encoding: those of its nodes, with the clones in
the place of each repeated node, and those of the features without a place that constraints refer
to. So the name of a repeated feature gets into no conjunct.
-/
namespace ProductLine

namespace FeatureModel

/-- The variable of a node where clones share what lies below them: it is named after the node's
feature, with the number of a clone if the node is repeated. -/
def Merges (m : FeatureModel) (v : Variable) : Prop :=
  ∃ n p, m.placed n = .ok p ∧ v.sort = p.sort ∧
    if p.node.isRepeated then ∃ i, 1 ≤ i ∧ i ≤ p.node.cardinality.upper.toNat ∧
      v.name = p.feature.name ++ "_" ++ toString i
    else v.name = p.feature.name

end FeatureModel

theorem Placed.memSpread {p : Placed} {v : Variable} :
    (∃ o ∈ (p.spread none).occurrences, o.symbol = v) ↔ v.sort = p.sort ∧
      if p.node.isRepeated then ∃ i, 1 ≤ i ∧ i ≤ p.node.cardinality.upper.toNat ∧
        v.name = p.feature.name ++ "_" ++ toString i
      else v.name = p.feature.name := by
  obtain ⟨name, sort⟩ := v
  constructor
  · intro h
    obtain ⟨o, inside, symbol⟩ := h
    obtain ⟨k, position⟩ := List.mem_iff_getElem?.mp inside
    rcases Placed.occurrenceAt.mp position with ⟨repeated, short, rfl⟩ | ⟨single, -, rfl⟩
    · cases symbol
      rw [if_pos repeated]
      exact ⟨rfl, k + 1, by omega, by omega, by simp [identifier, String.append_assoc]⟩
    · cases symbol
      rw [if_neg (by simp [single])]
      exact ⟨rfl, by simp [identifier]⟩
  · intro h
    obtain ⟨rfl, named⟩ := h
    cases repeated : p.node.isRepeated with
    | true =>
      rw [if_pos repeated] at named
      obtain ⟨i, low, high, rfl⟩ := named
      obtain ⟨k, rfl⟩ : ∃ k, i = k + 1 := ⟨i - 1, by omega⟩
      have position : (p.spread none).occurrences[k]? = some (p.occurrence (some (k + 1)) none) :=
        cloneAt repeated (by omega)
      refine ⟨_, List.mem_of_getElem? position, ?_⟩
      simp [occurrence, identifier, String.append_assoc]
    | false =>
      rw [if_neg (by simp [repeated])] at named
      cases named
      have position : (p.spread none).occurrences[0]? = some (p.occurrence none none) :=
        occurrenceAt.mpr (.inr ⟨repeated, rfl, rfl⟩)
      refine ⟨_, List.mem_of_getElem? position, ?_⟩
      simp [occurrence, identifier]

section Merging
variable {m : FeatureModel} {trees : List Tree} {places : List Placed} {p : Placed} {n : NodeId}
  {f : FeatureId} {k : Constraint} {g : Formula} {v : Variable}

theorem mergesOccurrence : m.Merges v ↔
    ∃ n p, m.placed n = .ok p ∧ ∃ o ∈ (p.spread none).occurrences, o.symbol = v := by
  simp only [FeatureModel.Merges, Placed.memSpread]

theorem occurrenceMerges {o : Occurrence} (placed : m.placed n = .ok p)
    (inside : o ∈ (p.spread none).occurrences) (spoken : v ∈ o.term.ownSymbols) : m.Merges v := by
  rw [Occurrence.term, Variable.selectedSymbols, List.mem_singleton] at spoken
  exact mergesOccurrence.mpr ⟨n, p, placed, o, inside, spoken.symm⟩

theorem Tree.mergedAtoms {t : Tree} {h : Formula}
    (listed : h ∈ t.place.rootConjuncts ++ t.mergedBody) (part : g ∈ h.atoms)
    (single : t.place.node.isRepeated = false) :
    ∃ p ∈ t.places, ∃ o ∈ (p.spread none).occurrences, o.term = g := by
  rcases List.mem_append.mp listed with root | body
  · obtain ⟨-, rfl⟩ := Placed.memRootConjuncts.mp root
    rw [Occurrence.termAtoms, List.mem_singleton] at part
    refine ⟨t.place, memPlaces.mpr ⟨t, .whole, rfl⟩, _, ?_, part.symm⟩
    rw [Placed.singleSpread single]
    exact List.mem_singleton_self _
  · obtain ⟨s, within, own⟩ := memMergedBody.mp body
    rcases conjunctsAtoms own part with here | ⟨c, child, below⟩
    · exact ⟨s.place, memPlaces.mpr ⟨s, within, rfl⟩, Spread.memTermAtoms.mp here⟩
    · exact ⟨c.place, memPlaces.mpr ⟨c, within.extend child, rfl⟩, below⟩

theorem treesMerge (w : WellFormed m) (tops : trees.map Tree.id = m.roots)
    (mirrors : ∀ t ∈ trees, Tree.Mirrors m t)
    (listed : g ∈ trees.flatMap fun t => t.place.rootConjuncts ++ t.mergedBody)
    (spoken : v ∈ g.symbols) : m.Merges v := by
  obtain ⟨t, member, inside⟩ := List.mem_flatMap.mp listed
  obtain ⟨h, part, own⟩ := Formula.memSymbols.mp spoken
  have root : t.id ∈ m.roots := tops ▸ List.mem_map.mpr ⟨t, member, rfl⟩
  have single := (FeatureModel.repeatsEqTrue (mirrors t member).stored).symm.trans
    (w.rootSingle root)
  obtain ⟨p, place, o, spread, rfl⟩ := Tree.mergedAtoms inside part single
  obtain ⟨n, placed⟩ := (memPlaced w tops mirrors).mp (List.mem_flatMap.mpr ⟨t, member, place⟩)
  exact occurrenceMerges placed spread own

theorem placesMerge (w : WellFormed m) (tops : trees.map Tree.id = m.roots)
    (mirrors : ∀ t ∈ trees, Tree.Mirrors m t) :
    v ∈ SortedSet.ofList ((trees.flatMap Tree.places).flatMap fun p =>
      (p.spread none).occurrences.map Occurrence.symbol) ↔ m.Merges v := by
  simp only [SortedSet.memOfList, List.mem_flatMap (l := trees.flatMap _),
    memPlaced w tops mirrors, List.mem_map, mergesOccurrence]
  constructor
  · intro h
    obtain ⟨p, ⟨n, placed⟩, named⟩ := h
    exact ⟨n, p, placed, named⟩
  · intro h
    obtain ⟨n, p, placed, named⟩ := h
    exact ⟨p, ⟨n, placed⟩, named⟩

theorem keptSingle (w : WellFormed m) (once : m.PlacedOnce) (repeated : m.RepeatedPlaces places)
    {restated h : Formula} (done : Merging.restate places k = .ok restated)
    (inside : h ∈ k.formula.atoms) (kept : Merging.lookup places h = none)
    (spoken : ⟨p.feature.name, p.sort⟩ ∈ h.ownSymbols) (placed : m.placed n = .ok p) :
    p.node.isRepeated = false := by
  cases many : p.node.isRepeated with
  | false => rfl
  | true =>
    rcases Formula.spokenCases spoken with ⟨literal, boolean⟩ | term
    · have test : (Variable.mk p.feature.name p.sort).selected = h := by
        rw [literal, show p.sort = .boolean from boolean]
        rfl
      have put : Merging.lookup places h = some p.merged := by
        refine replacementFound w once repeated placed many ?_
        rw [literal] at test ⊢
        exact Formula.sameLiteral.mpr test
      cases kept.symm.trans put
    · obtain ⟨part, atom⟩ := Formula.memAtoms.mp inside
      have stays := Formula.substituteKeeps Merging.lookupAtoms part atom kept
      have unasked := restateDone done ((repeated p).mpr ⟨n, placed, many⟩)
      have asked := mentions stays term rfl
      cases asked.symm.trans unasked

theorem restatedNames (w : WellFormed m) (once : m.PlacedOnce) (typed : m.Typed)
    (wellSorted : m.WellSorted) (repeated : m.RepeatedPlaces places) (declared : k ∈ m.constraints)
    (sorted : ∀ f ∈ k.referenced, m.HasSort f) (done : Merging.restate places k = .ok g)
    (spoken : v ∈ g.symbols) : m.Merges v ∨ m.Assumes v := by
  obtain ⟨g', part, own⟩ := Formula.memSymbols.mp spoken
  rw [restateEq done, Formula.atomsSubstitute Merging.lookupAtoms, List.mem_flatMap] at part
  obtain ⟨h, inside, part⟩ := part
  cases found : Merging.lookup places h with
  | some new =>
    rw [found, Option.getD_some] at part
    obtain ⟨pair, search, rfl⟩ := Option.map_eq_some_iff.mp found
    obtain ⟨p, listed, rfl⟩ := List.mem_map.mp (List.mem_of_find?_eq_some search)
    obtain ⟨n, placed, -⟩ := (repeated p).mp listed
    obtain ⟨o, spread, rfl⟩ := Spread.memTermAtoms.mp part
    exact .inl (occurrenceMerges placed spread own)
  | none =>
    rw [found, Option.getD_none, Formula.atomsAtom (Formula.memAtoms.mp inside).2,
      List.mem_singleton] at part
    subst part
    obtain ⟨f, referenced, speaks⟩ := w.spokenFeature wellSorted declared sorted inside own
    cases placement : m.placement f with
    | none => exact .inr ⟨k, declared, f, referenced, placement, speaks⟩
    | some n =>
      obtain ⟨node, stored, -⟩ := w.placementNode placement
      obtain ⟨p, placed⟩ := w.placedExists typed stored
      have place : m.placeOf f = some p := placeOfSome.mpr ⟨n, placement, placed⟩
      cases (w.speaksPlace place).mp speaks
      have single := keptSingle w once repeated done inside found own placed
      exact .inl ⟨n, p, placed, rfl, by rw [if_neg (by simp [single])]⟩

theorem assumedRestated (w : WellFormed m) (once : m.PlacedOnce) (wellSorted : m.WellSorted)
    (repeated : m.RepeatedPlaces places) (declared : k ∈ m.constraints)
    (sorted : ∀ f ∈ k.referenced, m.HasSort f) (done : Merging.restate places k = .ok g)
    (referenced : f ∈ k.referenced) (unplaced : m.placement f = none) (speaks : m.Speaks f v) :
    v ∈ g.symbols := by
  have spoken := (w.constraintSymbols wellSorted declared sorted).mpr ⟨f, referenced, speaks⟩
  obtain ⟨h, inside, own⟩ := Formula.memSymbols.mp spoken
  rw [restateEq done]
  refine Merging.keptSpoken inside (Merging.lookupNone w repeated fun n q placed _ test => ?_) own
  rw [Variable.selectedSpeaks test, List.mem_singleton] at own
  obtain ⟨stored, known, -⟩ := FeatureModel.placedEqOk.mp placed
  obtain ⟨feature, known', symbol⟩ := speaks
  cases w.featureOfName known known' ((congrArg Variable.name own).symm.trans
    (Feature.symbolEqOk.mp symbol).2.symm)
  cases unplaced.symm.trans (w.placementOnce once stored)

theorem repeatedNowhere (w : WellFormed m) (once : m.PlacedOnce) (apart : m.NamesApart)
    (placed : m.placed n = .ok p) (many : p.node.isRepeated = true)
    (accounted : m.Merges v ∨ m.Assumes v) : v.name ≠ p.feature.name := by
  intro same
  obtain ⟨stored, known, -⟩ := FeatureModel.placedEqOk.mp placed
  rcases accounted with ⟨n', q, placed', -, named⟩ | ⟨-, -, f, -, unplaced, feature, known', symbol⟩
  · have known' := (FeatureModel.placedEqOk.mp placed').2.1
    split at named
    · obtain ⟨i, -, -, name⟩ := named
      exact apart.unnumbered _ (Array.mem_of_getElem? known) _ (Array.mem_of_getElem? known') i
        (same.symm.trans name)
    · rename_i single
      cases w.placeOfName once placed' placed (named.symm.trans same)
      exact single many
  · cases w.featureOfName known' known ((Feature.symbolEqOk.mp symbol).2.trans same)
    cases unplaced.symm.trans (w.placementOnce once stored)

/-- The variables of a model compiled with the simple encoding are those of its nodes and clones and
of the features without a place that constraints refer to. The name of a repeated feature is not
among them, so it is in no conjunct, neither as a literal nor compared. -/
theorem simpleSymbols (built : Built m) (once : m.PlacedOnce) (apart : m.NamesApart)
    (wellSorted : m.WellSorted) {policy : MissingPolicy} {out : Compiled}
    (done : m.compile ⟨.simple, policy⟩ = .ok out) :
    (∀ v, v ∈ out.symbols ↔ m.Merges v ∨ m.Assumes v) ∧
    ∀ n p, m.placed n = .ok p → p.node.isRepeated = true →
      (∀ v ∈ out.symbols, v.name ≠ p.feature.name) ∧
      ∀ g ∈ out.conjuncts, g.contains (.literal p.feature.name) = false ∧
        g.mentionsVariable p.feature.name = false := by
  have w := built.wellFormed
  obtain ⟨_, checked, done⟩ := bindEqOk.mp done
  obtain ⟨-, -, sorted⟩ := checkOk.mp checked
  obtain ⟨trees, restated, grown, h, each, same⟩ := compileSimpleParts w done
  have repeated := repeatedPlaces w h.tops h.mirrors
  rw [mapMEqOk] at each
  have exact : ∀ v, v ∈ out.symbols ↔ m.Merges v ∨ m.Assumes v := by
    intro v
    rw [same, Compiled.memSymbols, placesMerge w h.tops h.mirrors]
    constructor
    · intro said
      rcases said with named | ⟨g, listed, own⟩
      · exact .inl named
      · rcases List.mem_append.mp listed with tree | constraint
        · exact .inl (treesMerge w h.tops h.mirrors tree own)
        · obtain ⟨k, declared, done⟩ := forall₂Right each constraint
          rw [Array.mem_toList_iff] at declared
          exact restatedNames w once (w.typed grown) wellSorted repeated declared
            (sorted k declared) done own
    · intro accounted
      refine accounted.imp_right fun assumes => ?_
      obtain ⟨k, declared, f, referenced, unplaced, speaks⟩ := assumes
      obtain ⟨g, listed, done⟩ := forall₂Left each (Array.mem_toList_iff.mpr declared)
      exact ⟨g, List.mem_append_right _ listed, assumedRestated w once wellSorted repeated declared
        (sorted k declared) done referenced unplaced speaks⟩
  refine ⟨exact, fun n p placed many => ?_⟩
  have absent : ∀ v ∈ out.symbols, v.name ≠ p.feature.name :=
    fun v own => repeatedNowhere w once apart placed many ((exact v).mp own)
  refine ⟨absent, fun g listed => ?_⟩
  have silent : ¬ (g.contains (.literal p.feature.name) = true ∨
      g.mentionsVariable p.feature.name = true) := by
    intro named
    obtain ⟨v, own, name⟩ := namedMentioned named
    subst same
    exact absent v (Compiled.memSymbols.mpr (.inr ⟨g, listed, own⟩)) name
  simpa only [not_or, Bool.not_eq_true] using silent

end Merging

theorem Example.pricedSimply : Built priced ∧ priced.PlacedOnce ∧ priced.NamesApart ∧
    priced.WellSorted ∧ ∃ out, priced.compile ⟨.simple, .fail⟩ = .ok out ∧
      (∀ v, v ∈ out.symbols ↔ priced.Merges v ∨ priced.Assumes v) ∧
      ∀ n p, priced.placed n = .ok p → p.node.isRepeated = true →
        (∀ v ∈ out.symbols, v.name ≠ p.feature.name) ∧
        ∀ g ∈ out.conjuncts, g.contains (.literal p.feature.name) = false ∧
          g.mentionsVariable p.feature.name = false := by
  have once : priced.PlacedOnce := by decide
  have apart : priced.NamesApart := FeatureModel.namesApart (by decide)
  have wellSorted : priced.WellSorted := by decide
  have compiles : (priced.compile ⟨.simple, .fail⟩).toOption.isSome = true := by decide +kernel
  obtain ⟨out, done⟩ := toOptionIsSome.mp compiles
  exact ⟨pricedBuilt, once, apart, wellSorted, out, done,
    simpleSymbols pricedBuilt once apart wellSorted done⟩

end ProductLine
