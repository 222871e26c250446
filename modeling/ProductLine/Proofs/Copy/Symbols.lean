import ProductLine.Proofs.Copy.Values

/-!
The variables of copies. Where compared variables have the sorts of their features, a constraint
speaks exactly of the features that it refers to, and a copy of what it sees of each of them.
-/
namespace ProductLine

namespace FeatureModel

/-- Every compared variable has the sort of the feature that it is named after. -/
def WellSorted (m : FeatureModel) : Prop :=
  ∀ k ∈ m.constraints, ∀ g ∈ k.formula.subformulas, ∀ v ∈ g.terms.filterMap Term.var?,
    ∀ feature ∈ m.features, feature.name = v.name → ∀ s ∈ feature.type.sort?, v.sort = s

instance (m : FeatureModel) : Decidable m.WellSorted :=
  inferInstanceAs (Decidable (∀ k ∈ m.constraints, ∀ g ∈ k.formula.subformulas,
    ∀ v ∈ g.terms.filterMap Term.var?, ∀ feature ∈ m.features, _))

def Speaks (m : FeatureModel) (f : FeatureId) (v : Variable) : Prop :=
  ∃ feature, m.features[f.index]? = some feature ∧ feature.symbol feature.name = .ok v

def Shows (m : FeatureModel) (r : Roster) (seen : FeatureId → List InstanceId) (f : FeatureId)
    (v : Variable) : Prop :=
  match m.placeOf f with
  | some p => v ∈ r.symbols p.sort (seen f)
  | none => m.Speaks f v

end FeatureModel

namespace WellFormed
variable {m : FeatureModel} {f f' : FeatureId} {k : Constraint} {g : Formula} {u v : Variable}

theorem speaksOnce (w : WellFormed m) (first : m.Speaks f u) (second : m.Speaks f' v)
    (same : u.name = v.name) : f = f' ∧ u = v := by
  obtain ⟨feature, known, symbol⟩ := first
  obtain ⟨feature', known', symbol'⟩ := second
  obtain ⟨sort, name⟩ := Feature.symbolEqOk.mp symbol
  obtain ⟨sort', name'⟩ := Feature.symbolEqOk.mp symbol'
  cases w.featureOfName known known' (name.trans (same.trans name'.symm))
  cases known.symm.trans known'
  exact ⟨rfl, Except.ok.inj (symbol.symm.trans symbol')⟩

theorem speaksPlace (w : WellFormed m) {p : Placed} (place : m.placeOf f = some p) :
    m.Speaks f u ↔ u = ⟨p.feature.name, p.sort⟩ := by
  obtain ⟨-, known, sorted⟩ := w.placeFeature place
  have own := Feature.symbolEqOk (v := ⟨p.feature.name, p.sort⟩).mpr ⟨sorted, rfl⟩
  simp [FeatureModel.Speaks, known, own, eq_comm]

theorem showsUnplaced {r : Roster} {seen : FeatureId → List InstanceId}
    (unplaced : m.placeOf f = none) (speaks : m.Speaks f u) : m.Shows r seen f v ↔ u = v := by
  simp only [FeatureModel.Shows, unplaced]
  constructor
  · intro speaks'
    obtain ⟨feature, known, symbol⟩ := speaks
    obtain ⟨feature', known', symbol'⟩ := speaks'
    cases known.symm.trans known'
    exact Except.ok.inj (symbol.symm.trans symbol')
  · rintro rfl
    exact speaks

theorem spokenFeature (w : WellFormed m) (wellSorted : m.WellSorted) (declared : k ∈ m.constraints)
    (sorted : ∀ f ∈ k.referenced, m.HasSort f) (inside : g ∈ k.formula.atoms)
    (spoken : u ∈ g.ownSymbols) : ∃ f ∈ k.referenced, m.Speaks f u := by
  have named : u.name ∈ k.formula.names :=
    Formula.memNames.mpr ⟨u, Formula.memSymbols.mpr ⟨g, inside, spoken⟩, rfl⟩
  obtain ⟨f, referenced, refer, feature, known, allowed⟩ := forall₂Left (w.refers k declared) named
  obtain ⟨feature', stored, name⟩ := w.declared.names.mp refer
  cases known.symm.trans stored
  obtain ⟨_, s, stored, sort⟩ := sorted f referenced
  cases known.symm.trans stored
  refine ⟨f, referenced, feature, known, Feature.symbolEqOk.mpr ⟨?_, name⟩⟩
  rcases Formula.spokenCases spoken with ⟨rfl, boolean⟩ | term
  · rw [Formula.containsLiteral.mpr inside] at allowed
    rw [boolean]
    cases type : feature.type with
    | boolean => rfl
    | text =>
      rw [type] at sort
      cases sort
    | integer => exact absurd (allowed (by rw [type]; rfl)) (by simp)
    | float => exact absurd (allowed (by rw [type]; rfl)) (by simp)
  · have own := wellSorted k declared g (Formula.memAtoms.mp inside).1 u
      (List.mem_filterMap.mpr ⟨_, term, rfl⟩) feature (Array.mem_of_getElem? known) name s sort
    rw [sort, own]

theorem referencedSpeaks (w : WellFormed m) (wellSorted : m.WellSorted)
    (declared : k ∈ m.constraints) (sorted : ∀ f ∈ k.referenced, m.HasSort f)
    (referenced : f ∈ k.referenced) : ∃ u ∈ k.formula.symbols, m.Speaks f u := by
  obtain ⟨name, named, refer, -⟩ := forall₂Right (w.refers k declared) referenced
  obtain ⟨u, spoken, rfl⟩ := Formula.memNames.mp named
  obtain ⟨g, inside, own⟩ := Formula.memSymbols.mp spoken
  obtain ⟨f', -, feature', known', symbol⟩ :=
    w.spokenFeature wellSorted declared sorted inside own
  obtain ⟨feature, known, name⟩ := w.declared.names.mp refer
  cases w.featureOfName known' known ((Feature.symbolEqOk.mp symbol).2.trans name.symm)
  exact ⟨u, spoken, feature', known', symbol⟩

theorem constraintSymbols (w : WellFormed m) (wellSorted : m.WellSorted)
    (declared : k ∈ m.constraints) (sorted : ∀ f ∈ k.referenced, m.HasSort f) :
    v ∈ k.formula.symbols ↔ ∃ f ∈ k.referenced, m.Speaks f v := by
  constructor
  · intro spoken
    obtain ⟨g, inside, own⟩ := Formula.memSymbols.mp spoken
    exact w.spokenFeature wellSorted declared sorted inside own
  · intro h
    obtain ⟨f, referenced, feature, known, symbol⟩ := h
    obtain ⟨u, spoken, feature', known', symbol'⟩ :=
      w.referencedSpeaks wellSorted declared sorted referenced
    cases known.symm.trans known'
    cases symbol.symm.trans symbol'
    exact spoken

end WellFormed

namespace Sight
variable {m : FeatureModel} {trees : List Tree} {r : Roster} {seen : FeatureId → List InstanceId}
  {f : FeatureId} {p : Placed} {k : Constraint} {g new body : Formula} {u v : Variable}
  {lookup : Formula → Option Formula} {image : Variable → Option Variable}

theorem unplacedKept (h : Sight m trees r seen) (renames : Renames m r seen k body image)
    (unplaced : m.placeOf f = none) (speaks : m.Speaks f u) : image u = none := by
  obtain ⟨feature, known, symbol⟩ := speaks
  exact (h.unplacedOutside renames unplaced known (Feature.symbolEqOk.mp symbol).2).2

theorem testShown (h : Sight m trees r seen) (replaces : Replaces m r seen k lookup)
    (renames : Renames m r seen k body image) (speaks : m.Speaks f u) (own : g.ownSymbols = [u])
    (found : lookup g = some new) :
    (∃ g' ∈ new.atoms, v ∈ (g'.renameVariables image).ownSymbols) ↔ m.Shows r seen f v := by
  have w := h.rostered.wellFormed
  rcases replaces.others g new found with ⟨f', referenced, p, place, test⟩ |
    ⟨f', v', unplaced, ⟨feature, known, name⟩, test, rfl⟩
  · have same := List.singleton_inj.mp (own.symm.trans (Variable.selectedSpeaks test))
    cases (w.speaksOnce speaks ((w.speaksPlace place).mpr rfl) (congrArg Variable.name same)).1
    obtain ⟨ids, -, exact, put⟩ := replaces.placed f referenced p g place test
    cases found.symm.trans put
    have members : ∀ x, x ∈ r.symbols p.sort ids ↔ x ∈ r.symbols p.sort (seen f) := by
      intro x
      simp only [Roster.memSymbols, exact]
    simp only [FeatureModel.Shows, place, ← members, Formula.memSelectedAtoms]
    constructor
    · intro said
      obtain ⟨_, ⟨x, inside, rfl⟩, spoken⟩ := said
      rw [Variable.selectedRename (h.symbolKept renames place ((members x).mp inside)),
        Variable.selectedSymbols, List.mem_singleton] at spoken
      exact spoken ▸ inside
    · intro inside
      refine ⟨_, ⟨v, inside, rfl⟩, ?_⟩
      rw [Variable.selectedRename (h.symbolKept renames place ((members v).mp inside)),
        Variable.selectedSymbols]
      exact List.mem_singleton_self v
  · cases List.singleton_inj.mp (own.symm.trans (Variable.selectedSpeaks test))
    obtain ⟨feature', known', symbol⟩ := id speaks
    cases w.featureOfName known known' (name.trans (Feature.symbolEqOk.mp symbol).2.symm)
    have kept := h.unplacedKept renames unplaced speaks
    have stays : u.selected.renameVariables image = u.selected :=
      Variable.selectedRename fun x renamed => by rw [kept] at renamed; cases renamed
    rw [WellFormed.showsUnplaced unplaced speaks]
    simp [Variable.selectedAtoms, stays, Variable.selectedSymbols, eq_comm]

theorem literalShown (h : Sight m trees r seen) (replaces : Replaces m r seen k lookup)
    (referenced : f ∈ k.referenced) (speaks : m.Speaks f u) (boolean : u.sort = .boolean)
    (kept : lookup (.literal u.name) = none) : m.Shows r seen f v ↔ u = v := by
  have w := h.rostered.wellFormed
  cases place : m.placeOf f with
  | some p =>
    cases (w.speaksPlace place).mp speaks
    have test : (Variable.mk p.feature.name p.sort).selected = .literal p.feature.name := by
      rw [show p.sort = .boolean from boolean]
      rfl
    obtain ⟨ids, -, -, put⟩ := replaces.placed f referenced p (.literal p.feature.name) place
      (Formula.sameLiteral.mpr test)
    cases kept.symm.trans put
  | none => exact WellFormed.showsUnplaced place speaks

theorem valueShown (h : Sight m trees r seen) (renames : Renames m r seen k body image)
    (referenced : f ∈ k.referenced) (speaks : m.Speaks f u)
    (mentioned : body.mentionsVariable u.name = true) :
    m.Shows r seen f v ↔ (image u).getD u = v := by
  have w := h.rostered.wellFormed
  cases place : m.placeOf f with
  | some p =>
    cases (w.speaksPlace place).mp speaks
    obtain ⟨w', renamed⟩ := renames.asked f referenced p _ place rfl mentioned
    obtain ⟨f', -, p', single, x, place', name, only, stored, rfl⟩ := renames.given _ w' renamed
    cases w.featureOfName (w.placeFeature place').2.1 (w.placeFeature place).2.1 name
    simp only [FeatureModel.Shows, place, only, renamed, Roster.symbolsCons stored,
      Option.getD_some]
    simp [Roster.symbols, eq_comm]
  | none =>
    rw [h.unplacedKept renames place speaks]
    exact WellFormed.showsUnplaced place speaks

theorem keptShown (h : Sight m trees r seen) (replaces : Replaces m r seen k lookup)
    (renames : Renames m r seen k (k.formula.substitute lookup) image)
    (inside : g ∈ k.formula.atoms) (kept : lookup g = none) : ∃ become : Variable → Variable,
    (g.renameVariables image).ownSymbols = g.ownSymbols.map become ∧
      ∀ u ∈ g.ownSymbols, ∀ f ∈ k.referenced, m.Speaks f u →
        ∀ v, m.Shows r seen f v ↔ become u = v := by
  obtain ⟨part, atom⟩ := Formula.memAtoms.mp inside
  have stays := Formula.substituteKeeps replaces.atoms part atom kept
  cases g with
  | literal name =>
    refine ⟨id, rfl, fun u spoken f referenced speaks v => ?_⟩
    cases List.mem_singleton.mp spoken
    exact h.literalShown replaces referenced speaks rfl kept
  | comparison op lhs rhs =>
    refine ⟨fun u => (image u).getD u, ?_, fun u spoken f referenced speaks v => ?_⟩
    · have renamed : ∀ t : Term, (t.rename image).var? = t.var?.map fun u => (image u).getD u := by
        intro t
        cases t <;> rfl
      simp only [Formula.renameVariables, Formula.ownSymbols, List.filterMap_cons,
        List.filterMap_nil, renamed]
      cases lhs.var? <;> cases rhs.var? <;> rfl
    · rcases Formula.spokenCases spoken with ⟨literal, -⟩ | term
      · cases literal
      · exact h.valueShown renames referenced speaks (mentions stays term rfl)
  | _ => cases atom

theorem atomShown (h : Sight m trees r seen) (wellSorted : m.WellSorted)
    (declared : k ∈ m.constraints) (sorted : ∀ f ∈ k.referenced, m.HasSort f)
    (replaces : Replaces m r seen k lookup)
    (renames : Renames m r seen k (k.formula.substitute lookup) image)
    (inside : g ∈ k.formula.atoms) :
    (∃ g' ∈ ((lookup g).getD g).atoms, v ∈ (g'.renameVariables image).ownSymbols) ↔
      ∃ u ∈ g.ownSymbols, ∃ f ∈ k.referenced, m.Speaks f u ∧ m.Shows r seen f v := by
  have w := h.rostered.wellFormed
  have told : ∀ u ∈ g.ownSymbols, ∃ f ∈ k.referenced, m.Speaks f u :=
    fun u spoken => w.spokenFeature wellSorted declared sorted inside spoken
  have once : ∀ {u f f'}, m.Speaks f u → m.Speaks f' u → f = f' :=
    fun first second => (w.speaksOnce first second rfl).1
  cases found : lookup g with
  | some new =>
    obtain ⟨u, own⟩ : ∃ u, g.ownSymbols = [u] := by
      rcases replaces.others g new found with ⟨_, -, p, -, test⟩ | ⟨_, v, -, -, test, -⟩
      · exact ⟨_, Variable.selectedSpeaks test⟩
      · exact ⟨_, Variable.selectedSpeaks test⟩
    obtain ⟨f, referenced, speaks⟩ := told u (own ▸ List.mem_singleton_self u)
    rw [Option.getD_some, h.testShown replaces renames speaks own found, own]
    simp only [List.mem_singleton, exists_eq_left]
    constructor
    · intro shows
      exact ⟨f, referenced, speaks, shows⟩
    · intro shown
      obtain ⟨f', -, speaks', shows⟩ := shown
      exact once speaks' speaks ▸ shows
  | none =>
    obtain ⟨become, renamed, shown⟩ := h.keptShown replaces renames inside found
    rw [Option.getD_none, Formula.atomsAtom (Formula.memAtoms.mp inside).2]
    simp only [List.mem_singleton, exists_eq_left, renamed, List.mem_map]
    refine exists_congr fun u => and_congr_right fun spoken => ?_
    constructor
    · intro same
      obtain ⟨f, referenced, speaks⟩ := told u spoken
      exact ⟨f, referenced, speaks, (shown u spoken f referenced speaks v).mpr same⟩
    · intro h
      obtain ⟨f, referenced, speaks, shows⟩ := h
      exact (shown u spoken f referenced speaks v).mp shows

theorem copySymbols (h : Sight m trees r seen) (wellSorted : m.WellSorted)
    (declared : k ∈ m.constraints) (sorted : ∀ f ∈ k.referenced, m.HasSort f)
    {policy : MissingPolicy} {label : String} {resolve : FeatureId → Except Failure Resolution}
    (resolved : ∀ f ∈ k.referenced, ∃ answer, resolve f = .ok answer ∧
      answer.Answers (m.placement f) fun _ j => j ∈ seen f) {copied : Formula}
    (done : (CopySource.mk m r policy).copy label resolve k = .ok copied) :
    v ∈ copied.symbols ↔ ∃ f ∈ k.referenced, m.Shows r seen f v := by
  obtain ⟨lookup, image, replaces, renames, rfl⟩ := h.copyMade resolved done
  have w := h.rostered.wellFormed
  have each : v ∈ ((k.formula.substitute lookup).renameVariables image).symbols ↔
      ∃ g ∈ k.formula.atoms, ∃ u ∈ g.ownSymbols, ∃ f ∈ k.referenced,
        m.Speaks f u ∧ m.Shows r seen f v := by
    rw [Formula.memSymbols, Formula.atomsRename, Formula.atomsSubstitute replaces.atoms]
    simp only [List.map_flatMap, List.mem_flatMap, List.mem_map]
    constructor
    · intro spoken
      obtain ⟨_, ⟨g, inside, g', part, rfl⟩, own⟩ := spoken
      exact ⟨g, inside, (h.atomShown wellSorted declared sorted replaces renames inside).mp
        ⟨g', part, own⟩⟩
    · intro shown
      obtain ⟨g, inside, told⟩ := shown
      obtain ⟨g', part, own⟩ :=
        (h.atomShown wellSorted declared sorted replaces renames inside).mpr told
      exact ⟨_, ⟨g, inside, g', part, rfl⟩, own⟩
  rw [each]
  constructor
  · intro shown
    obtain ⟨-, -, -, -, f, referenced, -, shows⟩ := shown
    exact ⟨f, referenced, shows⟩
  · intro shown
    obtain ⟨f, referenced, shows⟩ := shown
    obtain ⟨u, spoken, speaks⟩ := w.referencedSpeaks wellSorted declared sorted referenced
    obtain ⟨g, inside, own⟩ := Formula.memSymbols.mp spoken
    exact ⟨g, inside, u, own, f, referenced, speaks, shows⟩

end Sight
end ProductLine
