import ProductLine.Proofs.Copy.References

/-!
A copy of a constraint means the constraint in the view of the copy.
-/
namespace ProductLine

theorem disjunctionRename (image : Variable → Option Variable) {fs : List Formula}
    (kept : ∀ f ∈ fs, f.renameVariables image = f) :
    (Formula.disjunction fs).renameVariables image = .disjunction fs := by
  cases fs with
  | nil => rfl
  | cons f rest =>
    cases rest with
    | nil => exact kept f (by simp)
    | cons g rest =>
      have same : (f :: g :: rest).map (Formula.renameVariables image) = f :: g :: rest := by
        rw [List.map_congr_left kept, List.map_id']
      have several : Formula.disjunction (f :: g :: rest) = .or (f :: g :: rest) := rfl
      rw [several, Formula.renameVariables, Formula.renameVariablesAllMap, same]

theorem Variable.selectedRename {image : Variable → Option Variable} {v : Variable}
    (kept : ∀ w, image v = some w → w = v) : v.selected.renameVariables image = v.selected := by
  have same : (image v).getD v = v := by
    cases found : image v with
    | none => rfl
    | some w => exact kept w found
  unfold selected
  cases v.sort <;> simp [Formula.renameVariables, Term.rename, same]

namespace Formula
variable {f g : Formula} {v : Variable}

theorem varNamed (part : g ∈ f.subformulas) (inside : .var v ∈ g.terms) : v.name ∈ f.names := by
  rw [names, List.mem_eraseDups, List.mem_flatMap]
  refine ⟨g, part, List.mem_map.mpr ⟨v, ?_, rfl⟩⟩
  cases g with
  | comparison op lhs rhs => exact List.mem_filterMap.mpr ⟨_, inside, rfl⟩
  | _ => cases inside

end Formula

namespace Sight
variable {m : FeatureModel} {trees : List Tree} {r : Roster} {seen : FeatureId → List InstanceId}
  {f : FeatureId} {p : Placed} {k : Constraint} {body : Formula} {v : Variable} {a : Assignment}
  {image : Variable → Option Variable} {ids : List InstanceId}

theorem symbolKept (h : Sight m trees r seen) (renames : Renames m r seen k body image)
    (place : m.placeOf f = some p) (inside : v ∈ r.symbols p.sort (seen f)) :
    ∀ w, image v = some w → w = v := by
  intro w renamed
  obtain ⟨j, member, x, stored, rfl⟩ := Roster.memSymbols.mp inside
  obtain ⟨f', -, p', single, x', place', name, only, stored', rfl⟩ := renames.given _ _ renamed
  have w := h.rostered.wellFormed
  obtain ⟨e, found, tree⟩ := h.instancePlace place member
  cases (h.rostered.entryInstance found).symm.trans stored
  have known := (w.placeFeature place).2.1
  have known' := (w.placeFeature place').2.1
  obtain ⟨names, -, -⟩ := h.rostered.entryName h.apart found
    (Array.mem_of_getElem? known') name.symm
  rw [tree] at names
  cases w.featureOfName known known' names
  rw [only, List.mem_singleton] at member
  cases member
  cases (h.rostered.entryInstance found).symm.trans stored'
  rfl

theorem replacementKept (h : Sight m trees r seen) (renames : Renames m r seen k body image)
    (place : m.placeOf f = some p) (exact : ∀ j, j ∈ ids ↔ j ∈ seen f) :
    (Formula.disjunction ((r.symbols p.sort ids).map Variable.selected)).renameVariables image =
      .disjunction ((r.symbols p.sort ids).map Variable.selected) := by
  refine disjunctionRename image fun t inside => ?_
  obtain ⟨v, member, rfl⟩ := List.mem_map.mp inside
  have seen : v ∈ r.symbols p.sort (seen f) := by
    simpa only [Roster.memSymbols, exact] using member
  exact Variable.selectedRename (h.symbolKept renames place seen)

theorem replacementValue (h : Sight m trees r seen) (renames : Renames m r seen k body image)
    (valued : ∀ (i : Nat) (x : Instance), r.instances[i]? = some x → x.term.Valued a)
    (place : m.placeOf f = some p) (exact : ∀ j, j ∈ ids ↔ j ∈ seen f) :
    ((Formula.disjunction ((r.symbols p.sort ids).map Variable.selected)).renameVariables
      image).evaluate a = some ((r.symbols p.sort (seen f)).any fun v => v.selected.isTrue a) := by
  have members : ∀ v, v ∈ r.symbols p.sort ids ↔ v ∈ r.symbols p.sort (seen f) := by
    intro v
    simp only [Roster.memSymbols, exact]
  have known : ∀ t ∈ (r.symbols p.sort ids).map Variable.selected, t.Valued a := by
    intro t inside
    obtain ⟨v, member, rfl⟩ := List.mem_map.mp inside
    obtain ⟨j, listed, x, stored, rfl⟩ := Roster.memSymbols.mp member
    obtain ⟨x', stored', term⟩ := h.instanceTerm place ((exact j).mp listed)
    cases stored.symm.trans stored'
    exact term ▸ valued _ x stored
  rw [h.replacementKept renames place exact, Formula.disjunctionEvaluate known, List.any_map]
  congr 1
  rw [Bool.eq_iff_iff, List.any_eq_true, List.any_eq_true]
  exact exists_congr fun v => and_congr_left fun _ => members v

theorem unplacedOutside (h : Sight m trees r seen) (renames : Renames m r seen k body image)
    (unplaced : m.placeOf f = none) {feature : Feature}
    (known : m.features[f.index]? = some feature) (name : feature.name = v.name) :
    (m.view r seen k).find? (·.own.name == v.name) = none ∧ image v = none := by
  have w := h.rostered.wellFormed
  have other : ∀ f' p', m.placeOf f' = some p' → p'.feature.name ≠ v.name := by
    intro f' p' place same
    cases w.featureOfName (w.placeFeature place).2.1 known (same.trans name.symm)
    cases unplaced.symm.trans place
  constructor
  · refine List.find?_eq_none.mpr fun s listed => ?_
    obtain ⟨f', -, p', place, rfl⟩ := (memView s).mp listed
    simpa using other f' p' place
  · cases renamed : image v with
    | none => rfl
    | some w =>
      obtain ⟨f', -, p', single, x, place, same, -⟩ := renames.given v w renamed
      exact absurd same (other f' p' place)

theorem variableRead (h : Sight m trees r seen) (renames : Renames m r seen k body image)
    (referenced : f ∈ k.referenced) {feature : Feature}
    (known : m.features[f.index]? = some feature) (name : feature.name = v.name)
    (mentioned : body.mentionsVariable v.name = true) :
    ((Term.var v).rename image).value a = (m.view r seen k).value a (.var v) := by
  cases place : m.placeOf f with
  | none =>
    obtain ⟨outside, unrenamed⟩ := h.unplacedOutside renames place known name
    rw [Term.rename, unrenamed, View.value, outside]
    rfl
  | some p =>
    have w := h.rostered.wellFormed
    have own : p.feature.name = v.name := by
      cases (w.placeFeature place).2.1.symm.trans known
      exact name
    obtain ⟨w', renamed⟩ := renames.asked f referenced p v place own mentioned
    obtain ⟨f', -, p', single, x, place', name', only, stored, rfl⟩ := renames.given v w' renamed
    cases w.featureOfName (w.placeFeature place').2.1 (w.placeFeature place).2.1
      (name'.trans own.symm)
    have found : (m.view r seen k).find? (·.own.name == v.name) =
        some ⟨⟨p.feature.name, p.sort⟩, r.symbols p.sort (seen f)⟩ :=
      h.viewUnique referenced place (fun s _ same => (beq_iff_eq.mp same).trans own.symm)
        (beq_iff_eq.mpr own)
    have symbols : r.symbols p.sort (seen f) = [⟨x.identifier, p.sort⟩] := by
      rw [only, Roster.symbolsCons stored]
      rfl
    rw [Term.rename, renamed, View.value, found, symbols]
    rfl

theorem keptRead (h : Sight m trees r seen) (renames : Renames m r seen k body image)
    {g : Formula} (atom : g.isAtom = true) (mentioned : g ∈ body.subformulas)
    (named : ∀ v, .var v ∈ g.terms → ∃ f ∈ k.referenced, ∃ feature : Feature,
      m.features[f.index]? = some feature ∧ feature.name = v.name) :
    (g.renameVariables image).evaluate a = (m.view r seen k).compared a g := by
  have same : ∀ t ∈ g.terms, (t.rename image).value a = (m.view r seen k).value a t := by
    intro t inside
    cases t with
    | var v =>
      obtain ⟨f, referenced, feature, known, name⟩ := named v inside
      exact h.variableRead renames referenced known name (mentions mentioned inside rfl)
    | constant c => rfl
    | aggregate x => rfl
  cases g with
  | literal name => rfl
  | comparison op lhs rhs =>
    rw [Formula.renameVariables, Formula.evaluate, View.compared,
      same lhs (by simp [Formula.terms]), same rhs (by simp [Formula.terms])]
  | _ => cases atom

theorem atomRead (h : Sight m trees r seen) {lookup : Formula → Option Formula}
    (replaces : Replaces m r seen k lookup)
    (renames : Renames m r seen k (k.formula.substitute lookup) image)
    (refers : List.Forall₂ (m.Refers k.formula) k.formula.names k.referenced)
    (valued : ∀ (i : Nat) (x : Instance), r.instances[i]? = some x → x.term.Valued a) {g : Formula}
    (inside : g ∈ k.formula.subformulas) (atom : g.isAtom = true) :
    (((lookup g).getD g).renameVariables image).evaluate a = (m.view r seen k).atom a g := by
  rw [View.atom]
  cases search : (m.view r seen k).find? (·.own.selected.same g) with
  | some s =>
    have test := List.find?_some search
    obtain ⟨f, referenced, p, place, rfl⟩ := (memView s).mp (List.mem_of_find?_eq_some search)
    obtain ⟨ids, -, exact, found⟩ := replaces.placed f referenced p g place test
    rw [found, Option.getD_some]
    exact h.replacementValue renames valued place exact
  | none =>
    have absent := List.find?_eq_none.mp search
    cases found : lookup g with
    | none =>
      have stays := Formula.substituteKeeps replaces.atoms inside atom found
      refine h.keptRead renames atom stays fun v term => ?_
      obtain ⟨f, referenced, known, -⟩ := forall₂Left refers (Formula.varNamed inside term)
      obtain ⟨feature, stored, name⟩ := h.rostered.wellFormed.declared.names.mp known
      exact ⟨f, referenced, feature, stored, name⟩
    | some new =>
      rcases replaces.others g new found with ⟨f, referenced, p, place, test⟩ |
        ⟨f, v, unplaced, ⟨feature, known, name⟩, test, rfl⟩
      · exact absurd test (absent _ ((memView _).mpr ⟨f, referenced, p, place, rfl⟩))
      · obtain ⟨outside, unrenamed⟩ := h.unplacedOutside renames unplaced known name
        rw [Option.getD_some, Variable.selectedRename fun w renamed => by
          rw [unrenamed] at renamed; cases renamed]
        rw [Variable.selectedEvaluate test]
        refine (View.comparedOutside fun t term w var => ?_).symm
        rw [Variable.selectedTerms test term var]
        exact outside

theorem copyReads (h : Sight m trees r seen)
    (refers : List.Forall₂ (m.Refers k.formula) k.formula.names k.referenced)
    {policy : MissingPolicy} {label : String} {resolve : FeatureId → Except Failure Resolution}
    (resolved : ∀ f ∈ k.referenced, ∃ answer, resolve f = .ok answer ∧
      answer.Answers (m.placement f) fun _ j => j ∈ seen f)
    (valued : ∀ (i : Nat) (x : Instance), r.instances[i]? = some x → x.term.Valued a)
    {copied : Formula}
    (done : (CopySource.mk m r policy).copy label resolve k = .ok copied) :
    copied.evaluate a = (m.view r seen k).reads a k.formula := by
  obtain ⟨lookup, image, replaces, renames, rfl⟩ := h.copyMade resolved done
  rw [Formula.renameMeaning, Formula.substituteMeaning replaces.atoms, View.reads]
  refine Formula.meaningCongr fun g inside atom => ?_
  rw [← Formula.renameMeaning]
  exact h.atomRead replaces renames refers valued inside atom

end Sight
end ProductLine
