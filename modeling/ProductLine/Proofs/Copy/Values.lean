import ProductLine.Proofs.Copy.Occasions
import ProductLine.Proofs.Encoding.Counts
import ProductLine.Proofs.Encoding.Identifiers
import ProductLine.Proofs.Formula.Atoms

/-!
Values that a constraint asks for. What is left of a comparison with a variable, once the tests of
referenced features are taken away, asks for the value of the variable's feature. A copy has that
value where it sees one instance of the feature, and nothing that it puts in asks for more.
-/
namespace ProductLine

namespace FeatureModel

def Tests (m : FeatureModel) (f : FeatureId) (g : Formula) : Prop :=
  ∃ feature target, m.features[f.index]? = some feature ∧ feature.plainFormula = .ok target ∧
    target.same g = true

/-- Some part that is no test of a referenced feature compares the feature's variable. -/
def Compares (m : FeatureModel) (k : Constraint) (f : FeatureId) : Prop :=
  ∃ g ∈ k.formula.subformulas, (∀ f' ∈ k.referenced, ¬ m.Tests f' g) ∧
    ∃ (v : Variable) (feature : Feature), .var v ∈ g.terms ∧
      m.features[f.index]? = some feature ∧ feature.name = v.name

def HasSort (m : FeatureModel) (f : FeatureId) : Prop :=
  ∃ feature s, m.features[f.index]? = some feature ∧ feature.type.sort? = some s

variable {m : FeatureModel} {f : FeatureId} {g : Formula} {v : Variable}

theorem testsKnown {feature : Feature} (known : m.features[f.index]? = some feature) :
    m.Tests f g ↔ ∃ s, feature.type.sort? = some s ∧
      (Variable.mk feature.name s).selected.same g = true := by
  simp [Tests, known, Feature.plainEqOk]

theorem Tests.named (tests : m.Tests f g) (term : .var v ∈ g.terms) :
    ∃ feature : Feature, m.features[f.index]? = some feature ∧ feature.name = v.name := by
  obtain ⟨feature, target, known, plain, same⟩ := tests
  obtain ⟨s, -, rfl⟩ := Feature.plainEqOk.mp plain
  exact ⟨feature, known, (congrArg Variable.name (Variable.selectedTerms same term rfl)).symm⟩

end FeatureModel

theorem WellFormed.comparesReferenced {m : FeatureModel} (w : WellFormed m) {k : Constraint}
    {f : FeatureId} (refers : List.Forall₂ (m.Refers k.formula) k.formula.names k.referenced)
    (compares : m.Compares k f) : f ∈ k.referenced := by
  obtain ⟨g, inside, -, v, feature, term, known, name⟩ := compares
  obtain ⟨f', referenced, refer, -⟩ := forall₂Left refers (Formula.varNamed inside term)
  obtain ⟨feature', stored, named⟩ := w.declared.names.mp refer
  cases w.featureOfName stored known (named.trans name.symm)
  exact referenced

section Sights
variable {m : FeatureModel} {trees : List Tree} {r : Roster} {f : FeatureId} {n c : NodeId}
  {clone : InstanceId}

theorem Rostered.ofFeatureNode (h : Rostered m trees r) (once : m.PlacedOnce)
    (placed : m.placement f = some n) : (r.ofNode n).Perm (r.ofFeature f) :=
  (List.perm_ext_iff_of_nodup (h.sound.ofNodeNodup n) (Roster.thoseNodup _)).mpr fun _ =>
    h.nodeFeature once placed

theorem Rostered.ofFeatureAlone (h : Rostered m trees r) (once : m.PlacedOnce)
    (placed : m.placement f = some n) (own : m.context f = .ok .root) :
    ∃ j, r.ofFeature f = [j] := by
  obtain ⟨node, found, -⟩ := h.wellFormed.placementNode placed
  obtain ⟨j, alone⟩ := h.ofNodeAlone found fun c => h.wellFormed.contextRoot own placed
  have perm := h.ofFeatureNode once placed
  rw [alone] at perm
  exact ⟨j, List.perm_singleton.mp perm.symm⟩

theorem Rostered.ofFeatureSeveral (h : Rostered m trees r) (once : m.PlacedOnce)
    (own : m.context f = .ok (.within c)) : 2 ≤ (r.ofFeature f).length := by
  obtain ⟨repeated, n, placed, within, -⟩ := h.wellFormed.contextWithin own
  rw [← (h.ofFeatureNode once placed).length_eq]
  exact h.ofNodeSeveral repeated within

theorem Rostered.seenFromOutside (h : Rostered m trees r) (repeated : m.repeats c = true)
    (own : m.context f = .ok .root) : m.seenFrom r c clone f = r.ofFeature f := by
  refine if_neg fun inside => ?_
  obtain ⟨n, placed, within⟩ := inside
  rw [h.wellFormed.contextRoot own placed within] at repeated
  cases repeated

theorem Rostered.seenFromAlone (h : Rostered m trees r) (once : m.PlacedOnce)
    (instant : clone ∈ r.ofNode c) (own : m.context f = .ok (.within c)) :
    ∃ j, m.seenFrom r c clone f = [j] := by
  obtain ⟨repeated, n, placed, within, lowest⟩ := h.wellFormed.contextWithin own
  obtain ⟨j, only⟩ := h.aloneInClone instant within lowest
  have distinct : (m.seenFrom r c clone f).Nodup := by
    unfold FeatureModel.seenFrom
    split
    · exact (Roster.thoseNodup _).filter _
    · exact Roster.thoseNodup _
  have members : ∀ i, i ∈ m.seenFrom r c clone f ↔ i ∈ [j] := by
    intro i
    rw [memSeenFrom placed, List.mem_singleton, ← only, h.nodeFeature once placed]
    simp [within]
  have perm := (List.perm_ext_iff_of_nodup distinct (List.nodup_singleton j)).mpr members
  exact ⟨j, List.perm_singleton.mp perm⟩

end Sights

namespace Sight
variable {m : FeatureModel} {trees : List Tree} {r : Roster} {seen : FeatureId → List InstanceId}
  {f : FeatureId} {p : Placed} {k : Constraint} {c : NodeId} {policy : MissingPolicy}
  {label : String} {lookup : Formula → Option Formula}

theorem testsPlace (h : Sight m trees r seen) (place : m.placeOf f = some p) {g : Formula} :
    m.Tests f g ↔ (Variable.mk p.feature.name p.sort).selected.same g = true := by
  obtain ⟨-, known, sorted⟩ := h.rostered.wellFormed.placeFeature place
  simp [FeatureModel.testsKnown known, sorted]

theorem sharedUnnamed (h : Sight m trees r seen) (place : m.placeOf f = some p)
    (own : m.context f = .ok (.within c)) {i : Nat} {x : Instance}
    (stored : r.instances[i]? = some x) : x.identifier ≠ p.feature.name := by
  intro same
  have w := h.rostered.wellFormed
  obtain ⟨e, found, rfl⟩ := h.rostered.instanceEntry stored
  obtain ⟨n, placed, there⟩ := placeOfSome.mp place
  have declared := Array.mem_of_getElem? (w.placeFeature place).2.1
  obtain ⟨names, -⟩ := h.rostered.entryName h.apart found declared same
  obtain ⟨-, single⟩ := h.rostered.namedPlainly h.apart found declared same
  have here := w.placeOfName h.once (h.rostered.mirror found).placed there names
  obtain ⟨repeated, n', placed', within, -⟩ := w.contextWithin own
  cases placed.symm.trans placed'
  have id : e.tree.id = n := by rw [Tree.id, here, w.placedId there]
  rw [single c (id ▸ within)] at repeated
  cases repeated

theorem freshMentions (h : Sight m trees r seen) (replaces : Replaces m r seen k lookup)
    (place : m.placeOf f = some p) (own : m.context f = .ok (.within c)) {g new : Formula}
    (found : lookup g = some new) : new.mentionsVariable p.feature.name = false := by
  cases mentioned : new.mentionsVariable p.feature.name with
  | false => rfl
  | true =>
    obtain ⟨g', part, v, term, name⟩ := Formula.mentionsVar.mp mentioned
    have spoken := Formula.comparedSpoken term
    rcases replaces.others g new found with ⟨f', referenced, p', place', test⟩ |
      ⟨f', v', unplaced, ⟨feature, known, named⟩, -, rfl⟩
    · obtain ⟨ids, -, -, put⟩ := replaces.placed f' referenced p' g place' test
      cases found.symm.trans put
      obtain ⟨w, member, rfl⟩ := Formula.memSelectedAtoms.mp part
      rw [Variable.selectedSymbols, List.mem_singleton] at spoken
      obtain ⟨j, -, x, stored, rfl⟩ := Roster.memSymbols.mp member
      subst spoken
      exact absurd name (h.sharedUnnamed place own stored)
    · rw [Variable.selectedAtoms, List.mem_singleton] at part
      rw [part, Variable.selectedSymbols, List.mem_singleton] at spoken
      have w := h.rostered.wellFormed
      cases w.featureOfName (w.placeFeature place).2.1 known (by rw [← name, spoken, named])
      cases unplaced.symm.trans place

theorem mentionedExact (h : Sight m trees r seen) (replaces : Replaces m r seen k lookup)
    (place : m.placeOf f = some p) (own : m.context f = .ok (.within c)) :
    (k.formula.substitute lookup).mentionsVariable p.feature.name = true ↔ m.Compares k f := by
  have w := h.rostered.wellFormed
  obtain ⟨-, known, -⟩ := w.placeFeature place
  rw [Formula.mentionedAfter replaces.atoms fun g _ new => h.freshMentions replaces place own]
  constructor
  · intro asked
    obtain ⟨g, inside, kept, v, term, name⟩ := asked
    refine ⟨g, (Formula.memAtoms.mp inside).1, fun f' referenced tests => ?_, v, p.feature, term,
      known, name.symm⟩
    obtain ⟨feature, known', named⟩ := tests.named term
    cases w.featureOfName known' known (named.trans name)
    obtain ⟨ids, -, -, put⟩ :=
      replaces.placed f referenced p g place ((h.testsPlace place).mp tests)
    cases kept.symm.trans put
  · intro compares
    obtain ⟨g, inside, untested, v, feature, term, known', name⟩ := compares
    cases known.symm.trans known'
    refine ⟨g, Formula.memAtoms.mpr ⟨inside, Formula.comparedAtom term⟩, ?_, v, term, name.symm⟩
    cases found : lookup g with
    | none => rfl
    | some new =>
      rcases replaces.others g new found with ⟨f', referenced, p', place', test⟩ |
        ⟨f', v', unplaced, ⟨feature', known', named⟩, test, -⟩
      · exact absurd ((h.testsPlace place').mpr test) (untested f' referenced)
      · cases Variable.selectedTerms test term rfl
        cases w.featureOfName known' known (named.trans name.symm)
        cases unplaced.symm.trans place

section Success
variable {resolve : FeatureId → Except Failure Resolution} {bad : Failure → Prop}

theorem referMade (h : Sight m trees r seen) (sorted : m.HasSort f) {answer : Resolution}
    (answered : resolve f = .ok answer)
    (answers : answer.Answers (m.placement f) fun _ j => j ∈ seen f) :
    ∃ reference, (CopySource.mk m r policy).refer resolve f = .ok reference := by
  obtain ⟨feature, s, known, sort⟩ := sorted
  have fetched : m.feature f = .ok feature := fetchEqOk.mpr known
  have plain := Feature.plainEqOk.mpr ⟨s, sort, rfl⟩
  cases answer with
  | itself =>
    exact ⟨_, bindEqOk.mpr ⟨_, answered, bindEqOk.mpr ⟨_, fetched, bindEqOk.mpr ⟨_, plain, rfl⟩⟩⟩⟩
  | instances ids =>
    obtain ⟨-, -, n, placed, exact⟩ := answers
    obtain ⟨p, place⟩ := h.placeExists placed
    have terms := h.termsOk place fun j inside => (exact j).mp inside
    exact ⟨_, bindEqOk.mpr ⟨_, answered, bindEqOk.mpr ⟨_, fetched, bindEqOk.mpr ⟨_, plain,
      bindEqOk.mpr ⟨_, terms, rfl⟩⟩⟩⟩⟩

theorem copyAvoids (h : Sight m trees r seen) (sorted : ∀ f ∈ k.referenced, m.HasSort f)
    (resolved : ∀ f ∈ k.referenced, ∃ answer, resolve f = .ok answer ∧
      answer.Answers (m.placement f) fun _ j => j ∈ seen f)
    (settled : ∀ f ∈ k.referenced, ∀ p, m.placeOf f = some p → (∃ j, seen f = [j]) ∨
      (∃ c, m.context f = .ok (.within c)) ∧ ¬ m.Compares k f ∨
      ∀ context, ¬ bad (.rejected (.ambiguousFeatureValue p.feature.name context))) :
    Avoids bad ((CopySource.mk m r policy).copy label resolve k) := by
  have made : ∀ f ∈ k.referenced, ∃ reference,
      (CopySource.mk m r policy).refer resolve f = .ok reference := by
    intro f inside
    obtain ⟨answer, answered, answers⟩ := resolved f inside
    exact h.referMade (sorted f inside) answered answers
  obtain ⟨references, found⟩ := mapMExists made
  refine avoidsBind (found ▸ avoidsOk references) fun references' found' => ?_
  cases found.symm.trans found'
  rw [mapMEqOk] at found
  refine avoidsBind (avoidsMapM fun reference listed => ?_) fun _ _ => avoidsOk _
  obtain ⟨f, inside, done⟩ := forall₂Right found listed
  have referred := h.referredIn resolved inside done
  unfold CopySource.valueName
  cases resolution : reference.resolution with
  | itself => exact avoidsOk _
  | instances ids =>
    obtain ⟨distinct, exact, p, place, -⟩ := referred.instances ids resolution
    obtain ⟨same, -⟩ := h.referredPlaced referred place
    have perm := (List.perm_ext_iff_of_nodup distinct (h.distinct f)).mpr exact
    dsimp only
    split
    · rename_i asked
      split
      · rename_i single
        have seenHere := (exact single).mp List.mem_cons_self
        obtain ⟨x, stored, -⟩ := h.instanceTerm place seenHere
        have fetched : r.get single = .ok x := fetchEqOk.mpr stored
        rw [fetched]
        exact avoidsOk _
      · rename_i several
        rcases settled f inside p place with ⟨j, alone⟩ | ⟨⟨c, own⟩, unasked⟩ | good
        · rw [alone] at perm
          exact absurd (List.perm_singleton.mp perm) (several j)
        · rw [same, h.mentionedExact (h.replaces resolved found) place own] at asked
          exact absurd asked unasked
        · intro e failed
          cases failed
          exact same ▸ good label
    · exact avoidsOk _

theorem copyRefused (h : Sight m trees r seen) (refers : List.Forall₂ (m.Refers k.formula)
      k.formula.names k.referenced)
    (resolved : ∀ f ∈ k.referenced, ∃ answer, resolve f = .ok answer ∧
      answer.Answers (m.placement f) fun _ j => j ∈ seen f)
    (own : m.context f = .ok (.within c)) (several : 2 ≤ (seen f).length)
    (compares : m.Compares k f) (copied : Formula) :
    (CopySource.mk m r policy).copy label resolve k ≠ .ok copied := by
  intro done
  have w := h.rostered.wellFormed
  obtain ⟨-, n, placed, -⟩ := w.contextWithin own
  obtain ⟨p, place⟩ := h.placeExists placed
  obtain ⟨lookup, image, replaces, renames, -⟩ := h.copyMade resolved done
  obtain ⟨-, known, -⟩ := w.placeFeature place
  have mentioned := (h.mentionedExact replaces place own).mpr compares
  have referenced := w.comparesReferenced refers compares
  obtain ⟨g, inside, -, v, feature, term, known', name⟩ := compares
  cases known.symm.trans known'
  obtain ⟨value, renamed⟩ := renames.asked f referenced p v place name (name ▸ mentioned)
  obtain ⟨f', -, p', single, x, place', name', alone, -⟩ := renames.given v value renamed
  cases w.featureOfName (w.placeFeature place').2.1 known (name'.trans name.symm)
  rw [alone] at several
  exact absurd several (by simp)

end Success
end Sight
end ProductLine
