import ProductLine.Proofs.Copy.Success
import ProductLine.Proofs.Encoding.Leaves

/-!
Copies beside restatements, where nothing is below a repeated node. If a constraint asks for no
value of which there are several, its copies keep all atoms but the tests, and the copy for the
model as a whole is the restated constraint.
-/
namespace ProductLine
open CopySource (Reference)

namespace Binary64

def negativeZero : Binary64 := ⟨0x8000000000000000⟩

theorem sameZero {x : Binary64} (same : zero.same x = true) : x = zero ∨ x = negativeZero := by
  obtain ⟨-, -, keys⟩ := sameEqTrue.mp same
  have bits : x.bits.toNat < 2 ^ 64 := x.bits.toNat_lt
  have flat : x.magnitude = 0 := by
    have none : zero.key = 0 := by decide
    rw [none, key] at keys
    split at keys <;> omega
  rw [magnitude, signBit] at flat
  have word : x.bits.toNat = 0 ∨ x.bits.toNat = 0x8000000000000000 := by omega
  obtain ⟨b⟩ := x
  rcases word with none | top
  · exact .inl (congrArg mk (UInt64.toNat_inj.mp none))
  · exact .inr (congrArg mk (UInt64.toNat_inj.mp top))

end Binary64

/-- No constraint compares with the negative zero. -/
def FeatureModel.OneZero (m : FeatureModel) : Prop :=
  ∀ k ∈ m.constraints, ∀ g ∈ k.formula.subformulas,
    .constant (.float .negativeZero) ∉ g.terms

instance (m : FeatureModel) : Decidable m.OneZero :=
  inferInstanceAs (Decidable (∀ k ∈ m.constraints, ∀ g ∈ k.formula.subformulas, _))

theorem Variable.selectedEq {v : Variable} {g : Formula} (same : v.selected.same g = true)
    (plain : .constant (.float .negativeZero) ∉ g.terms) : v.selected = g := by
  rcases selectedSame same with ⟨-, test⟩ | ⟨z, z', rfl, test, zeros⟩
  · exact test
  · -- The comparison is with some zero, which is the one that the test is made with.
    rw [test]
    unfold selected at test
    split at test
    · cases test
    · cases test
      cases z' with
      | int n =>
        rw [show (0 : Int64) = n from beq_iff_eq.mp zeros]
      | _ => cases zeros
    · cases test
      cases z' with
      | float x =>
        rcases Binary64.sameZero zeros with rfl | rfl
        · rfl
        · simp [Formula.terms] at plain
      | _ => cases zeros

namespace Sight
variable {m : FeatureModel} {trees : List Tree} {r : Roster} {seen : FeatureId → List InstanceId}
  {f : FeatureId} {n : NodeId} {p : Placed} {k : Constraint} {g : Formula} {v : Variable}
  {lookup : Formula → Option Formula} {image : Variable → Option Variable}

theorem valueStays (h : Sight m trees r seen) (leaves : m.RepeatsLeaves)
    (replaces : Replaces m r seen k lookup)
    (renames : Renames m r seen k (k.formula.substitute lookup) image)
    (definite : ∀ f n, m.placement f = some n → m.repeats n = true → ¬ m.Compares k f)
    (mentioned : (k.formula.substitute lookup).mentionsVariable v.name = true) {w : Variable}
    (renamed : image v = some w) : w = v := by
  obtain ⟨f, referenced, p, single, x, place, name, alone, stored, rfl⟩ := renames.given v w renamed
  obtain ⟨n, placed, there⟩ := placeOfSome.mp place
  have inside : single ∈ seen f := alone ▸ List.mem_singleton_self single
  obtain ⟨e, found, tree⟩ := h.instancePlace place inside
  cases (h.rostered.entryInstance found).symm.trans stored
  have id : e.tree.id = n := by rw [Tree.id, tree, h.rostered.wellFormed.placedId there]
  cases repeated : m.repeats n with
  | true =>
    -- Only a clone has another name than its feature, and no value of a clone is asked for.
    obtain ⟨c, own⟩ := h.rostered.wellFormed.contextShared placed repeated .refl
    rw [← name, h.mentionedExact replaces place own] at mentioned
    exact absurd mentioned (definite f n placed repeated)
  | false =>
    have plain := h.rostered.leafPlainly leaves found (id ▸ repeated)
    simp [Entry.toInstance, plain, tree, Placed.occurrence, Placed.identifier, name]

theorem keptStays (h : Sight m trees r seen) (leaves : m.RepeatsLeaves)
    (replaces : Replaces m r seen k lookup)
    (renames : Renames m r seen k (k.formula.substitute lookup) image)
    (definite : ∀ f n, m.placement f = some n → m.repeats n = true → ¬ m.Compares k f)
    (inside : g ∈ k.formula.atoms) (kept : lookup g = none) : g.renameVariables image = g := by
  obtain ⟨part, atom⟩ := Formula.memAtoms.mp inside
  have stays := Formula.substituteKeeps replaces.atoms part atom kept
  have same : ∀ t ∈ g.terms, t.rename image = t := by
    intro t term
    cases t with
    | var v =>
      cases renamed : image v with
      | none => simp [Term.rename, renamed]
      | some w =>
        have mentioned := mentions stays term rfl
        rw [Term.rename, renamed, h.valueStays leaves replaces renames definite mentioned renamed]
        rfl
    | constant c => rfl
    | aggregate x => rfl
  cases g with
  | literal name => rfl
  | comparison op lhs rhs =>
    rw [Formula.renameVariables, same lhs (by simp [Formula.terms]),
      same rhs (by simp [Formula.terms])]
  | _ => cases atom

end Sight

section Restating
variable {m : FeatureModel} {trees : List Tree} {r : Roster} {places : List Placed}
  {f : FeatureId} {n : NodeId} {p : Placed} {k : Constraint} {g new : Formula} {v : Variable}
  {policy : MissingPolicy} {references : List Reference}

def Merging.lookup (places : List Placed) : Formula → Option Formula :=
  Formula.firstReplacement (places.map Placed.replacement)

theorem wholeReplaced (h : Rostered m trees r) (leaves : m.RepeatsLeaves)
    (found : List.Forall₂ (fun f reference => (CopySource.mk m r policy).refer
      (CopySource.mk m r policy).everywhere f = .ok reference) k.referenced references)
    (place : m.placeOf f = some p)
    (test : (Variable.mk p.feature.name p.sort).selected.same g = true)
    (put : Formula.firstReplacement (references.map fun r => (r.target, r.replacement)) g =
      some new) : new = .disjunction ((p.spread none).occurrences.map Occurrence.term) := by
  obtain ⟨f', -, reference, done, same, rfl⟩ := CopySource.testPut found put
  have made := CopySource.referParts done
  obtain ⟨sort, -, target⟩ := made.target
  rw [target] at same
  cases h.wellFormed.featureOfName made.known (h.wellFormed.placeFeature place).2.1
    (Variable.selectedName same test)
  obtain ⟨n, placed, there⟩ := placeOfSome.mp place
  obtain ⟨terms, read, replacement⟩ := made.instances _
    (Except.ok.inj (made.resolved.symm.trans (CopySource.everywhereListed h placed)))
  cases read.symm.trans (h.leafTerms leaves there)
  exact replacement

theorem Placed.mergedDisjunction (p : Placed) :
    Formula.disjunction ((p.spread none).occurrences.map Occurrence.term) = p.merged := by
  unfold merged
  cases repeated : p.node.isRepeated with
  | false =>
    rw [p.singleSpread repeated]
    rfl
  | true =>
    have several := Node.upperSeveral repeated
    have clones : p.spread none = .clones ((List.range p.node.cardinality.upper.toNat).map fun i =>
        p.occurrence (some (i + 1)) none) := by
      rw [spread, repeated]
      rfl
    rw [clones]
    exact Formula.disjunctionSeveral (by simpa [Spread.occurrences] using several)

theorem Placed.mergedSingle (single : p.node.isRepeated = false) :
    p.merged = (Variable.mk p.feature.name p.sort).selected := by
  rw [merged, p.singleSpread single]
  simp [Spread.term, Occurrence.term, occurrence, identifier]

namespace Merging

theorem lookupAtoms (g : Formula) (compound : g.isAtom = false) : lookup places g = none :=
  firstReplacementAtoms replacementTargets compound

theorem lookupNone (w : WellFormed m)
    (repeated : m.RepeatedPlaces places)
    (untested : ∀ n q, m.placed n = .ok q → q.node.isRepeated = true →
      ¬ (Variable.mk q.feature.name q.sort).selected.same g = true) : lookup places g = none := by
  refine replacementMissing w repeated fun s standing => ?_
  obtain ⟨n, q, placed, many, rfl⟩ := (memCloneView w).mp standing
  exact untested n q placed many

theorem testedReferenced (w : WellFormed m) (once : m.PlacedOnce) (declared : k ∈ m.constraints)
    (placed : m.placed n = .ok p) (inside : g ∈ k.formula.atoms)
    (test : (Variable.mk p.feature.name p.sort).selected.same g = true) :
    p.node.feature ∈ k.referenced ∧ m.placeOf p.node.feature = some p := by
  obtain ⟨stored, known, -⟩ := FeatureModel.placedEqOk.mp placed
  have own := Variable.selectedSpeaks test
  have named : p.feature.name ∈ k.formula.names := Formula.memNames.mpr
    ⟨_, Formula.memSymbols.mpr ⟨g, inside, own ▸ List.mem_singleton_self _⟩, rfl⟩
  obtain ⟨f, referenced, refer, -⟩ := forall₂Left (w.refers k declared) named
  obtain ⟨feature, known', name⟩ := w.declared.names.mp refer
  cases w.featureOfName known' known name
  exact ⟨referenced, placeOfSome.mpr ⟨n, w.placementOnce once stored, placed⟩⟩

theorem lookupKept (h : Rostered m trees r) (once : m.PlacedOnce)
    (repeated : m.RepeatedPlaces places)
    (declared : k ∈ m.constraints) {seen : FeatureId → List InstanceId}
    {copied : Formula → Option Formula} (replaces : Replaces m r seen k copied)
    (inside : g ∈ k.formula.atoms) (kept : copied g = none) : lookup places g = none := by
  refine lookupNone h.wellFormed repeated fun n q placed _ test => ?_
  obtain ⟨referenced, place⟩ := testedReferenced h.wellFormed once declared placed inside test
  obtain ⟨ids, -, -, put⟩ := replaces.placed _ referenced q g place test
  cases kept.symm.trans put

theorem lookupUnplaced (w : WellFormed m) (once : m.PlacedOnce)
    (repeated : m.RepeatedPlaces places)
    (unplaced : m.placeOf f = none) {feature : Feature}
    (known : m.features[f.index]? = some feature) (name : feature.name = v.name)
    (test : v.selected.same g = true) : lookup places g = none := by
  refine lookupNone w repeated fun n q placed _ test' => ?_
  obtain ⟨stored, known', -⟩ := FeatureModel.placedEqOk.mp placed
  cases w.featureOfName known' known ((Variable.selectedName test' test).trans name.symm)
  rw [placeOfSome.mpr ⟨n, w.placementOnce once stored, placed⟩] at unplaced
  cases unplaced

theorem lookupPlaced (w : WellFormed m) (once : m.PlacedOnce)
    (repeated : m.RepeatedPlaces places)
    (placed : m.placed n = .ok p)
    (test : (Variable.mk p.feature.name p.sort).selected.same g = true)
    (same : (Variable.mk p.feature.name p.sort).selected = g) :
    (lookup places g).getD g = p.merged := by
  cases many : p.node.isRepeated with
  | true =>
    have found : lookup places g = some p.merged :=
      replacementFound w once repeated placed many test
    rw [found, Option.getD_some]
  | false =>
    have none : lookup places g = none := by
      refine lookupNone w repeated fun n' q placed' many' test' => ?_
      cases w.placeOfName once placed' placed (Variable.selectedName test' test)
      rw [many] at many'
      cases many'
    rw [none, Option.getD_none, Placed.mergedSingle many, same]

theorem keptSpoken (inside : g ∈ k.formula.atoms) (kept : lookup places g = none)
    (spoken : v ∈ g.ownSymbols) : v ∈ (k.formula.substitute (lookup places)).symbols := by
  refine Formula.memSymbols.mpr ⟨g, ?_, spoken⟩
  rw [Formula.atomsSubstitute lookupAtoms]
  refine List.mem_flatMap.mpr ⟨g, inside, ?_⟩
  rw [kept, Option.getD_none, Formula.atomsAtom (Formula.memAtoms.mp inside).2]
  exact List.mem_singleton_self g

theorem lookupRooted (w : WellFormed m) (once : m.PlacedOnce)
    (repeated : m.RepeatedPlaces places)
    (declared : k ∈ m.constraints) (root : ∀ f ∈ k.referenced, m.context f = .ok .root) :
    k.formula.substitute (lookup places) = k.formula := by
  refine Formula.substituteStays fun g part => ?_
  cases atom : g.isAtom with
  | false => exact lookupAtoms g atom
  | true =>
    refine lookupNone w repeated fun n q placed many test => ?_
    have inside := Formula.memAtoms.mpr ⟨part, atom⟩
    obtain ⟨referenced, place⟩ := testedReferenced w once declared placed inside test
    obtain ⟨n', own, there⟩ := placeOfSome.mp place
    have here := FeatureModel.repeatsEqTrue (FeatureModel.placedNode there)
    rw [w.contextRoot (root _ referenced) own .refl, many] at here
    cases here

end Merging

theorem unguardedRestated (h : Rostered m trees r) (once : m.PlacedOnce) (apart : m.NamesApart)
    (leaves : m.RepeatsLeaves) (oneZero : m.OneZero)
    (repeated : m.RepeatedPlaces places)
    (declared : k ∈ m.constraints)
    (definite : ∀ f n, m.placement f = some n → m.repeats n = true → ¬ m.Compares k f)
    {copied : Formula} (done : (CopySource.mk m r policy).unguarded k = .ok copied) :
    copied = k.formula.substitute (Merging.lookup places) := by
  have w := h.wellFormed
  have s := h.sightWhole once apart
  obtain ⟨references, renamings, _, found, named, rfl, rfl⟩ := CopySource.copyParts done
  have replaces := s.replaces (fun f _ => h.everywhereAnswers once f) found
  have renames := s.renames (fun f _ => h.everywhereAnswers once f) found named
  refine Formula.rewriteCongr replaces.atoms Merging.lookupAtoms fun g inside => ?_
  have zero := oneZero k declared g (Formula.memAtoms.mp inside).1
  cases looked : Formula.firstReplacement (references.map fun r => (r.target, r.replacement)) g with
  | none =>
    rw [Option.getD_none, s.keptStays leaves replaces renames definite inside looked,
      Merging.lookupKept h once repeated declared replaces inside looked, Option.getD_none]
  | some new =>
    rw [Option.getD_some]
    rcases replaces.others g new looked with ⟨f, referenced, p, place, test⟩ |
      ⟨f, v, unplaced, ⟨feature, known, name⟩, test, rfl⟩
    · obtain ⟨ids, -, exact, put⟩ := replaces.placed f referenced p g place test
      obtain ⟨n, -, placed⟩ := placeOfSome.mp place
      cases looked.symm.trans put
      rw [s.replacementKept renames place exact,
        wholeReplaced h leaves found place test looked, p.mergedDisjunction,
        Merging.lookupPlaced w once repeated placed test (Variable.selectedEq test zero)]
    · have unrenamed := (s.unplacedOutside renames unplaced known name).2
      rw [Merging.lookupUnplaced w once repeated unplaced known name test, Option.getD_none,
        Variable.selectedRename fun w renamed => by rw [unrenamed] at renamed; cases renamed]
      exact Variable.selectedEq test zero

theorem Sight.copyRestated {seen : FeatureId → List InstanceId} (s : Sight m trees r seen)
    (leaves : m.RepeatsLeaves)
    (repeated : m.RepeatedPlaces places)
    (declared : k ∈ m.constraints)
    (definite : ∀ f n, m.placement f = some n → m.repeats n = true → ¬ m.Compares k f)
    {copied : Formula → Option Formula} {image : Variable → Option Variable}
    (replaces : Replaces m r seen k copied)
    (renames : Renames m r seen k (k.formula.substitute copied) image)
    (spoken : v ∈ ((k.formula.substitute copied).renameVariables image).symbols) :
    v ∈ (Unrolling.ofForest trees).symbols ∨
      v ∈ (k.formula.substitute (Merging.lookup places)).symbols := by
  have h := s.rostered
  obtain ⟨g', part, own⟩ := Formula.memSymbols.mp spoken
  rw [Formula.atomsRename, Formula.atomsSubstitute replaces.atoms] at part
  obtain ⟨_, listed, rfl⟩ := List.mem_map.mp part
  obtain ⟨g, inside, deeper⟩ := List.mem_flatMap.mp listed
  cases looked : copied g with
  | none =>
    have kept := Merging.lookupKept h s.once repeated declared replaces inside looked
    rw [looked, Option.getD_none, Formula.atomsAtom (Formula.memAtoms.mp inside).2,
      List.mem_singleton] at deeper
    rw [deeper, s.keptStays leaves replaces renames definite inside looked] at own
    exact .inr (Merging.keptSpoken inside kept own)
  | some new =>
    rw [looked, Option.getD_some] at deeper
    rcases replaces.others g new looked with ⟨f, referenced, p, place, test⟩ |
      ⟨f, u, unplaced, ⟨feature, known, name⟩, test, rfl⟩
    · obtain ⟨ids, -, exact, put⟩ := replaces.placed f referenced p g place test
      cases looked.symm.trans put
      obtain ⟨u, member, rfl⟩ := Formula.memSelectedAtoms.mp deeper
      have seen : u ∈ r.symbols p.sort (seen f) := by
        simpa only [Roster.memSymbols, exact] using member
      rw [Variable.selectedRename (s.symbolKept renames place seen), Variable.selectedSymbols,
        List.mem_singleton] at own
      exact .inl (own ▸ Unrolling.memSymbols.mpr (s.symbolEntry place seen))
    · have unrenamed := (s.unplacedOutside renames unplaced known name).2
      have kept := Merging.lookupUnplaced h.wellFormed s.once repeated unplaced known name test
      rw [Variable.selectedAtoms, List.mem_singleton] at deeper
      rw [deeper, Variable.selectedRename fun w renamed => by
        rw [unrenamed] at renamed; cases renamed] at own
      refine .inr (Merging.keptSpoken inside kept ?_)
      rwa [Variable.selectedSpeaks test, ← Variable.selectedSymbols]

theorem guardedRestated (h : Rostered m trees r) (once : m.PlacedOnce) (apart : m.NamesApart)
    (leaves : m.RepeatsLeaves)
    (repeated : m.RepeatedPlaces places)
    (declared : k ∈ m.constraints)
    (definite : ∀ f n, m.placement f = some n → m.repeats n = true → ¬ m.Compares k f)
    {c : NodeId} (many : m.repeats c = true) {clone : InstanceId} (instant : clone ∈ r.ofNode c)
    {copied : Formula} (done : (CopySource.mk m r policy).guarded c clone k = .ok copied)
    (spoken : v ∈ copied.symbols) : v ∈ (Unrolling.ofForest trees).symbols ∨
      v ∈ (k.formula.substitute (Merging.lookup places)).symbols := by
  have s := h.sightFrom once apart c clone
  obtain ⟨guard, read, rest⟩ := bindEqOk.mp done
  obtain ⟨body, made, last⟩ := bindEqOk.mp rest
  cases pureEqOk.mp last
  obtain ⟨g, part, own⟩ := Formula.memSymbols.mp spoken
  rcases Formula.memImpliesAtoms.mp part with here | below
  · exact .inl (h.instanceSpoken (fetchEqOk.mp read) (Formula.memSymbols.mpr ⟨g, here, own⟩))
  · obtain ⟨copied, image, replaces, renames, rfl⟩ :=
      s.copyMade (fun f _ => h.seenFromAnswers once many instant f) made
    exact s.copyRestated leaves repeated declared definite replaces renames
      (Formula.memSymbols.mpr ⟨g, below, own⟩)

end Restating
end ProductLine
