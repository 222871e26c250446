import ProductLine.Proofs.Encoding.Atoms
import ProductLine.Proofs.Encoding.Counts
import ProductLine.Proofs.Encoding.Merged

/-!
Models with nothing below their repeated nodes. Nothing is named after a clone there, so each node
has the same occurrences in both encodings, and the encodings of a tree are one list of formulas.
-/
namespace ProductLine
open Relation (ReflTransGen)

def FeatureModel.RepeatsLeaves (m : FeatureModel) : Prop :=
  ∀ n ∈ m.nodes, n.isRepeated = true → n.children = []

instance (m : FeatureModel) : Decidable m.RepeatsLeaves :=
  inferInstanceAs (Decidable (∀ n ∈ m.nodes, _))

def Tree.Flat (t : Tree) : Prop :=
  ∀ s, Tree.Part s t → s.place.node.isRepeated = true → s.children = []

theorem Placed.singleSpread {p : Placed} (single : p.node.isRepeated = false)
    (suffix : Option String) : p.spread suffix = .single (p.occurrence none suffix) := by
  rw [spread, single]
  rfl

namespace Tree
variable {t : Tree} {o : Occurrence}

theorem Mirrors.flat {m : FeatureModel} (leaves : m.RepeatsLeaves) (mirrors : Mirrors m t) :
    t.Flat := by
  intro s part repeated
  have own := part.mirrors mirrors
  have bare := leaves _ (Array.mem_of_getElem? own.stored) repeated
  rw [← own.children, List.map_eq_nil_iff] at bare
  exact bare

theorem Flat.child {c : Tree} (flat : t.Flat) (child : c ∈ t.children) : c.Flat := by
  intro s part
  exact flat s (Part.split.mpr (.inr ⟨c, child, part⟩))

theorem bareUnrolled (bare : t.children = []) : t.unrolled o = [] := by
  obtain ⟨p, ts⟩ := t
  cases (show ts = [] from bare)
  simp [unrolled, unrolledBelow, Placed.groupConjuncts, encodeGroups, groupTerms]

theorem bareMerged (bare : t.children = []) : t.mergedBody = [] := by
  obtain ⟨p, ts⟩ := t
  cases (show ts = [] from bare)
  simp [mergedBody, mergedBelow, Placed.groupConjuncts, encodeGroups, groupTerms]

theorem unrolledMerged (flat : t.Flat) (single : t.place.node.isRepeated = false) :
    t.unrolled t.occurrence = t.mergedBody := by
  induction t with
  | mk p ts ih =>
    have own : p.node.isRepeated = false := single
    have merged : p.merged = (p.occurrence none none).term := by
      rw [Placed.merged, Placed.singleSpread own]
      rfl
    have below : ∀ us : List Tree, (∀ c ∈ us, c ∈ ts) →
        unrolledBelow (p.occurrence none none) us = mergedBelow p.merged us := by
      intro us inside
      induction us with
      | nil => rfl
      | cons c us later =>
        have child := inside c List.mem_cons_self
        rw [unrolledBelow, mergedBelow,
          later fun d listed => inside d (List.mem_cons_of_mem _ listed),
          Placed.mergedConditions, merged]
        cases repeated : c.place.node.isRepeated with
        | true =>
          have bare := flat c (.inside child .whole) repeated
          simp [bareUnrolled bare, bareMerged bare, Occurrence.suffix?, Placed.occurrence]
        | false =>
          have same := ih c child (flat.child child) repeated
          simp [Placed.singleSpread repeated, Spread.steps, Spread.occurrences, Spread.lowerBound,
            Occurrence.suffix?, Placed.occurrence, ← same, occurrence]
    have top : (mk p ts).occurrence = p.occurrence none none := rfl
    have suffix : (p.occurrence none none).suffix? = none := rfl
    rw [top, unrolled, mergedBody, suffix, below ts fun _ listed => listed, merged]

end Tree

namespace WellFormed
variable {m : FeatureModel} {c n q : NodeId}

theorem leafWithin (w : WellFormed m) (leaves : m.RepeatsLeaves) (repeated : m.repeats c = true)
    (within : m.Within c n) : c = n := by
  rcases ReflTransGen.cases_head_iff.mp within with same | ⟨x, link, -⟩
  · exact same
  · obtain ⟨node, stored⟩ := w.parentThere link
    have bare := leaves node (Array.mem_of_getElem? stored)
      ((FeatureModel.repeatsEqTrue stored).symm.trans repeated)
    obtain ⟨child, found, up⟩ := link
    have listed := (w.linked.children stored x).mpr ⟨child, found, up⟩
    rw [bare] at listed
    cases listed

theorem leafSingle (w : WellFormed m) (leaves : m.RepeatsLeaves) (single : m.repeats n = false)
    (within : m.Within c n) : m.repeats c = false := by
  cases repeated : m.repeats c with
  | false => rfl
  | true =>
    rw [w.leafWithin leaves repeated within, single] at repeated
    cases repeated

theorem leafAbove (w : WellFormed m) (leaves : m.RepeatsLeaves) (up : m.IsParent q n) :
    m.repeats q = false := by
  cases repeated : m.repeats q with
  | false => rfl
  | true =>
    have before := w.parentBefore up
    rw [w.leafWithin leaves repeated (.single up)] at before
    exact absurd before (Nat.lt_irrefl _)

end WellFormed

namespace Rostered
variable {m : FeatureModel} {trees : List Tree} {r : Roster} {n : NodeId} {p : Placed} {i : Nat}
  {e : Entry}

theorem leafPlainly (h : Rostered m trees r) (leaves : m.RepeatsLeaves)
    (found : (Unrolling.entries trees)[i]? = some e) (single : m.repeats e.tree.id = false) :
    e.occurrence = e.tree.place.occurrence none none := by
  exact h.entryPlainly found fun c => h.wellFormed.leafSingle leaves single

theorem entriesRead (h : Rostered m trees r) : (r.ofNode n).map (fun i => r.instances[i.index]?) =
    ((Unrolling.entries trees).filter fun e => e.tree.id == n).map fun e => some e.toInstance := by
  rw [h.sound.nodes, h.roster, Unrolling.readThose]
  rfl

theorem leafParent (h : Rostered m trees r) (leaves : m.RepeatsLeaves) {q : NodeId}
    (up : m.IsParent q n) : ∃ (k : Nat) (above : Entry),
    (Unrolling.entries trees)[k]? = some above ∧ above.tree.id = q ∧
      above.occurrence.suffix? = none ∧
      ∀ e ∈ Unrolling.entries trees, e.tree.id = n → e.parent = some ⟨k⟩ := by
  obtain ⟨node, stored⟩ := h.wellFormed.parentThere up
  have single : ∀ c, m.Within c q → m.repeats c = false :=
    fun c => h.wellFormed.leafSingle leaves (h.wellFormed.leafAbove leaves up)
  obtain ⟨k, alone⟩ := h.ofNodeAlone stored single
  obtain ⟨above, there, id⟩ := h.ofNodeExact.mp (alone ▸ List.mem_singleton_self k)
  refine ⟨k.index, above, there, id, ?_, ?_⟩
  · rw [h.entryPlainly there fun c => id ▸ single c]
    rfl
  · intro e inside own
    obtain ⟨i, found⟩ := List.mem_iff_getElem?.mp inside
    cases parent : e.parent with
    | none =>
      have root := h.topRoot found parent
      exact absurd (own ▸ up) (h.wellFormed.rootHighest root)
    | some j =>
      obtain ⟨above', there', link⟩ := h.stepUp found parent
      have same := FeatureModel.parentUnique (own ▸ link) up
      have listed := h.ofNodeExact.mpr ⟨above', there', same⟩
      rw [alone, List.mem_singleton] at listed
      rw [listed]

theorem leafSingly (h : Rostered m trees r) (leaves : m.RepeatsLeaves)
    (placed : m.placed n = .ok p) (single : p.node.isRepeated = false) :
    ((Unrolling.entries trees).filter fun e => e.tree.id == n).map Entry.occurrence =
      [p.occurrence none none] := by
  have stored := FeatureModel.placedNode placed
  have plain : m.repeats n = false := (FeatureModel.repeatsEqTrue stored).trans single
  obtain ⟨j, alone⟩ := h.ofNodeAlone stored fun c => h.wellFormed.leafSingle leaves plain
  have read := h.entriesRead (n := n)
  rw [alone] at read
  obtain ⟨e, only, -⟩ := List.map_eq_singleton_iff.mp read.symm
  have inside : e ∈ (Unrolling.entries trees).filter fun e => e.tree.id == n :=
    only ▸ List.mem_singleton_self e
  obtain ⟨listed, id⟩ := List.mem_filter.mp inside
  obtain ⟨i, found⟩ := List.mem_iff_getElem?.mp listed
  have own : e.tree.id = n := beq_iff_eq.mp id
  have place : e.tree.place = p :=
    Except.ok.inj ((own ▸ (h.mirror found).placed).symm.trans placed)
  rw [only, List.map_singleton, h.leafPlainly leaves found (own ▸ plain), place]

theorem childOccurrences (h : Rostered m trees r) {k : Nat} {above : Entry}
    (there : (Unrolling.entries trees)[k]? = some above) (up : m.IsParent above.tree.id n)
    (placed : m.placed n = .ok p) :
    ((Unrolling.entries trees).filter fun e => e.tree.id == n && e.parent == some ⟨k⟩).map
      Entry.occurrence = (p.spread above.occurrence.suffix?).occurrences := by
  have mirror := h.mirror there
  obtain ⟨node, found, parent⟩ := up
  obtain ⟨c, child, rfl⟩ := mirror.childOf
    ((h.wellFormed.linked.children mirror.stored n).mpr ⟨node, found, parent⟩)
  have own : c.place = p := Except.ok.inj ((mirror.deeper c child).placed.symm.trans placed)
  have spread := congrArg (List.map Prod.snd)
    (Unrolling.seatsOfChild there (h.wellFormed.childrenApart mirror) child)
  rw [seatsBelow, List.filter_map, List.filter_filter, List.map_map, List.map_map, own] at spread
  exact spread.trans (List.map_id _)

theorem leafOccurrences (h : Rostered m trees r) (leaves : m.RepeatsLeaves)
    (placed : m.placed n = .ok p) : ((Unrolling.entries trees).filter fun e => e.tree.id == n).map
      Entry.occurrence = (p.spread none).occurrences := by
  cases repeated : p.node.isRepeated with
  | false =>
    rw [h.leafSingly leaves placed repeated, Placed.singleSpread repeated]
    rfl
  | true =>
    have many := (FeatureModel.repeatsEqTrue (FeatureModel.placedNode placed)).trans repeated
    obtain ⟨q, up⟩ := FeatureModel.repeatsParent many
    -- The parent has a single entry, so the entries of the node are all below that one.
    obtain ⟨k, above, there, rfl, suffix, below⟩ := h.leafParent leaves up
    rw [← suffix, ← h.childOccurrences there up placed]
    refine congrArg (List.map Entry.occurrence) (List.filter_congr fun e inside => ?_)
    cases id : e.tree.id == n with
    | false => rfl
    | true => simp [below e inside (beq_iff_eq.mp id)]

theorem leafTerms (h : Rostered m trees r) (leaves : m.RepeatsLeaves)
    (placed : m.placed n = .ok p) :
    r.terms (r.ofNode n) = .ok ((p.spread none).occurrences.map Occurrence.term) := by
  have read := mapsEqual.mp (h.entriesRead (n := n))
  rw [← h.leafOccurrences leaves placed, Roster.terms, mapMEqOk, List.forall₂_map_right_iff,
    List.forall₂_map_right_iff]
  exact read.imp fun i e stored => mapEqOk.mpr ⟨_, fetchEqOk.mpr stored, rfl⟩

theorem leafSymbols (h : Rostered m trees r) (leaves : m.RepeatsLeaves) :
    (Unrolling.ofForest trees).symbols = .ofList ((trees.flatMap Tree.places).flatMap fun p =>
      (p.spread none).occurrences.map Occurrence.symbol) := by
  refine SortedSet.ext fun v => ?_
  simp only [Unrolling.memSymbols, SortedSet.memOfList, List.mem_flatMap (l := trees.flatMap _),
    memPlaced h.wellFormed h.tops h.mirrors, List.mem_map]
  constructor
  · intro said
    obtain ⟨e, inside, rfl⟩ := said
    obtain ⟨i, found⟩ := List.mem_iff_getElem?.mp inside
    have placed := (h.mirror found).placed
    refine ⟨_, ⟨_, placed⟩, e.occurrence, ?_, rfl⟩
    rw [← h.leafOccurrences leaves placed]
    exact List.mem_map.mpr ⟨e, List.mem_filter.mpr ⟨inside, beq_self_eq_true _⟩, rfl⟩
  · intro said
    obtain ⟨p, ⟨n, placed⟩, o, spread, rfl⟩ := said
    rw [← h.leafOccurrences leaves placed] at spread
    obtain ⟨e, listed, rfl⟩ := List.mem_map.mp spread
    exact ⟨e, (List.mem_filter.mp listed).1, rfl⟩

theorem leafConjuncts (h : Rostered m trees r) (leaves : m.RepeatsLeaves) :
    (Unrolling.ofForest trees).conjuncts =
      trees.flatMap fun t => t.place.rootConjuncts ++ t.mergedBody := by
  refine List.flatMap_congr fun t member => ?_
  have mirror := h.mirrors t member
  have root : t.id ∈ m.roots := h.tops ▸ List.mem_map.mpr ⟨t, member, rfl⟩
  have single := (FeatureModel.repeatsEqTrue mirror.stored).symm.trans
    (h.wellFormed.rootSingle root)
  rw [Tree.unrolledMerged (mirror.flat leaves) single]

end Rostered
end ProductLine
