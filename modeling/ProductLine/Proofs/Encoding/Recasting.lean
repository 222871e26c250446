import ProductLine.Proofs.Encoding.Fronting

/-!
An assignment carried over to the sources. When every instance takes the value of its source, an
entry makes of its subtree what another entry of the same tree made of its own, with the clones in
front; group conjuncts read the same values, and every node keeps the number of its selected
instances.
-/
namespace ProductLine

def Roster.recastEntry (r : Roster) (a : Assignment) (i : Nat) : Option (String × Value) := do
  let x ← r.instances[i]?
  let y ← r.instances[(r.source (r.selects a) ⟨i⟩).index]?
  let v ← a.get? y.identifier
  return (x.identifier, v)

def Roster.recast (r : Roster) (a : Assignment) : Assignment :=
  .ofList ((List.range r.size).filterMap (r.recastEntry a))

theorem SortedMap.getOfList {κ ν : Type} [Ord κ] [DecidableEq κ] [Std.TransOrd κ]
    [Std.LawfulEqOrd κ] {entries : List (κ × ν)} {k : κ} {value : Option ν}
    (single : ∀ e ∈ entries, e.1 = k → value = some e.2) :
    (SortedMap.ofList entries).get? k = if k ∈ entries.map Prod.fst then value else none := by
  induction entries using List.reverseRecOn with
  | nil => rfl
  | append_singleton entries e ih =>
    have rest := ih fun x inside => single x (List.mem_append_left _ inside)
    have put : SortedMap.ofList (entries ++ [e]) = (SortedMap.ofList entries).put e.1 e.2 := by
      simp [SortedMap.ofList]
    rw [put, SortedMap.getPut, rest]
    have keys : k ∈ (entries ++ [e]).map Prod.fst ↔ k ∈ entries.map Prod.fst ∨ k = e.1 := by
      rw [List.map_append, List.mem_append, List.map_singleton, List.mem_singleton]
    by_cases same : k = e.1
    · rw [if_pos same, if_pos (keys.mpr (.inr same)), single e (by simp) same.symm]
    · rw [if_neg same]
      simp only [keys, same, or_false]

namespace Variable
variable {v w : Variable} {a b : Assignment}

theorem selectedOnce (same : v.selected = w.selected) : v.name = w.name := by
  unfold selected at same
  split at same <;> split at same <;> simp_all

theorem selectedRead (sorts : v.sort = w.sort) (values : b.get? v.name = a.get? w.name) :
    v.selected.evaluate b = w.selected.evaluate a := by
  unfold selected
  rw [sorts]
  cases w.sort <;> simp [Formula.evaluate, Term.value, values]

end Variable

namespace Roster
variable {r : Roster} {a b : Assignment}

def Moved (r : Roster) (a b : Assignment) : Prop :=
  ∀ (i : InstanceId) (x y : Instance), r.instances[i.index]? = some x →
    r.instances[(r.source (r.selects a) i).index]? = some y →
      b.get? x.identifier = a.get? y.identifier

theorem recastEntryEq {i : Nat} {e : String × Value} : r.recastEntry a i = some e ↔
    ∃ x y, r.instances[i]? = some x ∧
      r.instances[(r.source (r.selects a) ⟨i⟩).index]? = some y ∧
      e.1 = x.identifier ∧ a.get? y.identifier = some e.2 := by
  obtain ⟨k, v⟩ := e
  simp only [recastEntry, bind, Option.bind_eq_some_iff, pure, Option.some.injEq, Prod.mk.injEq]
  constructor
  · intro entry
    obtain ⟨x, stored, y, found, v, value, rfl, rfl⟩ := entry
    exact ⟨x, y, stored, found, rfl, value⟩
  · intro entry
    obtain ⟨x, y, stored, found, rfl, value⟩ := entry
    exact ⟨x, stored, y, found, v, value, rfl, rfl⟩

theorem recastMoved (distinct : ∀ (i j : Nat) (x y : Instance), r.instances[i]? = some x →
    r.instances[j]? = some y → x.identifier = y.identifier → i = j) : r.Moved a (r.recast a) := by
  intro i x y stored found
  have single : ∀ e ∈ (List.range r.size).filterMap (r.recastEntry a), e.1 = x.identifier →
      a.get? y.identifier = some e.2 := by
    intro e inside same
    obtain ⟨j, -, entry⟩ := List.mem_filterMap.mp inside
    obtain ⟨x', y', stored', found', key, value⟩ := recastEntryEq.mp entry
    cases distinct j i.index x' x stored' stored (key.symm.trans same)
    cases found.symm.trans found'
    exact value
  rw [recast, SortedMap.getOfList single]
  split
  · rfl
  · rename_i absent
    cases value : a.get? y.identifier with
    | none => rfl
    | some v =>
      have entry : r.recastEntry a i.index = some (x.identifier, v) :=
        recastEntryEq.mpr ⟨x, y, stored, found, rfl, value⟩
      have inside := List.mem_filterMap.mpr ⟨_, List.mem_range.mpr (storedBelow stored), entry⟩
      exact absurd (List.mem_map.mpr ⟨_, inside, rfl⟩) absent

end Roster

structure Entry.Plays (a b : Assignment) (e e' : Entry) : Prop where
  tree : e'.tree = e.tree
  term : e.occurrence.term.evaluate b = e'.occurrence.term.evaluate a
  spread : ∀ t ∈ e.tree.children,
    (t.place.spread e.occurrence.suffix?).occurrences.map (fun o => o.term.isTrue b) =
      fronted id ((t.place.spread e'.occurrence.suffix?).occurrences.map fun o => o.term.isTrue a)

namespace Rostered
variable {m : FeatureModel} {trees : List Tree} {r : Roster} {a b : Assignment} {i : Nat}
    {e : Entry}

theorem entryMoved (h : Rostered m trees r) (moved : r.Moved a b)
    (found : (Unrolling.entries trees)[i]? = some e) : ∃ e',
      (Unrolling.entries trees)[(r.source (r.selects a) ⟨i⟩).index]? = some e' ∧
      e'.tree = e.tree ∧ e.occurrence.term.evaluate b = e'.occurrence.term.evaluate a := by
  have mirror := h.mirror found
  have there := h.sourceThere (r.selects a) mirror.stored _
    (h.ofNodeExact.mpr ⟨e, found, rfl⟩)
  obtain ⟨e', found', id⟩ := h.ofNodeExact.mp there
  have tree := (h.mirror found').unique mirror id
  have term : e.occurrence.term = _ := entryTerm found
  have term' : e'.occurrence.term = _ := entryTerm found'
  refine ⟨e', found', tree, ?_⟩
  rw [term, term']
  exact Variable.selectedRead (by rw [tree])
    (moved ⟨i⟩ _ _ (h.entryInstance found) (h.entryInstance found'))

theorem selectsMoved (h : Rostered m trees r) (moved : r.Moved a b) {n : NodeId} {j : InstanceId}
    (inside : j ∈ r.ofNode n) : r.selects b j = r.selects a (r.source (r.selects a) j) := by
  obtain ⟨e, found, -⟩ := h.ofNodeExact.mp inside
  obtain ⟨e', found', -, term⟩ := h.entryMoved moved found
  have left : r.selects b j = e.occurrence.term.isTrue b := by
    simp [Roster.selects, h.entryInstance found, Entry.toInstance]
  have right : r.selects a (r.source (r.selects a) j) = e'.occurrence.term.isTrue a := by
    simp [Roster.selects, h.entryInstance found', Entry.toInstance]
  rw [left, right, Formula.isTrue, Formula.isTrue, term]

theorem entryPlays (h : Rostered m trees r) (moved : r.Moved a b)
    (found : (Unrolling.entries trees)[i]? = some e) : ∃ e',
      (Unrolling.entries trees)[(r.source (r.selects a) ⟨i⟩).index]? = some e' ∧
      e.Plays a b e' := by
  obtain ⟨e', found', tree, term⟩ := h.entryMoved moved found
  refine ⟨e', found', tree, term, fun t child => ?_⟩
  have mirror := h.mirror found
  have apart := h.wellFormed.childrenApart mirror
  have link := h.wellFormed.childAfter mirror.placed (mirror.listed child)
  have here : InstanceId.mk i ∈ r.ofNode e.tree.id := h.ofNodeExact.mpr ⟨e, found, rfl⟩
  have there := h.sourceThere (r.selects a) mirror.stored _ here
  have below := Unrolling.underChild (a := b) found apart child
  have below' := Unrolling.underChild (a := a) found' (tree ▸ apart) (tree ▸ child)
  have each : ∀ j ∈ r.under (some ⟨i⟩) t.id,
      r.selects b j = (r.selects a ∘ r.source (r.selects a)) j := by
    intro j inside
    refine h.selectsMoved moved ((h.ofNodeBelow link).mem_iff.mpr ?_)
    exact List.mem_flatMap.mpr ⟨_, here, inside⟩
  rw [← h.roster] at below below'
  rw [← below, ← below', List.map_congr_left each, ← List.map_map, h.sourceBelow link here there,
    frontedMap]
  rfl

theorem movedCount (h : Rostered m trees r) (moved : r.Moved a b) (n : NodeId) :
    (r.ofNode n).countP (r.selects b) = (r.ofNode n).countP (r.selects a) := by
  cases found : m.nodes[n.index]? with
  | none =>
    have empty : r.ofNode n = [] := by
      refine List.eq_nil_iff_forall_not_mem.mpr fun i inside => ?_
      obtain ⟨e, there, rfl⟩ := h.ofNodeExact.mp inside
      cases (h.mirror there).stored.symm.trans found
    rw [empty]
    rfl
  | some node =>
    have each : ∀ i ∈ r.ofNode n, r.selects b i = true ↔
        (r.selects a ∘ r.source (r.selects a)) i = true := by
      intro i inside
      rw [h.selectsMoved moved inside]
      rfl
    rw [List.countP_congr each, ← List.countP_map]
    exact (h.sourcePerm (r.selects a) found).countP_eq _

end Rostered

section Readings
variable {a b : Assignment}

theorem evaluateAllRead {fs gs : List Formula}
    (each : List.Forall₂ (fun f g => f.evaluate b = g.evaluate a) fs gs) :
    Formula.evaluateAll b fs = Formula.evaluateAll a gs := by
  induction each with
  | nil => rfl
  | cons head tail ih => rw [Formula.evaluateAll, Formula.evaluateAll, head, ih]

theorem Placed.termsInMembers (below : List Placed) (suffix : Option String) (i : Nat) :
    termsIn (below.map (·.member suffix)) i =
      (below.filter (·.node.parentGroup.index == i)).map fun q => (q.spread suffix).term := by
  rw [termsIn, List.filter_map, List.map_map]
  rfl

theorem Placed.groupConjunctsRead {p : Placed} {below : List Placed} {term term' : Formula}
    {suffix suffix' : Option String} (owner : term.evaluate b = term'.evaluate a)
    (each : ∀ q ∈ below, (q.spread suffix).term.evaluate b = (q.spread suffix').term.evaluate a)
    {f : Formula} (inside : f ∈ p.groupConjuncts term suffix below) :
    ∃ f' ∈ p.groupConjuncts term' suffix' below, f.evaluate b = f'.evaluate a := by
  rcases memEncodeGroups.mp inside with ⟨c, member, forced, rfl⟩ | ⟨i, kind, found, some, encoded⟩
  · obtain ⟨q, listed, rfl⟩ := List.mem_map.mp member
    refine ⟨.implies term' (q.member suffix').term, memEncodeGroups.mpr (.inl ?_), ?_⟩
    · exact ⟨q.member suffix', List.mem_map.mpr ⟨q, listed, rfl⟩, forced, rfl⟩
    · rw [Formula.evaluate, Formula.evaluate, owner, Placed.member, each q listed]
      rfl
  · obtain ⟨c, member, here⟩ := some
    obtain ⟨q, listed, rfl⟩ := List.mem_map.mp member
    obtain ⟨rule, known, rfl⟩ := Option.map_eq_some_iff.mp encoded
    have values : Formula.evaluateAll b (termsIn (below.map (·.member suffix)) i) =
        Formula.evaluateAll a (termsIn (below.map (·.member suffix')) i) := by
      rw [termsInMembers, termsInMembers]
      refine evaluateAllRead (List.forall₂_map_left_iff.mpr (List.forall₂_map_right_iff.mpr ?_))
      exact List.forall₂_same.mpr fun q inside => each q (List.mem_of_mem_filter inside)
    refine ⟨.implies term' (.join rule (termsIn (below.map (·.member suffix')) i)),
      memEncodeGroups.mpr (.inr ⟨i, kind, found, ?_, ?_⟩), ?_⟩
    · exact ⟨q.member suffix', List.mem_map.mpr ⟨q, listed, rfl⟩, here⟩
    · rw [GroupKind.encode, known]
      rfl
    · simp only [Formula.evaluate, owner, values]

theorem Entry.Plays.spreadRead {e e' : Entry} (plays : e.Plays a b e') {t : Tree}
    (child : t ∈ e.tree.children)
    (before : ∀ o ∈ (t.place.spread e'.occurrence.suffix?).occurrences, o.term.Valued a)
    (after : ∀ o ∈ (t.place.spread e.occurrence.suffix?).occurrences, o.term.Valued b) :
    (t.place.spread e.occurrence.suffix?).term.evaluate b =
      (t.place.spread e'.occurrence.suffix?).term.evaluate a := by
  have same := (frontedPerm id ((t.place.spread e'.occurrence.suffix?).occurrences.map
    fun o => o.term.isTrue a)).any_eq (f := id)
  rw [← plays.spread t child, List.any_map, List.any_map] at same
  rw [(Spread.termValued after).evaluateEq, (Spread.termValued before).evaluateEq,
    Spread.termTrue after, Spread.termTrue before]
  exact congrArg some same

end Readings

end ProductLine
