import Mathlib.Data.List.Perm.Basic
import ProductLine.Proofs.Encoding.Entries
import ProductLine.Proofs.Encoding.Groups

/-!
The full encoding is exact: its conjuncts hold together just when the selected instances form a
configuration of the model.
-/
namespace ProductLine

namespace Seat

def conjuncts (s : Seat) : List Formula := s.1.conjuncts s.2.term s.2.suffix?

theorem unrolledBelowPerm (o : Occurrence) (cs : List Tree) : (Tree.unrolledBelow o cs).Perm
    (cs.flatMap (fun c => c.place.conditions o.term o.suffix?) ++
      (cs.flatMap fun c => (c.place.spread o.suffix?).occurrences.map fun x => (c, x)).flatMap
        fun k => k.1.unrolled k.2) := by
  induction cs with
  | nil => simp [Tree.unrolledBelow]
  | cons c cs ih =>
    have deeper : (c.place.spread o.suffix?).steps.flatMap (fun step => c.unrolled step.2) =
        ((c.place.spread o.suffix?).occurrences.map fun x => (c, x)).flatMap
          fun k => k.1.unrolled k.2 := by
      rw [List.flatMap_map, ← Spread.stepsOccurrences, List.flatMap_map]
    have own := List.flatMap_append_perm (c.place.spread o.suffix?).steps
      (fun step => step.2.conditions o.term step.1) (fun step => c.unrolled step.2)
    rw [deeper] at own
    rw [Tree.unrolledBelow, List.flatMap_cons, List.flatMap_cons, List.flatMap_append,
      Placed.conditions]
    refine ((own.symm.append_right _).append ih).trans ?_
    -- what is below the child moves past its bound and past the conditions of its siblings
    simp only [List.append_assoc]
    refine List.Perm.append_left _ ?_
    exact (List.perm_append_comm_assoc ..).trans (.append_left _ (List.perm_append_comm_assoc ..))

theorem unrolledPerm (s : Seat) : (s.1.unrolled s.2).Perm
    (s.conjuncts ++ s.offspring.flatMap fun k => k.1.unrolled k.2) := by
  obtain ⟨⟨p, ts⟩, o⟩ := s
  rw [Tree.unrolled, conjuncts, Tree.conjuncts, List.append_assoc]
  exact (unrolledBelowPerm o ts).append_left _

end Seat

theorem Tree.unrolledListing (t : Tree) : ∀ (above : Option InstanceId) (o : Occurrence)
    (start : Nat), ((t.listing above o start).flatMap fun e => e.seat.conjuncts).Perm
      (t.unrolled o) := by
  induction t with
  | mk p ts ih =>
    intro above o start
    rw [listingEq, List.flatMap_cons]
    refine (List.Perm.append_left _ (chainFlatMap fun k inside start' => ?_)).trans
      (Seat.unrolledPerm (mk p ts, o)).symm
    exact ih k.1 (Seat.memOffspring.mp inside).1 _ k.2 start'

namespace Unrolling
variable {trees : List Tree} {f : Formula}

theorem conjunctsPerm (trees : List Tree) : (ofForest trees).conjuncts.Perm
    (trees.flatMap (fun t => t.place.rootConjuncts) ++
      (entries trees).flatMap fun e => e.seat.conjuncts) := by
  refine (List.flatMap_append_perm trees _ _).symm.trans (List.Perm.append_left _ ?_)
  have listed : ((entries trees).flatMap fun e => e.seat.conjuncts).Perm
      ((trees.map fun t => (t, t.occurrence)).flatMap fun s => s.1.unrolled s.2) :=
    chainFlatMap fun s _ start => s.1.unrolledListing none s.2 start
  rw [List.flatMap_map] at listed
  exact listed.symm

theorem memConjuncts : f ∈ (ofForest trees).conjuncts ↔
    (∃ t ∈ trees, f ∈ t.place.rootConjuncts) ∨ ∃ e ∈ entries trees, f ∈ e.seat.conjuncts := by
  rw [(conjunctsPerm trees).mem_iff, List.mem_append, List.mem_flatMap, List.mem_flatMap]

end Unrolling

/-- A choice of instances that follows the tree: with the mandatory roots, closed towards parents
and towards earlier clones, with enough clones, and balanced below every chosen instance. -/
structure Configuration (m : FeatureModel) (r : Roster) (chosen : InstanceId → Bool) : Prop where
  roots : ∀ (n : NodeId) (node : Node), n ∈ m.roots → m.nodes[n.index]? = some node →
    node.mandatory = true → ∃ i, r.under none n = [i] ∧ chosen i = true
  parents : ∀ (p i : InstanceId), r.IsParent p i → chosen i = true → chosen p = true
  clones : ∀ (i : InstanceId) (x : Instance) (k : Nat), r.instances[i.index]? = some x →
    x.index = some (k + 1) → 0 < k → chosen i = true →
    ∃ (j : InstanceId) (y : Instance), r.instances[j.index]? = some y ∧ y.node = x.node ∧
      y.parent = x.parent ∧ y.index = some k ∧ chosen j = true
  least : ∀ (p : InstanceId) (x : Instance) (n : Node) (c : NodeId) (child : Node),
    r.instances[p.index]? = some x → chosen p = true → m.nodes[x.node.index]? = some n →
    c ∈ n.children → m.nodes[c.index]? = some child → child.isRepeated = true →
    child.cardinality.lower.toNat ≤ (r.under (some p) c).countP chosen
  balanced : ∀ (p : InstanceId) (x : Instance) (n : Node), r.instances[p.index]? = some x →
    chosen p = true → m.nodes[x.node.index]? = some n →
    m.Balanced n fun c => (r.under (some p) c).any chosen

namespace Unrolling
variable {trees : List Tree} {a : Assignment}

theorem selectsEntry {i : Nat} {e : Entry} (found : (entries trees)[i]? = some e) :
    (ofForest trees).roster.selects a ⟨i⟩ = e.occurrence.term.isTrue a := by
  simp [Roster.selects, instanceAt, found, Entry.toInstance]

theorem underSelects (above : Option InstanceId) (n : NodeId) :
    ((ofForest trees).roster.under above n).map ((ofForest trees).roster.selects a) =
      ((seatsBelow (entries trees) above).filter fun s => s.1.id == n).map
        (fun s => s.2.term.isTrue a) := by
  have terms := congrArg (List.map (Option.any (Formula.isTrue a))) (underTerms trees above n)
  simp only [List.map_map, Function.comp_def, Option.any_map, Option.any_some] at terms
  exact terms

theorem seatsOfChild {i : Nat} {e : Entry} {c : Tree} (found : (entries trees)[i]? = some e)
    (apart : (e.tree.children.map Tree.id).Nodup) (child : c ∈ e.tree.children) :
    (seatsBelow (entries trees) (some ⟨i⟩)).filter (fun s => s.1.id == c.id) =
      (c.place.spread e.occurrence.suffix?).occurrences.map fun o => (c, o) := by
  have seats := (laidEntries trees).offspring i e found
  rw [Nat.zero_add] at seats
  rw [seats]
  exact Seat.offspringOf (s := e.seat) apart child

theorem underChild {i : Nat} {e : Entry} {c : Tree} (found : (entries trees)[i]? = some e)
    (apart : (e.tree.children.map Tree.id).Nodup) (child : c ∈ e.tree.children) :
    ((ofForest trees).roster.under (some ⟨i⟩) c.id).map ((ofForest trees).roster.selects a) =
      (c.place.spread e.occurrence.suffix?).occurrences.map fun o => o.term.isTrue a := by
  rw [underSelects, seatsOfChild found apart child, List.map_map]
  rfl

theorem underChildAny {i : Nat} {e : Entry} {c : Tree} (found : (entries trees)[i]? = some e)
    (apart : (e.tree.children.map Tree.id).Nodup) (child : c ∈ e.tree.children) :
    ((ofForest trees).roster.under (some ⟨i⟩) c.id).any ((ofForest trees).roster.selects a) =
      (c.place.spread e.occurrence.suffix?).occurrences.any fun o => o.term.isTrue a := by
  have same := congrArg (List.any · id) (underChild (a := a) found apart child)
  simp only [List.any_map, Function.id_comp] at same
  exact same

theorem underChildCount {i : Nat} {e : Entry} {c : Tree} (found : (entries trees)[i]? = some e)
    (apart : (e.tree.children.map Tree.id).Nodup) (child : c ∈ e.tree.children) :
    ((ofForest trees).roster.under (some ⟨i⟩) c.id).countP ((ofForest trees).roster.selects a) =
      (c.place.spread e.occurrence.suffix?).occurrences.countP fun o => o.term.isTrue a := by
  have same := congrArg (List.countP id) (underChild (a := a) found apart child)
  simp only [List.countP_map, Function.id_comp] at same
  exact same

theorem underRoot {t : Tree} (apart : (trees.map Tree.id).Nodup) (inside : t ∈ trees) :
    ((ofForest trees).roster.under none t.id).map ((ofForest trees).roster.selects a) =
      [t.occurrence.term.isTrue a] := by
  rw [underSelects, (laidEntries trees).tops, topsOf apart inside]
  rfl

end Unrolling

section Exactness
variable {m : FeatureModel} {trees : List Tree} {a : Assignment}

structure Unrolling.Kept (m : FeatureModel) (trees : List Tree) (a : Assignment) : Prop where
  roots : ∀ t ∈ trees, t.place.node.mandatory = true → t.occurrence.term.isTrue a = true
  balanced : ∀ (i : Nat) (e : Entry), (entries trees)[i]? = some e →
    e.occurrence.term.isTrue a = true → m.Balanced e.tree.place.node fun c =>
      ((ofForest trees).roster.under (some ⟨i⟩) c).any ((ofForest trees).roster.selects a)
  follows : ∀ e ∈ entries trees, ∀ c ∈ e.tree.children, c.place.Follows a e.occurrence.term
    (c.place.spread e.occurrence.suffix?).occurrences

theorem WellFormed.childrenApart (w : WellFormed m) {t : Tree} (mirrors : Tree.Mirrors m t) :
    (t.children.map Tree.id).Nodup := by
  rw [mirrors.children]
  exact sortedNodup (w.linked.childrenSorted mirrors.stored)

theorem WellFormed.rootsApart (w : WellFormed m) : m.roots.Nodup :=
  sortedNodup w.linked.rootsSorted

theorem Unrolling.keptExact (w : WellFormed m) (narrow : m.Narrow)
    (mirrors : ∀ t ∈ trees, Tree.Mirrors m t)
    (valued : ∀ e ∈ entries trees, e.occurrence.term.Valued a) :
    (∀ f ∈ (ofForest trees).conjuncts, f.isTrue a = true) ↔ Kept m trees a := by
  have each : ∀ (i : Nat) (e : Entry), (entries trees)[i]? = some e →
      ((∀ f ∈ e.seat.conjuncts, f.isTrue a = true) ↔
        (e.occurrence.term.isTrue a = true → m.Balanced e.tree.place.node fun c =>
          ((ofForest trees).roster.under (some ⟨i⟩) c).any ((ofForest trees).roster.selects a)) ∧
        ∀ c ∈ e.tree.children, c.place.Follows a e.occurrence.term
          (c.place.spread e.occurrence.suffix?).occurrences) := by
    intro i e found
    have inside := List.mem_of_getElem? found
    have mirror := entriesMirror mirrors inside
    refine Tree.conjunctsExact mirror narrow (valued e inside) ?_ ?_
    · intro c child o spread
      obtain ⟨j, e', found', -, -, rfl⟩ := childEntry found child spread
      exact valued e' (List.mem_of_getElem? found')
    · intro c child
      exact underChildAny found (w.childrenApart mirror) child
  constructor
  · intro all
    have own : ∀ e ∈ entries trees, ∀ f ∈ e.seat.conjuncts, f.isTrue a = true := by
      intro e inside f listed
      exact all f (memConjuncts.mpr (.inr ⟨e, inside, listed⟩))
    refine ⟨fun t member mandatory => ?_, fun i e found => ?_, fun e inside => ?_⟩
    · have root := Placed.memRootConjuncts.mpr ⟨mandatory, rfl⟩
      exact all _ (memConjuncts.mpr (.inl ⟨t, member, root⟩))
    · exact ((each i e found).mp (own e (List.mem_of_getElem? found))).1
    · obtain ⟨i, found⟩ := List.mem_iff_getElem?.mp inside
      exact ((each i e found).mp (own e inside)).2
  · intro kept f listed
    rcases memConjuncts.mp listed with ⟨t, member, root⟩ | ⟨e, inside, own⟩
    · obtain ⟨mandatory, rfl⟩ := Placed.memRootConjuncts.mp root
      exact kept.roots t member mandatory
    · obtain ⟨i, found⟩ := List.mem_iff_getElem?.mp inside
      exact (each i e found).mpr ⟨kept.balanced i e found, kept.follows e inside⟩ f own

theorem Unrolling.onlyClone {i j k : Nat} {e e' : Entry} {t : Tree} {q : Occurrence}
    (apart : (e.tree.children.map Tree.id).Nodup) (found : (entries trees)[i]? = some e)
    (child : t ∈ e.tree.children) (found' : (entries trees)[j]? = some e')
    (up : e'.parent = some ⟨i⟩) (node : e'.tree.id = t.id)
    (here : (t.place.spread e.occurrence.suffix?).occurrences[k]? = some q)
    (index : e'.occurrence.index = some (k + 1)) : e'.occurrence = q := by
  obtain ⟨above, found'', child', inside⟩ := parentEntry found' up
  cases Option.some.inj (found.symm.trans found'')
  have tree : e'.tree = t := List.inj_on_of_nodup_map apart child' child node
  have inside' : e'.occurrence ∈ (t.place.spread e.occurrence.suffix?).occurrences := tree ▸ inside
  obtain ⟨l, position⟩ := List.mem_iff_getElem?.mp inside'
  obtain ⟨same, -⟩ := Placed.cloneNumber position index
  cases Nat.succ.inj same
  exact Option.some.inj (position.symm.trans here)

theorem Unrolling.entryNode (mirrors : ∀ t ∈ trees, Tree.Mirrors m t) {i : Nat} {x : Instance}
    (stored : (ofForest trees).roster.instances[i]? = some x) :
    ∃ e, (entries trees)[i]? = some e ∧ e.toInstance = x ∧
      m.nodes[x.node.index]? = some e.tree.place.node := by
  rw [instanceAt, Option.map_eq_some_iff] at stored
  obtain ⟨e, found, rfl⟩ := stored
  have mirror := entriesMirror mirrors (List.mem_of_getElem? found)
  exact ⟨e, found, rfl, mirror.stored⟩

theorem Unrolling.keptClones (mirrors : ∀ t ∈ trees, Tree.Mirrors m t) (kept : Kept m trees a)
    {i : InstanceId} {x : Instance} {k : Nat}
    (stored : (ofForest trees).roster.instances[i.index]? = some x)
    (index : x.index = some (k + 1)) (positive : 0 < k)
    (selected : (ofForest trees).roster.selects a i = true) :
    ∃ (j : InstanceId) (y : Instance), (ofForest trees).roster.instances[j.index]? = some y ∧
      y.node = x.node ∧ y.parent = x.parent ∧ y.index = some k ∧
      (ofForest trees).roster.selects a j = true := by
  obtain ⟨e', found, rfl, -⟩ := entryNode mirrors stored
  rw [selectsEntry found] at selected
  cases up : e'.parent with
  | none =>
    obtain ⟨t, -, seat⟩ := entryTop (List.mem_of_getElem? found) up
    have occurrence : e'.occurrence = t.occurrence := congrArg Prod.snd seat
    have numbered : e'.occurrence.index = some (k + 1) := index
    rw [occurrence] at numbered
    cases numbered
  | some p =>
    obtain ⟨e, above, child, inside⟩ := parentEntry found up
    obtain ⟨l, position⟩ := List.mem_iff_getElem?.mp inside
    obtain ⟨same, repeated, short⟩ := Placed.cloneNumber position index
    cases Nat.succ.inj same
    obtain ⟨l, rfl⟩ : ∃ i, k = i + 1 := ⟨k - 1, by omega⟩
    -- the entry one position earlier is the clone before
    have before : (e'.tree.place.spread e.occurrence.suffix?).occurrences[l]? = some _ :=
      Placed.cloneAt repeated (Nat.lt_of_succ_lt short)
    have earlier := (kept.follows e (List.mem_of_getElem? above) _ child).steps l _ _ before
      position selected
    obtain ⟨j, e'', there, up', tree, occurrence⟩ :=
      childEntry above child (List.mem_of_getElem? before)
    refine ⟨⟨j⟩, e''.toInstance, entryStored there, ?_, up'.trans up.symm, ?_, ?_⟩
    · exact congrArg (fun t => t.place.node.id) tree
    · exact congrArg Occurrence.index occurrence
    · rw [selectsEntry there]
      exact occurrence ▸ earlier

theorem Unrolling.keptConfiguration (w : WellFormed m) (mirrors : ∀ t ∈ trees, Tree.Mirrors m t)
    (tops : trees.map Tree.id = m.roots) (kept : Kept m trees a) :
    Configuration m (ofForest trees).roster ((ofForest trees).roster.selects a) where
  roots := by
    intro n node root stored mandatory
    obtain ⟨t, member, rfl⟩ := List.mem_map.mp (tops ▸ root)
    cases Option.some.inj ((mirrors t member).stored.symm.trans stored)
    have only := underRoot (a := a) (tops ▸ w.rootsApart) member
    obtain ⟨i, alone, selected⟩ := List.map_eq_singleton_iff.mp only
    exact ⟨i, alone, selected.trans (kept.roots t member mandatory)⟩
  parents := by
    intro p i up selected
    obtain ⟨x, stored, up⟩ := up
    obtain ⟨e', found, rfl, -⟩ := entryNode mirrors stored
    obtain ⟨e, above, child, inside⟩ := parentEntry found up
    rw [selectsEntry found] at selected
    rw [selectsEntry above]
    exact (kept.follows e (List.mem_of_getElem? above) _ child).parents _ inside selected
  clones := fun _ _ _ stored index positive selected =>
    keptClones mirrors kept stored index positive selected
  least := by
    intro p x n c child stored selected node inside found repeated
    obtain ⟨e, at', rfl, here⟩ := entryNode mirrors stored
    cases Option.some.inj (here.symm.trans node)
    have mirror := entriesMirror mirrors (List.mem_of_getElem? at')
    obtain ⟨t, below, rfl⟩ := mirror.childOf inside
    cases Option.some.inj ((mirror.deeper t below).stored.symm.trans found)
    rw [selectsEntry at'] at selected
    have enough := (kept.follows e (List.mem_of_getElem? at') t below).least selected repeated
    rw [← underChildCount at' (w.childrenApart mirror) below] at enough
    exact enough
  balanced := by
    intro p x n stored selected node
    obtain ⟨e, at', rfl, here⟩ := entryNode mirrors stored
    cases Option.some.inj (here.symm.trans node)
    rw [selectsEntry at'] at selected
    exact kept.balanced p.index e at' selected

theorem Unrolling.configurationFollows (w : WellFormed m) (mirrors : ∀ t ∈ trees, Tree.Mirrors m t)
    (c : Configuration m (ofForest trees).roster ((ofForest trees).roster.selects a)) {i : Nat}
    {e : Entry} (found : (entries trees)[i]? = some e) {t : Tree} (child : t ∈ e.tree.children) :
    t.place.Follows a e.occurrence.term (t.place.spread e.occurrence.suffix?).occurrences where
  parents := by
    intro o spread selected
    obtain ⟨j, e', found', up, -, occurrence⟩ := childEntry found child spread
    have parent := c.parents ⟨i⟩ ⟨j⟩ ⟨e'.toInstance, entryStored found', up⟩
    rw [selectsEntry found, selectsEntry found'] at parent
    exact parent (occurrence ▸ selected)
  steps := by
    intro k q o before here selected
    have mirror := entriesMirror mirrors (List.mem_of_getElem? found)
    obtain ⟨j, e', found', up, tree, occurrence⟩ :=
      childEntry found child (List.mem_of_getElem? here)
    have number : o.index = some (k + 1 + 1) := by
      rcases Placed.occurrenceAt.mp here with ⟨-, -, rfl⟩ | ⟨-, first, -⟩
      · rfl
      · omega
    have clone := c.clones ⟨j⟩ e'.toInstance (k + 1) (entryStored found')
      ((congrArg Occurrence.index occurrence).trans number) (by omega)
    rw [selectsEntry found'] at clone
    obtain ⟨j', y, stored, sameNode, sameParent, index, earlier⟩ := clone (occurrence ▸ selected)
    obtain ⟨e'', there, rfl, -⟩ := entryNode mirrors stored
    rw [selectsEntry there] at earlier
    have same := onlyClone (w.childrenApart mirror) found child there (sameParent.trans up)
      (sameNode.trans (congrArg (fun t => t.place.node.id) tree)) before index
    exact same ▸ earlier
  least := by
    intro selected repeated
    have mirror := entriesMirror mirrors (List.mem_of_getElem? found)
    rw [← selectsEntry found] at selected
    have enough := c.least ⟨i⟩ _ _ t.id _ (entryStored found) selected mirror.stored
      (mirror.listed child) (mirror.deeper t child).stored repeated
    rw [underChildCount found (w.childrenApart mirror) child] at enough
    exact enough

theorem Unrolling.configurationKept (w : WellFormed m) (mirrors : ∀ t ∈ trees, Tree.Mirrors m t)
    (tops : trees.map Tree.id = m.roots) (c : Configuration m (ofForest trees).roster
      ((ofForest trees).roster.selects a)) : Kept m trees a where
  roots := by
    intro t member mandatory
    have root : t.id ∈ m.roots := tops ▸ List.mem_map.mpr ⟨t, member, rfl⟩
    obtain ⟨i, alone, selected⟩ := c.roots _ _ root (mirrors t member).stored mandatory
    have only := underRoot (a := a) (tops ▸ w.rootsApart) member
    rw [alone, List.map_singleton] at only
    exact (List.singleton_inj.mp only).symm.trans selected
  balanced := by
    intro i e found selected
    have mirror := entriesMirror mirrors (List.mem_of_getElem? found)
    rw [← selectsEntry found] at selected
    exact c.balanced ⟨i⟩ e.toInstance _ (entryStored found) selected mirror.stored
  follows := by
    intro e inside t child
    obtain ⟨i, found⟩ := List.mem_iff_getElem?.mp inside
    exact configurationFollows w mirrors c found child

/-- A model without texts can be unrolled, and the conjuncts hold together just when the selected
instances are a configuration. -/
theorem unrollExact (built : Built m) (typed : m.Typed) (narrow : m.Narrow) :
    ∃ u, m.unroll = .ok u ∧ ∀ a : Assignment,
      (∀ (i : Nat) (x : Instance), u.roster.instances[i]? = some x → x.term.Valued a) →
      ((∀ f ∈ u.conjuncts, f.evaluate a = some true) ↔
        Configuration m u.roster (u.roster.selects a)) := by
  have w := built.wellFormed
  obtain ⟨trees, grown⟩ := w.forestExists typed
  obtain ⟨tops, mirrors⟩ := w.forestMirrors grown
  refine ⟨Unrolling.ofForest trees, mapEqOk.mpr ⟨trees, grown, rfl⟩, fun a known => ?_⟩
  have valued : ∀ e ∈ Unrolling.entries trees, e.occurrence.term.Valued a := by
    intro e inside
    obtain ⟨i, found⟩ := List.mem_iff_getElem?.mp inside
    exact known i e.toInstance (Unrolling.entryStored found)
  simp only [← Formula.isTrueIff]
  rw [Unrolling.keptExact w narrow mirrors valued]
  constructor
  · intro kept
    exact Unrolling.keptConfiguration w mirrors tops kept
  · intro c
    exact Unrolling.configurationKept w mirrors tops c

end Exactness

namespace Example

def oneSlot : Assignment :=
  .ofList [("Server", .bool true), ("Slot_1", .bool true), ("Slot_2", .bool false),
    ("Speed.Slot_1", .int 7), ("Speed.Slot_2", .int 0), ("Backup", .bool false)]

theorem rackUnrolls : Built rack ∧ rack.Typed ∧ rack.Narrow ∧ ∃ u, rack.unroll = .ok u ∧
    (∀ (i : Nat) (x : Instance), u.roster.instances[i]? = some x → x.term.Valued oneSlot) ∧
    (∀ f ∈ u.conjuncts, f.evaluate oneSlot = some true) ∧
    Configuration rack u.roster (u.roster.selects oneSlot) := by
  have typed : rack.Typed := by decide
  have narrow : rack.Narrow := by decide
  have checked : rack.unroll.toOption.any (fun u =>
      u.roster.instances.all (fun x => (x.term.evaluate oneSlot).isSome) &&
        u.conjuncts.all fun f => f.evaluate oneSlot == some true) = true := by decide +kernel
  obtain ⟨u, unrolled, exact⟩ := unrollExact rackBuilt typed narrow
  rw [unrolled] at checked
  simp only [Except.toOption, Option.any_some, Bool.and_eq_true, Array.all_eq_true',
    List.all_eq_true, beq_iff_eq, Option.isSome_iff_exists] at checked
  have valued : ∀ (i : Nat) (x : Instance), u.roster.instances[i]? = some x →
      x.term.Valued oneSlot :=
    fun i x stored => checked.1 x (Array.mem_of_getElem? stored)
  exact ⟨rackBuilt, typed, narrow, u, unrolled, valued, checked.2, (exact _ valued).mp checked.2⟩

end Example
end ProductLine
