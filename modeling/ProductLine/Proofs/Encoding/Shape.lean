import Mathlib.Algebra.BigOperators.Group.List.Basic
import ProductLine.Proofs.Copy.Names
import ProductLine.Proofs.Encoding.Unrolled

/-!
The roster of a model is its unrolled tree: below an instance stand, child by child, the occurrences
of the children of its node, numbered if the child is repeated, and nothing else. So a node has as
many instances as the upper bounds of the repeated nodes at or above it multiply to.
-/
namespace ProductLine

abbrev Spot := NodeId × Option Nat

def Node.numbers (n : Node) : List (Option Nat) :=
  if n.isRepeated then (List.range n.cardinality.upper.toNat).map fun i => some (i + 1) else [none]

namespace FeatureModel

def numbers (m : FeatureModel) (c : NodeId) : List (Option Nat) :=
  (m.nodes[c.index]?.map Node.numbers).getD []

def offspring (m : FeatureModel) (n : Node) : List Spot :=
  n.children.flatMap fun c => (m.numbers c).map fun k => (c, k)

def upper (m : FeatureModel) (n : NodeId) : Nat :=
  (m.nodes[n.index]?.map fun node => node.cardinality.upper.toNat).getD 0

end FeatureModel

namespace Roster

def spot (r : Roster) (i : InstanceId) : Option Spot :=
  r.instances[i.index]?.map fun x => (x.node, x.index)

def Stands (r : Roster) (above : Option InstanceId) (i : InstanceId) (s : Spot) : Prop :=
  ∃ x, r.instances[i.index]? = some x ∧ x.parent = above ∧ x.node = s.1 ∧ x.index = s.2

def level (r : Roster) (above : Option InstanceId) : List InstanceId :=
  r.those fun x => x.parent == above

end Roster

structure UnrolledTree (m : FeatureModel) (r : Roster) : Prop where
  roots : ∀ n ∈ m.roots, ∃ i, r.ofNode n = [i] ∧ r.Stands none i (n, none)
  children : ∀ (p : InstanceId) (x : Instance) (n : Node), r.instances[p.index]? = some x →
    m.nodes[x.node.index]? = some n →
    ∃ ids, r.childrenOf p = .ok ids ∧ List.Forall₂ (r.Stands (some p)) ids (m.offspring n)
  tops : ∀ (i : InstanceId) (x : Instance), r.instances[i.index]? = some x → x.parent = none →
    x.node ∈ m.roots
  listed : ∀ p i : InstanceId, r.IsParent p i → ∃ ids, r.childrenOf p = .ok ids ∧ i ∈ ids
  terms : ∀ (i : InstanceId) (x : Instance), r.instances[i.index]? = some x → ∃ n feature,
    m.nodes[x.node.index]? = some n ∧ m.features[n.feature.index]? = some feature ∧
      x.feature = n.feature ∧ feature.formula x.identifier = .ok x.term

theorem Placed.spreadNumbers (p : Placed) (suffix : Option String) :
    (p.spread suffix).occurrences.map Occurrence.index = p.node.numbers := by
  unfold spread Node.numbers
  split
  · simp [Spread.occurrences, occurrence]
  · rfl

theorem Node.numbersLength (n : Node) :
    n.numbers.length = if n.isRepeated then n.cardinality.upper.toNat else 1 := by
  unfold numbers
  split <;> simp

theorem Node.numbersNodup (n : Node) : n.numbers.Nodup := by
  unfold numbers
  split
  · exact List.nodup_range.map fun i j same => Nat.succ.inj (Option.some.inj same)
  · exact List.nodup_singleton _

namespace Tree.Mirrors
variable {m : FeatureModel} {t : Tree}

theorem numbers (mirrors : Mirrors m t) : m.numbers t.id = t.place.node.numbers := by
  simp [FeatureModel.numbers, mirrors.stored]

theorem offspring (mirrors : Mirrors m t) (o : Occurrence) :
    (Seat.offspring (t, o)).map (fun k => (k.1.id, k.2.index)) = m.offspring t.place.node := by
  have each : ∀ c ∈ t.children, ((c.place.spread o.suffix?).occurrences.map fun x => (c, x)).map
      (fun k : Seat => (k.1.id, k.2.index)) = (m.numbers c.id).map fun k => (c.id, k) := by
    intro c child
    rw [(mirrors.deeper c child).numbers, ← Placed.spreadNumbers c.place o.suffix?]
    simp only [List.map_map, Function.comp_def]
  rw [Seat.offspring, FeatureModel.offspring, ← mirrors.children, List.map_flatMap,
    List.flatMap_map]
  exact List.flatMap_congr each

end Tree.Mirrors

theorem WellFormed.offspringNodup {m : FeatureModel} (w : WellFormed m) {i : Nat} {n : Node}
    (stored : m.nodes[i]? = some n) : (m.offspring n).Nodup := by
  have apart : n.children.Nodup := sortedNodup (w.linked.childrenSorted stored)
  refine List.nodup_flatMap.mpr ⟨fun c _ => ?_, apart.imp fun {c c'} different => ?_⟩
  · have distinct : (m.numbers c).Nodup := by
      unfold FeatureModel.numbers
      cases m.nodes[c.index]? with
      | none => exact List.nodup_nil
      | some node => exact node.numbersNodup
    exact distinct.map fun k l same => (Prod.mk.inj same).2
  · intro s first second
    obtain ⟨k, -, rfl⟩ := List.mem_map.mp first
    obtain ⟨l, -, same⟩ := List.mem_map.mp second
    exact different (Prod.mk.inj same).1.symm

namespace Unrolling

theorem readThose (trees : List Tree) (kind : Instance → Bool) :
    ((ofForest trees).roster.those kind).map
        (fun i => (ofForest trees).roster.instances[i.index]?) =
      ((entries trees).filter fun e => kind e.toInstance).map fun e => some e.toInstance := by
  rw [Roster.thoseRead, (rosterGains trees).instances]
  simp [Roster.empty, List.filter_map, Function.comp_def]

theorem levelSpots (trees : List Tree) (above : Option InstanceId) :
    ((ofForest trees).roster.level above).map (ofForest trees).roster.spot =
      (seatsBelow (entries trees) above).map fun s => some (s.1.id, s.2.index) := by
  have read := congrArg (List.map (Option.map fun x : Instance => (x.node, x.index)))
    (readThose trees fun x => x.parent == above)
  rw [List.map_map, List.map_map] at read
  rw [seatsBelow, List.map_map]
  exact read

end Unrolling

namespace Rostered
variable {m : FeatureModel} {trees : List Tree} {r : Roster} {i : Nat} {e : Entry}

theorem spotsBelow (h : Rostered m trees r) (found : (Unrolling.entries trees)[i]? = some e) :
    (r.level (some ⟨i⟩)).map r.spot = (m.offspring e.tree.place.node).map some := by
  have seats := (Unrolling.laidEntries trees).offspring i e found
  rw [Nat.zero_add] at seats
  have spots := Unrolling.levelSpots trees (some ⟨i⟩)
  rw [seats, ← h.roster] at spots
  rw [spots, ← (h.mirror found).offspring e.occurrence, List.map_map]
  rfl

theorem spotsTop (h : Rostered m trees r) :
    (r.level none).map r.spot = m.roots.map fun n => some (n, none) := by
  have spots := Unrolling.levelSpots trees none
  rw [(Unrolling.laidEntries trees).tops, ← h.roster, List.map_map] at spots
  rw [spots, ← h.tops, List.map_map]
  rfl

theorem levelStands {above : Option InstanceId} {spots : List Spot}
    (same : (r.level above).map r.spot = spots.map some) :
    List.Forall₂ (r.Stands above) (r.level above) spots := by
  have parents : ∀ i ∈ r.level above, ∀ s, r.spot i = some s → r.Stands above i s := by
    intro i inside s here
    obtain ⟨x, stored, up⟩ := Roster.memThose.mp inside
    rw [Roster.spot, stored] at here
    cases here
    exact ⟨x, stored, by simpa using up, rfl, rfl⟩
  have pairs : List.Forall₂ (fun i s => r.spot i = some s) (r.level above) spots :=
    mapsEqual.mp same
  refine List.forall₂_iff_zip.mpr ⟨pairs.length_eq, fun {i s} pair => ?_⟩
  exact parents i (List.of_mem_zip pair).1 s (List.forall₂_zip pairs pair)

theorem stepUp (h : Rostered m trees r) (found : (Unrolling.entries trees)[i]? = some e)
    {p : InstanceId} (up : e.parent = some p) : ∃ above,
    (Unrolling.entries trees)[p.index]? = some above ∧ m.IsParent above.tree.id e.tree.id := by
  obtain ⟨above, there, child, -⟩ := Unrolling.parentEntry found up
  have mirror := h.mirror there
  exact ⟨above, there, h.wellFormed.childAfter mirror.placed (mirror.listed child)⟩

theorem topRoot (h : Rostered m trees r) (found : (Unrolling.entries trees)[i]? = some e)
    (top : e.parent = none) : e.tree.id ∈ m.roots := by
  obtain ⟨t, member, seat⟩ := Unrolling.entryTop (List.mem_of_getElem? found) top
  rw [← h.tops, show e.tree = t from congrArg Prod.fst seat]
  exact List.mem_map.mpr ⟨t, member, rfl⟩

theorem rootTop (h : Rostered m trees r) (found : (Unrolling.entries trees)[i]? = some e)
    (root : e.tree.id ∈ m.roots) : e.parent = none := by
  cases up : e.parent with
  | none => rfl
  | some p =>
    obtain ⟨above, -, link⟩ := h.stepUp found up
    exact absurd link (h.wellFormed.rootHighest root)

theorem levelNodup (h : Rostered m trees r) {above : Option InstanceId} {j : InstanceId}
    (inside : j ∈ r.level above) : ((r.level above).map r.spot).Nodup := by
  cases above with
  | none =>
    rw [h.spotsTop]
    exact h.wellFormed.rootsApart.map fun n n' same => (Prod.mk.inj (Option.some.inj same)).1
  | some p =>
    obtain ⟨x, stored, up⟩ := Roster.memThose.mp inside
    obtain ⟨e, found, rfl⟩ := h.instanceEntry stored
    obtain ⟨above, there, -⟩ := Unrolling.entryAbove found (beq_iff_eq.mp up)
    rw [h.spotsBelow there]
    exact (h.wellFormed.offspringNodup (h.mirror there).stored).map (Option.some_injective _)

theorem standsOnce (h : Rostered m trees r) {above : Option InstanceId} {j k : InstanceId}
    {s : Spot} (first : r.Stands above j s) (second : r.Stands above k s) : j = k := by
  have member : ∀ {l}, r.Stands above l s → l ∈ r.level above ∧ r.spot l = some s := by
    intro l stands
    obtain ⟨x, stored, up, node, index⟩ := stands
    exact ⟨Roster.memThose.mpr ⟨x, stored, by simp [up]⟩,
      by simp [Roster.spot, stored, node, index]⟩
  obtain ⟨inside, here⟩ := member first
  obtain ⟨inside', here'⟩ := member second
  exact List.inj_on_of_nodup_map (h.levelNodup inside) inside inside' (here.trans here'.symm)

theorem childrenOk (h : Rostered m trees r) {p : InstanceId} (there : p.index < r.size) :
    r.childrenOf p = .ok (r.level (some p)) :=
  (h.sound.childrenOk there).trans (congrArg _ (h.sound.belowEq p))

theorem rootAlone (h : Rostered m trees r) {n : NodeId} (root : n ∈ m.roots) :
    ∃ i, r.ofNode n = [i] ∧ r.Stands none i (n, none) := by
  have tops := levelStands (h.spotsTop.trans List.map_map.symm)
  have topped : ∀ j, j ∈ r.ofNode n → r.Stands none j (n, none) := by
    intro j inside
    obtain ⟨e, found, rfl⟩ := h.ofNodeExact.mp inside
    have top := h.rootTop found root
    have level : j ∈ r.level none :=
      Roster.memThose.mpr ⟨_, h.entryInstance found, by simp [Entry.toInstance, top]⟩
    obtain ⟨s, listed, x, stored, up, node, index⟩ := forall₂Left tops level
    obtain ⟨n', -, rfl⟩ := List.mem_map.mp listed
    cases (h.entryInstance found).symm.trans stored
    exact ⟨_, h.entryInstance found, top, rfl, index⟩
  obtain ⟨i, -, stands⟩ := forall₂Right tops (List.mem_map.mpr ⟨n, root, rfl⟩)
  have here : i ∈ r.ofNode n := by
    obtain ⟨x, stored, -, node, -⟩ := stands
    exact h.sound.memOfNode.mpr ⟨x, stored, node⟩
  have only : ∀ j, j ∈ r.ofNode n ↔ j ∈ [i] := by
    intro j
    rw [List.mem_singleton]
    exact ⟨fun inside => h.standsOnce (topped j inside) stands, fun same => same ▸ here⟩
  have alone := (List.perm_ext_iff_of_nodup (h.sound.ofNodeNodup n)
    (List.nodup_singleton i)).mpr only
  exact ⟨i, List.perm_singleton.mp alone, stands⟩

theorem unrolledTree (h : Rostered m trees r) : UnrolledTree m r where
  roots := fun n root => h.rootAlone root
  children := by
    intro p x n stored node
    obtain ⟨e, found, rfl⟩ := h.instanceEntry stored
    cases Option.some.inj ((h.mirror found).stored.symm.trans node)
    exact ⟨_, h.childrenOk (storedBelow stored), levelStands (h.spotsBelow found)⟩
  tops := by
    intro i x stored top
    obtain ⟨e, found, rfl⟩ := h.instanceEntry stored
    exact h.topRoot found top
  listed := by
    intro p i up
    obtain ⟨x, stored, above⟩ := up
    have before := h.sound.parents stored above
    refine ⟨_, h.childrenOk (Nat.lt_trans before (storedBelow stored)), ?_⟩
    exact Roster.memThose.mpr ⟨x, stored, by simp [above]⟩
  terms := by
    intro i x stored
    obtain ⟨e, found, rfl⟩ := h.instanceEntry stored
    obtain ⟨there, known, sorted⟩ := FeatureModel.placedEqOk.mp (h.mirror found).placed
    refine ⟨_, _, there, known, h.entryFeature found there, ?_⟩
    rw [entryTerm found]
    simp [Feature.formula, Feature.symbol, Feature.sort, sorted, Functor.map, Except.map]

section Counting
variable {p c : NodeId}

theorem ofNodeBelow (h : Rostered m trees r) (up : m.IsParent p c) :
    (r.ofNode c).Perm ((r.ofNode p).flatMap fun i => r.under (some i) c) := by
  have parts : ((r.ofNode p).flatMap fun i => r.under (some i) c).Nodup := by
    refine List.nodup_flatMap.mpr ⟨fun i _ => Roster.thoseNodup _, (h.sound.ofNodeNodup p).imp ?_⟩
    intro i i' different j first second
    obtain ⟨x, stored, here⟩ := Roster.memThose.mp first
    obtain ⟨x', stored', here'⟩ := Roster.memThose.mp second
    cases stored.symm.trans stored'
    simp only [Bool.and_eq_true, beq_iff_eq] at here here'
    exact different (Option.some.inj (here.1.symm.trans here'.1))
  refine (List.perm_ext_iff_of_nodup (h.sound.ofNodeNodup c) parts).mpr fun j => ?_
  rw [h.ofNodeExact, List.mem_flatMap]
  constructor
  · intro inside
    obtain ⟨e, found, rfl⟩ := inside
    cases top : e.parent with
    | none => exact absurd up (h.wellFormed.rootHighest (h.topRoot found top))
    | some q =>
      obtain ⟨above, there, link⟩ := h.stepUp found top
      cases FeatureModel.parentUnique link up
      refine ⟨q, h.ofNodeExact.mpr ⟨above, there, rfl⟩, ?_⟩
      exact Roster.memThose.mpr ⟨_, h.entryInstance found, by simp [Entry.toInstance, top, Tree.id]⟩
  · intro inside
    obtain ⟨i, -, below⟩ := inside
    obtain ⟨x, stored, here⟩ := Roster.memThose.mp below
    obtain ⟨e, found, rfl⟩ := h.instanceEntry stored
    simp only [Bool.and_eq_true, beq_iff_eq] at here
    exact ⟨e, found, here.2⟩

theorem underLength (h : Rostered m trees r) (up : m.IsParent p c) {i : InstanceId}
    (inside : i ∈ r.ofNode p) : (r.under (some i) c).length = (m.numbers c).length := by
  obtain ⟨e, found, rfl⟩ := h.ofNodeExact.mp inside
  have mirror := h.mirror found
  obtain ⟨node, stored, above⟩ := up
  obtain ⟨t, child, rfl⟩ := mirror.childOf
    ((h.wellFormed.linked.children mirror.stored c).mpr ⟨node, stored, above⟩)
  have apart := h.wellFormed.childrenApart mirror
  have lengths := congrArg List.length (Unrolling.underTerms trees (some i) t.id)
  rw [List.length_map, List.length_map, ← h.roster, Unrolling.seatsOfChild found apart child,
    List.length_map] at lengths
  rw [lengths, (mirror.deeper t child).numbers, ← t.place.spreadNumbers, List.length_map]

theorem ofNodeLength (h : Rostered m trees r) (up : m.IsParent p c) :
    (r.ofNode c).length = (r.ofNode p).length * (m.numbers c).length := by
  rw [(h.ofNodeBelow up).length_eq, List.length_flatMap,
    List.map_congr_left fun i inside => h.underLength up inside, List.map_const',
    List.sum_replicate_nat]

theorem ofNodeCount (h : Rostered m trees r) {n : NodeId} {node : Node}
    (found : m.nodes[n.index]? = some node) : (r.ofNode n).length =
      (((n :: (m.lineage n).met).filter m.repeats).map m.upper).prod := by
  refine h.wellFormed.downward (motive := fun n => (r.ofNode n).length =
    (((n :: (m.lineage n).met).filter m.repeats).map m.upper).prod) ?_ ?_ n node found
  · intro n node found top
    have root := (h.wellFormed.linked.roots n).mpr ⟨node, found, top⟩
    obtain ⟨i, alone, -⟩ := h.rootAlone root
    rw [alone, WellFormed.lineageRoot found top]
    simp [h.wellFormed.rootSingle root]
  · intro n p up ih
    rw [h.ofNodeLength up, ih, h.wellFormed.lineageChild up]
    obtain ⟨node, found, -⟩ := up
    have length : (m.numbers n).length = if m.repeats n then m.upper n else 1 := by
      simp [FeatureModel.numbers, FeatureModel.upper, FeatureModel.repeats, found,
        Node.numbersLength]
    rw [length, List.filter_cons (x := n)]
    split <;> simp [Nat.mul_comm]

end Counting
end Rostered

/-- A model without texts unrolls to its tree, and each node has as many instances as the upper
bounds of the repeated nodes among it and its ancestors multiply to. -/
theorem unrollShape {m : FeatureModel} (built : Built m) (typed : m.Typed) :
    ∃ u, m.unroll = .ok u ∧ UnrolledTree m u.roster ∧
      ∀ (n : NodeId) (node : Node), m.nodes[n.index]? = some node →
        ∃ above, m.ancestors n = .ok above ∧ (u.roster.ofNode n).length =
          (((n :: above).filter m.repeats).map m.upper).prod := by
  obtain ⟨trees, unrolled, h⟩ := built.wellFormed.unrollOk typed
  refine ⟨_, unrolled, h.unrolledTree, fun n node found => ?_⟩
  have whole := (h.wellFormed.lineageWhole found).1
  exact ⟨_, by rw [FeatureModel.ancestors, Lineage.all, whole], h.ofNodeCount found⟩

namespace Example

def hallCalls : List Call :=
  [.addRootFeature "Hall", .makeMandatory ⟨0⟩, .addChildFeature ⟨0⟩ "Rack", .setCardinality ⟨1⟩ 0 2,
    .addChildFeature ⟨1⟩ "Slot", .setCardinality ⟨2⟩ 1 2, .declare "Speed" .integer,
    .addChild ⟨2⟩ ⟨3⟩]

def hall : FeatureModel := (Call.makeAll hallCalls .empty).getD .empty

theorem hallBuilt : Built hall := by
  have made : Call.makeAll hallCalls .empty = some hall := rfl
  exact Built.empty.makeAll made

theorem hallShape : Built hall ∧ hall.Typed ∧ ∃ u, hall.unroll = .ok u ∧
    UnrolledTree hall u.roster ∧ (u.roster.ofNode ⟨3⟩).length = 4 := by
  have typed : hall.Typed := by decide
  obtain ⟨u, unrolled, shape, count⟩ := unrollShape hallBuilt typed
  obtain ⟨above, known, length⟩ := count ⟨3⟩ _ rfl
  have line : hall.ancestors ⟨3⟩ = .ok [⟨2⟩, ⟨1⟩, ⟨0⟩] := rfl
  cases line.symm.trans known
  exact ⟨hallBuilt, typed, u, unrolled, shape, length.trans (by decide)⟩

end Example
end ProductLine
