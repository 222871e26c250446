import ProductLine.Proofs.Encoding.Counts
import ProductLine.Proofs.Roster.Preorder

/-!
Look-ups in the roster of a model. The roster is filled depth first, so the instances of a node
stand in the order of the clones that they lie in, and a search by breadth finds the instances of
one node in the order in which they were entered.
-/
namespace ProductLine
open Relation (ReflTransGen)

structure Roster.Weaves (above : Option InstanceId) (r r' : Roster) : Prop where
  kept : ∀ (i : Nat) (x : Instance), r.instances[i]? = some x → r'.instances[i]? = some x
  ordered : r.Preordered → r.Tip above → r'.Preordered ∧ r'.Tip above

theorem Roster.Weaves.fold {α : Type} {above : Option InstanceId} {put : Roster → α → Roster}
    {xs : List α} (each : ∀ x ∈ xs, ∀ r, Weaves above r (put r x)) (r : Roster) :
    Weaves above r (xs.foldl put r) := by
  induction xs generalizing r with
  | nil => exact ⟨fun _ _ stored => stored, And.intro⟩
  | cons x xs ih =>
    have first := each x List.mem_cons_self r
    have rest := ih (fun y inside => each y (List.mem_cons_of_mem _ inside)) (put r x)
    refine ⟨fun i y stored => rest.kept i y (first.kept i y stored), fun ordered tip => ?_⟩
    obtain ⟨ordered, tip⟩ := first.ordered ordered tip
    exact rest.ordered ordered tip

theorem Tree.enterWeaves (t : Tree) : ∀ (above : Option InstanceId) (o : Occurrence) (r : Roster),
    Roster.Weaves above r (t.enter above o r) := by
  induction t with
  | mk p ts ih =>
    intro above o r
    have below : ∀ r₁ : Roster, Roster.Weaves (some r.nextId) r₁ (enterBelow r.nextId o ts r₁) := by
      intro r₁
      rw [enterBelowEq]
      refine .fold (fun s inside => ?_) r₁
      exact ih s.1 (Seat.memOffspring (s := (mk p ts, o)).mp inside).1 _ _
    have below := below (r.enter (Entry.toInstance ⟨mk p ts, o, above⟩))
    have last : (r.enter (Entry.toInstance ⟨mk p ts, o, above⟩)).instances[r.size]? =
        some (Entry.toInstance ⟨mk p ts, o, above⟩) := pushEqSome.mpr (.inr ⟨rfl, rfl⟩)
    refine ⟨fun i x stored => below.kept i x (Roster.enterKept i x stored), fun ordered tip => ?_⟩
    have here : (r.enter (Entry.toInstance ⟨mk p ts, o, above⟩)).Tip (some r.nextId) := by
      intro q same
      cases same
      exact ⟨r.size, by simp [Roster.enter, Roster.size], .refl⟩
    obtain ⟨ordered, tip⟩ := below.ordered (ordered.enter tip) here
    refine ⟨ordered, fun q up => ?_⟩
    obtain ⟨final, size, within⟩ := tip _ rfl
    exact ⟨final, size, .head ⟨_, below.kept _ _ last, up⟩ within⟩

theorem Unrolling.rosterPreordered (trees : List Tree) : (ofForest trees).roster.Preordered := by
  have weaves : Roster.Weaves none .empty (ofForest trees).roster :=
    .fold (fun t _ r => t.enterWeaves none t.occurrence r) _
  refine (weaves.ordered (fun i p up => ?_) fun p same => nomatch same).1
  obtain ⟨x, stored, -⟩ := up
  simp [Roster.empty] at stored

/-- Where the instances of a node stand among clones: in those of a repeated node, one in each and
in their order, or by themselves in none. -/
def Roster.Spreads (r : Roster) (n : NodeId) : Option NodeId → Prop
  | some c => (r.ofNode n).map r.cloneOf = (r.ofNode c).map some
  | none => ∃ i, r.ofNode n = [i] ∧ ∀ k ∈ r.walk i, r.isNumbered k = false

/-- The look-ups of instances agree: those of a node with those of its context, and what a search
finds below an instance with the instances of the one node that carries the feature. -/
structure Lookups (m : FeatureModel) (r : Roster) : Prop where
  sorted : ∀ n, (r.ofNode n).Pairwise (·.index < ·.index)
  spread : ∀ n node, m.node n = .ok node → ∃ own, m.repeatedAt n = .ok own ∧ r.Spreads n own
  found : ∀ f n, (∀ k, (∃ node, m.node k = .ok node ∧ node.feature = f) ↔ k = n) →
    ∀ clone : InstanceId, clone.index < r.size →
      r.findUnder clone f = .ok ((r.ofNode n).filter fun i => (r.walk i).contains clone) ∧
      ∀ c, m.repeatedAt n = .ok (some c) → clone ∈ r.ofNode c → ∃ i, r.findUnder clone f = .ok [i]

namespace Rostered
variable {m : FeatureModel} {trees : List Tree} {r : Roster} {n p c : NodeId} {i : Nat} {e : Entry}

theorem preordered (h : Rostered m trees r) : r.Preordered :=
  h.roster ▸ Unrolling.rosterPreordered trees

theorem clonesApart (h : Rostered m trees r) {a b : InstanceId} (first : a ∈ r.ofNode n)
    (second : b ∈ r.ofNode n) (before : a.index < b.index) : ¬ r.Within a b := by
  intro within
  obtain ⟨e, found, rfl⟩ := h.ofNodeExact.mp first
  obtain ⟨e', found', same⟩ := h.ofNodeExact.mp second
  obtain ⟨top, there, -, alone⟩ := h.withinNodes within found'
  cases found.symm.trans there
  rw [alone same.symm] at before
  exact Nat.lt_irrefl _ before

theorem ofNodeByParent (h : Rostered m trees r) (up : m.IsParent p c) :
    r.ofNode c = (r.ofNode p).flatMap fun i => r.under (some i) c := by
  have under : ∀ {i j}, j ∈ r.under (some i) c → r.Within i j := by
    intro i j inside
    obtain ⟨x, stored, here⟩ := Roster.memThose.mp inside
    simp only [Bool.and_eq_true, beq_iff_eq] at here
    exact .single ⟨x, stored, here.1⟩
  refine sortedUnique (h.sound.ofNodeSorted c) ?_ (h.ofNodeBelow up)
  refine List.pairwise_flatMap.mpr ⟨fun i _ => Roster.thoseSorted _, ?_⟩
  refine (h.sound.ofNodeSorted p).imp_of_mem fun first second before j inside j' inside' => ?_
  have apart := h.clonesApart first second before
  exact Roster.belowApart h.sound h.preordered before apart (under inside) (under inside')

theorem numberedExact (h : Rostered m trees r) (found : (Unrolling.entries trees)[i]? = some e) :
    r.isNumbered ⟨i⟩ = m.repeats e.tree.id := by
  have own : r.isNumbered ⟨i⟩ = e.occurrence.index.isSome := by
    simp [Roster.isNumbered, h.entryInstance found, Entry.toInstance]
  rw [own]
  cases up : e.parent with
  | none =>
    obtain ⟨t, -, seat⟩ := Unrolling.entryTop (List.mem_of_getElem? found) up
    rw [h.wellFormed.rootSingle (h.topRoot found up),
      show e.occurrence = t.occurrence from congrArg Prod.snd seat]
    rfl
  | some p =>
    obtain ⟨above, -, -, inside⟩ := Unrolling.parentEntry found up
    have number := List.mem_map_of_mem (f := Occurrence.index) inside
    rw [Placed.spreadNumbers, Node.numbers] at number
    rw [FeatureModel.repeatsEqTrue (h.mirror found).stored]
    split at number
    · rename_i repeated
      obtain ⟨k, -, same⟩ := List.mem_map.mp number
      rw [← same, repeated]
      rfl
    · rename_i single
      rw [List.mem_singleton.mp number, Bool.eq_false_iff.mpr single]
      rfl

theorem numberedOf (h : Rostered m trees r) {j : InstanceId} (inside : j ∈ r.ofNode n) :
    r.isNumbered j = m.repeats n := by
  obtain ⟨e, found, rfl⟩ := h.ofNodeExact.mp inside
  exact h.numberedExact found

theorem ofNodeAlong (h : Rostered m trees r) (up : m.IsParent p c) (single : m.repeats c = false) :
    List.Forall₂ r.IsParent (r.ofNode p) (r.ofNode c) := by
  rw [h.ofNodeByParent up]
  refine forall₂FlatMap fun i inside => ?_
  obtain ⟨node, found, -⟩ := id up
  have one := h.underLength up inside
  rw [FeatureModel.numbersSingle found single] at one
  obtain ⟨j, only⟩ := List.length_eq_one_iff.mp one
  have below : j ∈ r.under (some i) c := by simp [only]
  obtain ⟨x, stored, here⟩ := Roster.memThose.mp below
  simp only [Bool.and_eq_true, beq_iff_eq] at here
  exact ⟨j, only, x, stored, here.1⟩

theorem spreads (h : Rostered m trees r) {node : Node} (found : m.nodes[n.index]? = some node) :
    ∃ own, m.repeatedAt n = .ok own ∧ r.Spreads n own := by
  refine h.wellFormed.downward
    (motive := fun n => ∃ own, m.repeatedAt n = .ok own ∧ r.Spreads n own) ?_ ?_ n node found
  · intro n node found top
    have root := (h.wellFormed.linked.roots n).mpr ⟨node, found, top⟩
    obtain ⟨i, alone, x, stored, up, -, index⟩ := h.rootAlone root
    refine ⟨none, WellFormed.repeatedAtRoot found top, i, alone, fun k met => ?_⟩
    have highest : ∀ p, ¬ r.IsParent p i := by
      intro p link
      obtain ⟨y, stored', up'⟩ := link
      cases stored.symm.trans stored'
      cases up.symm.trans up'
    rw [Roster.walkTop highest, List.mem_singleton] at met
    simp [met, Roster.isNumbered, stored, index]
  · intro n p up ih
    obtain ⟨own, answered, spreads⟩ := ih
    rw [h.wellFormed.repeatedAtChild up]
    cases repeated : m.repeats n with
    | true =>
      refine ⟨some n, rfl, List.map_congr_left fun i inside => ?_⟩
      exact Roster.cloneOfSelf ((h.numberedOf inside).trans repeated)
    | false =>
      have along := h.ofNodeAlong up repeated
      have plain : ∀ j ∈ r.ofNode n, r.isNumbered j = false :=
        fun j inside => (h.numberedOf inside).trans repeated
      refine ⟨own, answered, ?_⟩
      cases own with
      | some c =>
        have same : (r.ofNode p).map r.cloneOf = (r.ofNode n).map r.cloneOf := by
          refine mapsEqual.mpr (List.forall₂_iff_zip.mpr ⟨along.length_eq, fun {i j} pair => ?_⟩)
          have link := List.forall₂_zip along pair
          exact (Roster.cloneOfUp h.sound (plain j (List.of_mem_zip pair).2) link).symm
        exact same.symm.trans spreads
      | none =>
        obtain ⟨i, alone, unnumbered⟩ := spreads
        rw [alone] at along
        obtain ⟨j, rest, link, tail, only⟩ := List.forall₂_cons_left_iff.mp along
        cases tail
        refine ⟨j, only, fun k met => ?_⟩
        rw [Roster.walkUp h.sound link] at met
        rcases List.mem_cons.mp met with rfl | higher
        · exact plain k (by simp [only])
        · exact unnumbered k higher

theorem followDepth (h : Rostered m trees r) {start j : InstanceId} {path : List Nat} {e' : Entry}
    (found : (Unrolling.entries trees)[start.index]? = some e)
    (found' : (Unrolling.entries trees)[j.index]? = some e') (led : r.follow start path = some j) :
    (m.lineage e'.tree.id).met.length = (m.lineage e.tree.id).met.length + path.length := by
  induction path using List.reverseRecOn generalizing j e' with
  | nil =>
    cases led
    cases found.symm.trans found'
    rfl
  | append_singleton path k ih =>
    obtain ⟨p, led, last⟩ := Roster.followSnoc.mp led
    obtain ⟨x, stored, up⟩ := h.sound.memBelow.mp (List.mem_of_getElem? last)
    cases (h.entryInstance found').symm.trans stored
    obtain ⟨above, there, link⟩ := h.stepUp found' up
    rw [h.wellFormed.lineageChild link, List.length_cons, ih there led, List.length_append,
      List.length_singleton, Nat.add_assoc]

variable {f : FeatureId} {clone : InstanceId}

theorem isOfOnce (h : Rostered m trees r)
    (once : ∀ k, (∃ node, m.node k = .ok node ∧ node.feature = f) ↔ k = n) {j : InstanceId} :
    r.isOf f j = true ↔ j ∈ r.ofNode n := by
  rw [isOfExact, h.ofNodeExact]
  constructor
  · intro carries
    obtain ⟨x, stored, feature⟩ := carries
    obtain ⟨e, found, rfl⟩ := h.instanceEntry stored
    have there := (h.mirror found).stored
    rw [h.entryFeature found there] at feature
    exact ⟨e, found, (once _).mp ⟨_, fetchEqOk.mpr there, feature⟩⟩
  · intro inside
    obtain ⟨e, found, rfl⟩ := inside
    obtain ⟨node, there, feature⟩ := (once _).mpr rfl
    exact ⟨_, h.entryInstance found, (h.entryFeature found (fetchEqOk.mp there)).trans feature⟩

theorem foundSorted (h : Rostered m trees r) (there : clone.index < r.size) :
    ((r.subtree clone).filter fun j => decide (j ∈ r.ofNode n)).Pairwise (·.index < ·.index) := by
  obtain ⟨x, stored⟩ : ∃ x, r.instances[clone.index]? = some x :=
    ⟨_, Array.getElem?_eq_getElem there⟩
  obtain ⟨e, found, -⟩ := h.instanceEntry stored
  obtain ⟨-, exact⟩ := Roster.subtreeExact h.sound there
  refine (h.sound.subtreeOrdered.filter _).imp_of_mem fun {i j} first second earlier => ?_
  rw [List.mem_filter, exact, decide_eq_true_iff] at first second
  obtain ⟨path, led⟩ := h.sound.followExists first.1
  obtain ⟨other, led'⟩ := h.sound.followExists second.1
  obtain ⟨e₁, found₁, node₁⟩ := h.ofNodeExact.mp first.2
  obtain ⟨e₂, found₂, node₂⟩ := h.ofNodeExact.mp second.2
  -- all instances of a node are equally deep, so the order is that of the positions on the way down
  have deep := h.followDepth found found₁ led
  rw [node₁, ← node₂, h.followDepth found found₂ led'] at deep
  have same : path.length = other.length := Nat.add_left_cancel deep.symm
  have less := (List.shortlex_iff_lex same).mp (earlier path other led led')
  exact Roster.followOrdered h.sound h.preordered less same led led'

theorem findUnderOnce (h : Rostered m trees r)
    (once : ∀ k, (∃ node, m.node k = .ok node ∧ node.feature = f) ↔ k = n)
    (there : clone.index < r.size) :
    r.findUnder clone f = .ok ((r.ofNode n).filter fun i => (r.walk i).contains clone) := by
  obtain ⟨distinct, exact⟩ := Roster.subtreeExact h.sound there
  have kinds : (r.subtree clone).filter (r.isOf f) =
      (r.subtree clone).filter fun j => decide (j ∈ r.ofNode n) := by
    refine List.filter_congr fun j _ => ?_
    rw [Bool.eq_iff_iff, h.isOfOnce once, decide_eq_true_iff]
  have same : (r.subtree clone).filter (fun j => decide (j ∈ r.ofNode n)) =
      (r.ofNode n).filter fun i => (r.walk i).contains clone := by
    refine sortedUnique (h.foundSorted there) ((h.sound.ofNodeSorted n).filter _) ?_
    refine (List.perm_ext_iff_of_nodup (distinct.filter _)
      ((h.sound.ofNodeNodup n).filter _)).mpr ?_
    intro j
    simp only [List.mem_filter, exact, List.contains_iff_mem, Roster.memWalk h.sound,
      decide_eq_true_iff, and_comm]
  have entered := fetchEqOk.mpr (Array.getElem?_eq_getElem there)
  rw [← same, ← kinds]
  exact Roster.findUnderOk entered f

theorem foundAlone (h : Rostered m trees r) (own : m.repeatedAt n = .ok (some c))
    (instant : clone ∈ r.ofNode c) {node : Node} (found : m.nodes[n.index]? = some node) :
    ∃ i, ((r.ofNode n).filter fun i => (r.walk i).contains clone) = [i] := by
  obtain ⟨own', answered, lowest, others⟩ := h.wellFormed.repeatedAtOk found
  cases own.symm.trans answered
  obtain ⟨j, only⟩ := h.aloneInClone instant (lowest c rfl).2 fun o repeated within => by
    obtain ⟨c', same, above⟩ := (others o repeated).mp within
    cases same
    exact above
  have alone : ∀ i, i ∈ ((r.ofNode n).filter fun i => (r.walk i).contains clone) ↔ i ∈ [j] := by
    intro i
    rw [List.mem_filter, List.contains_iff_mem, Roster.memWalk h.sound, only, List.mem_singleton]
  have same := (List.perm_ext_iff_of_nodup ((h.sound.ofNodeNodup n).filter _)
    (List.nodup_singleton j)).mpr alone
  exact ⟨j, List.perm_singleton.mp same⟩

theorem lookups (h : Rostered m trees r) : Lookups m r where
  sorted := h.sound.ofNodeSorted
  spread n node found := h.spreads (fetchEqOk.mp found)
  found := by
    intro f n once clone there
    obtain ⟨node, found, -⟩ := (once n).mpr rfl
    have listed := h.findUnderOnce once there
    refine ⟨listed, fun c own instant => ?_⟩
    obtain ⟨i, alone⟩ := h.foundAlone own instant (fetchEqOk.mp found)
    exact ⟨i, alone ▸ listed⟩

end Rostered

theorem unrollLookups {m : FeatureModel} (built : Built m) (typed : m.Typed) :
    ∃ u, m.unroll = .ok u ∧ Lookups m u.roster := by
  obtain ⟨trees, unrolled, h⟩ := built.wellFormed.unrollOk typed
  exact ⟨_, unrolled, h.lookups⟩

namespace Example

theorem hallLookups : Built hall ∧ hall.Typed ∧ ∃ u, hall.unroll = .ok u ∧ Lookups hall u.roster ∧
    (u.roster.ofNode ⟨3⟩).map u.roster.cloneOf = (u.roster.ofNode ⟨2⟩).map some := by
  have typed : hall.Typed := by decide
  obtain ⟨u, unrolled, lookups⟩ := unrollLookups hallBuilt typed
  obtain ⟨own, answered, spreads⟩ := lookups.spread ⟨3⟩ _ rfl
  have context : hall.repeatedAt ⟨3⟩ = .ok (some ⟨2⟩) := rfl
  cases context.symm.trans answered
  exact ⟨hallBuilt, typed, u, unrolled, lookups, spreads⟩

end Example
end ProductLine
