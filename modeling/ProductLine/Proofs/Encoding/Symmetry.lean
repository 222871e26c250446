import ProductLine.Proofs.Encoding.Bounds
import ProductLine.Proofs.Encoding.Identifiers
import ProductLine.Proofs.Encoding.Recasting

/-!
Asking for clones in order loses no choice of instances. If all conjuncts hold but the links from a
clone to the one before it, then every instance can take the value of its source: the links hold,
the other conjuncts hold as before, and no node gains or loses a selected instance.
-/
namespace ProductLine

/-- A conjunct that asks for a clone when the next one is selected. -/
def Roster.ChainLink (r : Roster) (f : Formula) : Prop :=
  ∃ (i j : InstanceId) (x y : Instance) (k : Nat), r.instances[i.index]? = some x ∧
    r.instances[j.index]? = some y ∧ y.node = x.node ∧ y.parent = x.parent ∧
    x.index = some (k + 1) ∧ y.index = some k ∧ f = .implies x.term y.term

namespace Variable
variable {v : Variable}

theorem selectedAlone : (∀ f g, v.selected ≠ .implies f g) ∧ ∀ c fs, v.selected ≠ .join c fs := by
  unfold selected
  split <;> simp

end Variable

namespace Rostered
variable {m : FeatureModel} {trees : List Tree} {r : Roster} {i j : Nat} {e e' : Entry}

section Links
variable (h : Rostered m trees r) (once : m.PlacedOnce) (apart : m.NamesApart)
include h

theorem joinUnlinked {f : Formula} {c : Connective} {fs : List Formula} :
    ¬ r.ChainLink (.implies f (.join c fs)) := by
  intro link
  obtain ⟨_, k, _, y, _, -, stored, -, -, -, -, same⟩ := link
  obtain ⟨e, found, rfl⟩ := h.instanceEntry stored
  have term := (Formula.implies.inj same).2
  rw [entryTerm found] at term
  exact Variable.selectedAlone.2 _ _ term.symm

include once apart

theorem termOnce (found : (Unrolling.entries trees)[i]? = some e)
    (found' : (Unrolling.entries trees)[j]? = some e')
    (same : e.occurrence.term = e'.occurrence.term) : i = j := by
  have term : e.occurrence.term = _ := entryTerm found
  have term' : e'.occurrence.term = _ := entryTerm found'
  rw [term, term'] at same
  have names := Variable.selectedOnce same
  exact h.identifierOnce once apart found found' names

theorem linkSiblings (found : (Unrolling.entries trees)[i]? = some e)
    (found' : (Unrolling.entries trees)[j]? = some e')
    (link : r.ChainLink (.implies e.occurrence.term e'.occurrence.term)) :
    e.parent = e'.parent := by
  obtain ⟨k, l, x, y, -, stored, stored', -, up, -, -, same⟩ := link
  obtain ⟨left, right⟩ := Formula.implies.inj same
  obtain ⟨c, there, rfl⟩ := h.instanceEntry stored
  obtain ⟨c', there', rfl⟩ := h.instanceEntry stored'
  cases h.termOnce once apart found there left
  cases h.termOnce once apart found' there' right
  cases found.symm.trans there
  cases found'.symm.trans there'
  exact up.symm

theorem parentUnlinked (found : (Unrolling.entries trees)[i]? = some e)
    (found' : (Unrolling.entries trees)[j]? = some e') (up : e'.parent = some ⟨i⟩) :
    ¬ r.ChainLink (.implies e'.occurrence.term e.occurrence.term) ∧
      ¬ r.ChainLink (.implies e.occurrence.term e'.occurrence.term) := by
  have loop : e.parent ≠ some ⟨i⟩ := fun same => Nat.lt_irrefl _ (Unrolling.parentBefore found same)
  constructor
  · intro link
    exact loop ((h.linkSiblings once apart found' found link).symm.trans up)
  · intro link
    exact loop ((h.linkSiblings once apart found found' link).trans up)

theorem groupUnlinked (found : (Unrolling.entries trees)[i]? = some e) {f : Formula}
    (inside : f ∈ e.tree.place.groupConjuncts e.occurrence.term e.occurrence.suffix?
      (e.tree.children.map Tree.place)) : ¬ r.ChainLink f := by
  rcases memEncodeGroups.mp inside with ⟨c, member, -, rfl⟩ | ⟨i, kind, -, -, encoded⟩
  · obtain ⟨q, listed, rfl⟩ := List.mem_map.mp member
    obtain ⟨t, child, rfl⟩ := List.mem_map.mp listed
    -- a link joins two instances with one parent, and a forced child lies below the owner
    cases spread : t.place.spread e.occurrence.suffix? with
    | clones os =>
      rw [Placed.member, spread]
      exact h.joinUnlinked
    | single o =>
      have only : o ∈ (t.place.spread e.occurrence.suffix?).occurrences := by
        simp [spread, Spread.occurrences]
      obtain ⟨j, e', found', up, -, rfl⟩ := Unrolling.childEntry found child only
      rw [Placed.member, spread]
      exact (h.parentUnlinked once apart found found' up).2
  · obtain ⟨rule, -, rfl⟩ := Option.map_eq_some_iff.mp encoded
    exact h.joinUnlinked

end Links
end Rostered

structure Unordered (m : FeatureModel) (trees : List Tree) (a : Assignment) : Prop where
  rostered : Rostered m trees (Unrolling.ofForest trees).roster
  once : m.PlacedOnce
  apart : m.NamesApart
  valued : ∀ x ∈ (Unrolling.ofForest trees).roster.instances, x.term.Valued a
  holds : ∀ f ∈ (Unrolling.ofForest trees).conjuncts,
    ¬ (Unrolling.ofForest trees).roster.ChainLink f → f.evaluate a = some true

namespace Unordered
variable {m : FeatureModel} {trees : List Tree} {a b : Assignment} {i : Nat} {e e' : Entry}
    {t : Tree} {f : Formula}

theorem least (h : Unordered m trees a) (found : (Unrolling.entries trees)[i]? = some e)
    (child : t ∈ e.tree.children) (selected : e.occurrence.term.isTrue a = true)
    (repeated : t.place.node.isRepeated = true) : t.place.node.cardinality.lower.toNat ≤
      (t.place.spread e.occurrence.suffix?).occurrences.countP fun o => o.term.isTrue a := by
  refine (Placed.boundExact (Unrolling.entryValued h.valued found)
    (Unrolling.childValued h.valued found child) _).mp (fun f bound => ?_) selected repeated
  have listed := Unrolling.memConditions found child (List.mem_append_right _ bound)
  refine Formula.isTrueIff.mpr (h.holds f listed ?_)
  obtain ⟨os, -, rfl⟩ := Spread.boundForm bound
  exact h.rostered.joinUnlinked

theorem parents (h : Unordered m trees a) (found : (Unrolling.entries trees)[i]? = some e)
    (child : t ∈ e.tree.children) {o : Occurrence}
    (inside : o ∈ (t.place.spread e.occurrence.suffix?).occurrences)
    (selected : o.term.isTrue a = true) : e.occurrence.term.isTrue a = true := by
  obtain ⟨previous, step⟩ := Spread.stepTo inside
  obtain ⟨j, e', found', up, -, rfl⟩ := Unrolling.childEntry found child inside
  have needed : Formula.implies e'.occurrence.term e.occurrence.term ∈
      t.place.conditions e.occurrence.term e.occurrence.suffix? :=
    List.mem_append_left _ (List.mem_flatMap.mpr ⟨_, step, Placed.memConditions.mpr (.inl rfl)⟩)
  have unlinked := h.rostered.parentUnlinked h.once h.apart found found' up
  have holds := h.holds _ (Unrolling.memConditions found child needed) unlinked.1
  exact (Formula.impliesTrue (Unrolling.entryValued h.valued found')).mp
    (Formula.isTrueIff.mpr holds) selected

theorem follows (h : Unordered m trees a) (found : (Unrolling.entries trees)[i]? = some e')
    (plays : e.Plays a b e') (child : t ∈ e.tree.children) :
    t.place.Follows b e.occurrence.term (t.place.spread e.occurrence.suffix?).occurrences := by
  have below := plays.spread t child
  have played : t ∈ e'.tree.children := plays.tree ▸ child
  have owner : e.occurrence.term.isTrue b = e'.occurrence.term.isTrue a := by
    rw [Formula.isTrue, Formula.isTrue, plays.term]
  refine ⟨fun o inside selected => ?_, fun k q o before after selected => ?_,
    fun selected repeated => ?_⟩
  · -- moving to the front selects nothing new, so some played occurrence is selected
    have shown : true ∈ (t.place.spread e.occurrence.suffix?).occurrences.map
        fun o => o.term.isTrue b := List.mem_map.mpr ⟨o, inside, selected⟩
    rw [below, (frontedPerm id _).mem_iff] at shown
    obtain ⟨o', inside', selected'⟩ := List.mem_map.mp shown
    rw [owner]
    exact h.parents found played inside' selected'
  · have at' : ∀ (k : Nat) (o : Occurrence),
        (t.place.spread e.occurrence.suffix?).occurrences[k]? = some o →
        (fronted id ((t.place.spread e'.occurrence.suffix?).occurrences.map
          fun o => o.term.isTrue a))[k]? = some (o.term.isTrue b) := by
      intro k o found
      rw [← below, List.getElem?_map, found]
      rfl
    have earlier : id (q.term.isTrue b) = true :=
      frontedSteps (at' k q before) (at' (k + 1) o after) selected
    exact earlier
  · have enough := h.least found played (owner ▸ selected) repeated
    have count := (frontedPerm id ((t.place.spread e'.occurrence.suffix?).occurrences.map
      fun o => o.term.isTrue a)).countP_eq id
    rw [← below, List.countP_map, List.countP_map] at count
    simp only [Function.comp_def, id] at count
    rw [count]
    exact enough

variable (h : Unordered m trees a) (moved : (Unrolling.ofForest trees).roster.Moved a b)
include h moved

theorem movedValued : ∀ x ∈ (Unrolling.ofForest trees).roster.instances, x.term.Valued b := by
  intro x inside
  obtain ⟨i, stored⟩ := Array.mem_iff_getElem?.mp inside
  obtain ⟨e, found, rfl⟩ := h.rostered.instanceEntry stored
  obtain ⟨e', found', -, term⟩ := h.rostered.entryMoved moved found
  obtain ⟨value, known⟩ := Unrolling.entryValued h.valued found'
  exact ⟨value, term.trans known⟩

theorem movedRoots (member : t ∈ trees) (root : f ∈ t.place.rootConjuncts) :
    f.evaluate b = some true := by
  obtain ⟨j, e, found, top, seat⟩ := Unrolling.topEntry member
  have stands : (Unrolling.ofForest trees).roster.Stands none ⟨j⟩ (e.tree.id, e.occurrence.index) :=
    ⟨_, h.rostered.entryInstance found, top, rfl, rfl⟩
  obtain ⟨e', found', plays⟩ := h.rostered.entryPlays moved found
  rw [Roster.sourceTop stands] at found'
  cases found.symm.trans found'
  have occurrence : e.occurrence = t.occurrence := congrArg Prod.snd seat
  have listed := Unrolling.memConjuncts.mpr (.inl ⟨t, member, root⟩)
  obtain ⟨-, rfl⟩ := Placed.memRootConjuncts.mp root
  have demanded : (t.place.occurrence none none).term = e.occurrence.term := by
    rw [occurrence]
    rfl
  rw [demanded, plays.term]
  refine h.holds _ (demanded ▸ listed) fun link => ?_
  obtain ⟨_, _, _, _, _, -, -, -, -, -, -, same⟩ := link
  exact Variable.selectedAlone.1 _ _ same

theorem movedGroups (found : (Unrolling.entries trees)[i]? = some e)
    (group : f ∈ e.tree.place.groupConjuncts e.occurrence.term e.occurrence.suffix?
      (e.tree.children.map Tree.place)) : f.evaluate b = some true := by
  obtain ⟨e', found', plays⟩ := h.rostered.entryPlays moved found
  have below : ∀ q ∈ e.tree.children.map Tree.place,
      (q.spread e.occurrence.suffix?).term.evaluate b =
        (q.spread e'.occurrence.suffix?).term.evaluate a := by
    intro q inside
    obtain ⟨t, child, rfl⟩ := List.mem_map.mp inside
    exact plays.spreadRead child (Unrolling.childValued h.valued found' (plays.tree ▸ child))
      (Unrolling.childValued (h.movedValued moved) found child)
  obtain ⟨g, played, same⟩ := Placed.groupConjunctsRead plays.term below group
  rw [← plays.tree] at played
  have seated : g ∈ e'.seat.conjuncts := List.mem_append_left _ played
  rw [same]
  exact h.holds g (Unrolling.memConjuncts.mpr (.inr ⟨e', List.mem_of_getElem? found', seated⟩))
    (h.rostered.groupUnlinked h.once h.apart found' played)

theorem movedSatisfied : (Unrolling.ofForest trees).Satisfied b := by
  have after := h.movedValued moved
  refine ⟨after, fun f listed => ?_⟩
  rcases Unrolling.memConjuncts.mp listed with ⟨t, member, root⟩ | ⟨e, inside, own⟩
  · exact h.movedRoots moved member root
  · obtain ⟨i, found⟩ := List.mem_iff_getElem?.mp inside
    rcases List.mem_append.mp own with group | condition
    · exact h.movedGroups moved found group
    · obtain ⟨t, child, condition⟩ := List.mem_flatMap.mp condition
      obtain ⟨e', found', plays⟩ := h.rostered.entryPlays moved found
      have follows := h.follows found' plays child
      exact Formula.isTrueIff.mp ((Placed.conditionsExact (Unrolling.entryValued after found)
        (Unrolling.childValued after found child)).mpr follows f condition)

end Unordered

/-- Where identifiers are unambiguous, an assignment that meets all conjuncts but the links between
clones can be rearranged to meet the links too, with as many instances of each node selected. -/
theorem linksLoseNothing {m : FeatureModel} (built : Built m) (typed : m.Typed)
    (once : m.PlacedOnce) (apart : m.NamesApart) : ∃ u, m.unroll = .ok u ∧ ∀ a : Assignment,
      (∀ x ∈ u.roster.instances, x.term.Valued a) →
      (∀ f ∈ u.conjuncts, ¬ u.roster.ChainLink f → f.evaluate a = some true) →
      ∃ b : Assignment, u.Satisfied b ∧ ∀ n : NodeId,
        (u.roster.ofNode n).countP (u.roster.selects b) =
          (u.roster.ofNode n).countP (u.roster.selects a) := by
  obtain ⟨trees, unrolled, h⟩ := built.wellFormed.unrollOk typed
  refine ⟨_, unrolled, fun a valued holds => ?_⟩
  have moved : (Unrolling.ofForest trees).roster.Moved a
    ((Unrolling.ofForest trees).roster.recast a) := by
    refine Roster.recastMoved fun i j x y stored stored' same => ?_
    obtain ⟨e, found, rfl⟩ := h.instanceEntry stored
    obtain ⟨e', found', rfl⟩ := h.instanceEntry stored'
    exact h.identifierOnce once apart found found' same
  have unordered : Unordered m trees a := ⟨h, once, apart, valued, holds⟩
  exact ⟨_, unordered.movedSatisfied moved, h.movedCount moved⟩

theorem Formula.literalSame {name : String} {f : Formula}
    (same : (Formula.literal name).same f = true) : f = .literal name := by
  cases f with
  | literal n =>
    rw [Formula.same, beq_iff_eq] at same
    rw [same]
  | _ => cases same

namespace Example

def lastSlot : Assignment :=
  .ofList [("Hall", .bool true), ("Rack_1", .bool false), ("Slot_1.Rack_1", .bool false),
    ("Speed.Slot_1.Rack_1", .int 0), ("Slot_2.Rack_1", .bool false),
    ("Speed.Slot_2.Rack_1", .int 0), ("Rack_2", .bool true), ("Slot_1.Rack_2", .bool false),
    ("Speed.Slot_1.Rack_2", .int 0), ("Slot_2.Rack_2", .bool true), ("Speed.Slot_2.Rack_2", .int 7)]

def links (r : Roster) (f : Formula) (i j : Nat) : Bool :=
  r.instances[i]?.any fun x => r.instances[j]?.any fun y =>
    y.node == x.node && y.parent == x.parent && y.index.any (fun k => x.index == some (k + 1)) &&
      (Formula.literal x.identifier).same x.term && (Formula.literal y.identifier).same y.term &&
      (Formula.implies (.literal x.identifier) (.literal y.identifier)).same f

theorem linksChain {r : Roster} {f : Formula} {i j : Nat} (linked : links r f i j = true) :
    r.ChainLink f := by
  simp only [links, Option.any_eq_true, Bool.and_eq_true, beq_iff_eq] at linked
  obtain ⟨x, stored, y, stored', ⟨⟨⟨⟨node, up⟩, k, before, after⟩, left⟩, right⟩, same⟩ := linked
  refine ⟨⟨i⟩, ⟨j⟩, x, y, k, stored, stored', node, up, after, before, ?_⟩
  rw [Formula.literalSame left, Formula.literalSame right]
  cases f with
  | implies g g' =>
    simp only [Formula.same, Bool.and_eq_true] at same
    rw [Formula.literalSame same.1, Formula.literalSame same.2]
  | _ => cases same

theorem hallRecast : Built hall ∧ hall.Typed ∧ hall.PlacedOnce ∧ hall.NamesApart ∧
    ∃ u, hall.unroll = .ok u ∧ (∀ x ∈ u.roster.instances, x.term.Valued lastSlot) ∧
      (∀ f ∈ u.conjuncts, ¬ u.roster.ChainLink f → f.evaluate lastSlot = some true) ∧
      ¬ u.Satisfied lastSlot ∧ ∃ b : Assignment, u.Satisfied b ∧ ∀ n : NodeId,
        (u.roster.ofNode n).countP (u.roster.selects b) =
          (u.roster.ofNode n).countP (u.roster.selects lastSlot) := by
  have typed : hall.Typed := by decide
  have once : hall.PlacedOnce := by decide
  have apart : hall.NamesApart := FeatureModel.namesApart (by decide)
  obtain ⟨u, unrolled, recasts⟩ := linksLoseNothing hallBuilt typed once apart
  have checked : hall.unroll.toOption.any (fun u =>
      decide (∀ x ∈ u.roster.instances, x.term.Valued lastSlot) &&
        decide (¬ u.Satisfied lastSlot) && u.conjuncts.all fun f =>
          links u.roster f 6 1 || links u.roster f 9 7 ||
            f.evaluate lastSlot == some true) = true := by
    decide +kernel
  rw [unrolled] at checked
  simp only [Except.toOption, Option.any_some, Bool.and_eq_true, decide_eq_true_eq,
    List.all_eq_true, Bool.or_eq_true, beq_iff_eq] at checked
  obtain ⟨⟨valued, unsatisfied⟩, others⟩ := checked
  have holds : ∀ f ∈ u.conjuncts, ¬ u.roster.ChainLink f → f.evaluate lastSlot = some true := by
    intro f listed unlinked
    rcases others f listed with (first | second) | holds
    · exact absurd (linksChain first) unlinked
    · exact absurd (linksChain second) unlinked
    · exact holds
  exact ⟨hallBuilt, typed, once, apart, u, unrolled, valued, holds, unsatisfied,
    recasts lastSlot valued holds⟩

end Example
end ProductLine
