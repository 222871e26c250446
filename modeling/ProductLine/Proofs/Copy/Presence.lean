import ProductLine.Copy
import ProductLine.Proofs.Encoding.Entries
import ProductLine.Proofs.Encoding.Groups
import ProductLine.Proofs.Model.Contexts
import ProductLine.Proofs.Roster.Search

/-!
What a copy of a constraint sees. Every node has an instance, and every node below a repeated one
has an instance below each clone, so a look-up never comes back empty; what a feature stands for
does not depend on the policy for missing instances.
-/
namespace ProductLine
open Relation (ReflTransGen)

structure Rostered (m : FeatureModel) (trees : List Tree) (r : Roster) : Prop where
  wellFormed : WellFormed m
  tops : trees.map Tree.id = m.roots
  mirrors : ∀ t ∈ trees, Tree.Mirrors m t
  roster : r = (Unrolling.ofForest trees).roster

theorem WellFormed.rostered {m : FeatureModel} (w : WellFormed m) {u : Unrolling}
    (unrolled : m.unroll = .ok u) : ∃ trees, Rostered m trees u.roster := by
  obtain ⟨trees, grown, rfl⟩ := mapEqOk.mp unrolled
  obtain ⟨tops, mirrors⟩ := w.forestMirrors grown
  exact ⟨trees, w, tops, mirrors, rfl⟩

theorem WellFormed.unrollOk {m : FeatureModel} (w : WellFormed m) (typed : m.Typed) :
    ∃ trees, m.unroll = .ok (.ofForest trees) ∧
      Rostered m trees (Unrolling.ofForest trees).roster := by
  obtain ⟨trees, grown⟩ := w.forestExists typed
  obtain ⟨tops, mirrors⟩ := w.forestMirrors grown
  exact ⟨trees, mapEqOk.mpr ⟨trees, grown, rfl⟩, w, tops, mirrors, rfl⟩

namespace Rostered
variable {m : FeatureModel} {trees : List Tree} {r : Roster} {n p c : NodeId} {i : Nat} {e : Entry}

theorem sound (h : Rostered m trees r) : r.Sound := h.roster ▸ Unrolling.rosterSound trees

theorem entryInstance (h : Rostered m trees r) (found : (Unrolling.entries trees)[i]? = some e) :
    r.instances[i]? = some e.toInstance := by
  rw [h.roster]
  exact Unrolling.entryStored found

theorem instanceEntry (h : Rostered m trees r) {x : Instance} (stored : r.instances[i]? = some x) :
    ∃ e, (Unrolling.entries trees)[i]? = some e ∧ e.toInstance = x := by
  rw [h.roster, Unrolling.instanceAt, Option.map_eq_some_iff] at stored
  exact stored

theorem mirror (h : Rostered m trees r) (found : (Unrolling.entries trees)[i]? = some e) :
    Tree.Mirrors m e.tree :=
  Unrolling.entriesMirror h.mirrors (List.mem_of_getElem? found)

theorem stepDown (h : Rostered m trees r) (found : (Unrolling.entries trees)[i]? = some e)
    (up : m.IsParent e.tree.id n) : ∃ (j : Nat) (e' : Entry),
      (Unrolling.entries trees)[j]? = some e' ∧ e'.parent = some ⟨i⟩ ∧ e'.tree.id = n := by
  have mirror := h.mirror found
  have stored := mirror.stored
  obtain ⟨node, there, up⟩ := up
  have listed := (h.wellFormed.linked.children stored n).mpr ⟨node, there, up⟩
  obtain ⟨t, child, rfl⟩ := mirror.childOf listed
  obtain ⟨o, first⟩ := Placed.someOccurrence t.place e.occurrence.suffix?
  obtain ⟨j, e', found', up', tree, -⟩ :=
    Unrolling.childEntry found child (List.mem_of_getElem? first)
  exact ⟨j, e', found', up', congrArg Tree.id tree⟩

theorem nodeEntry (h : Rostered m trees r) {node : Node} (there : m.nodes[n.index]? = some node) :
    ∃ (i : Nat) (e : Entry), (Unrolling.entries trees)[i]? = some e ∧ e.tree.id = n := by
  refine h.wellFormed.downward (motive := fun n => ∃ (i : Nat) (e : Entry),
    (Unrolling.entries trees)[i]? = some e ∧ e.tree.id = n) ?_ ?_ n node there
  · intro n node there up
    have root := (h.wellFormed.linked.roots n).mpr ⟨node, there, up⟩
    obtain ⟨t, member, rfl⟩ := List.mem_map.mp (h.tops ▸ root)
    obtain ⟨j, e, found, -, seat⟩ := Unrolling.topEntry member
    exact ⟨j, e, found, congrArg (fun s : Seat => s.1.id) seat⟩
  · intro n p up above
    obtain ⟨i, e, found, rfl⟩ := above
    obtain ⟨j, e', found', -, id⟩ := h.stepDown found up
    exact ⟨j, e', found', id⟩

theorem entryWithin (h : Rostered m trees r) (found : (Unrolling.entries trees)[i]? = some e)
    (within : m.Within e.tree.id n) : ∃ (j : Nat) (e' : Entry),
      (Unrolling.entries trees)[j]? = some e' ∧ r.Within ⟨i⟩ ⟨j⟩ ∧ e'.tree.id = n := by
  induction within with
  | refl => exact ⟨i, e, found, .refl, rfl⟩
  | tail _ up ih =>
    obtain ⟨j, e', found', below, rfl⟩ := ih
    obtain ⟨k, e'', found'', up', id⟩ := h.stepDown found' up
    exact ⟨k, e'', found'', below.tail ⟨_, h.entryInstance found'', up'⟩, id⟩

theorem ofNodeExact (h : Rostered m trees r) {j : InstanceId} : j ∈ r.ofNode n ↔
    ∃ e, (Unrolling.entries trees)[j.index]? = some e ∧ e.tree.id = n := by
  rw [h.sound.memOfNode]
  constructor
  · intro inside
    obtain ⟨x, stored, node⟩ := inside
    obtain ⟨e, found, rfl⟩ := h.instanceEntry stored
    exact ⟨e, found, node⟩
  · intro inside
    obtain ⟨e, found, id⟩ := inside
    exact ⟨_, h.entryInstance found, id⟩

theorem entryFeature (h : Rostered m trees r) (found : (Unrolling.entries trees)[i]? = some e)
    {node : Node} (there : m.nodes[e.tree.id.index]? = some node) :
    e.toInstance.feature = node.feature := by
  obtain ⟨stored, known, -⟩ := FeatureModel.placedEqOk.mp (h.mirror found).placed
  cases Option.some.inj (stored.symm.trans there)
  exact h.wellFormed.declared.ids known

variable {f : FeatureId} {clone : InstanceId}

theorem isOfExact {j : InstanceId} : r.isOf f j = true ↔
    ∃ x, r.instances[j.index]? = some x ∧ x.feature = f := by
  simp [Roster.isOf, Option.any_eq_true]

theorem placedEverywhere (h : Rostered m trees r) (placed : m.placement f = some n) :
    r.ofNode n ≠ [] := by
  obtain ⟨node, there, -⟩ := h.wellFormed.placementNode placed
  obtain ⟨i, e, found, id⟩ := h.nodeEntry there
  have inside : InstanceId.mk i ∈ r.ofNode n := h.ofNodeExact.mpr ⟨e, found, id⟩
  exact List.ne_nil_of_mem inside

theorem placedUnder (h : Rostered m trees r) (placed : m.placement f = some n)
    (within : m.Within c n) (instant : clone ∈ r.ofNode c) :
    ∃ j, r.Within clone j ∧ r.isOf f j = true := by
  obtain ⟨node, there, carries⟩ := h.wellFormed.placementNode placed
  obtain ⟨e, found, rfl⟩ := h.ofNodeExact.mp instant
  obtain ⟨j, e', found', below, rfl⟩ := h.entryWithin found within
  refine ⟨⟨j⟩, below, isOfExact.mpr ⟨_, h.entryInstance found', ?_⟩⟩
  rw [h.entryFeature found' there, carries]

end Rostered

def Resolution.Answers (placement : Option NodeId) (found : NodeId → InstanceId → Prop) :
    Resolution → Prop
  | .itself => placement = none
  | .instances ids => ids ≠ [] ∧ ids.Nodup ∧ ∃ n, placement = some n ∧ ∀ j, j ∈ ids ↔ found n j

namespace CopySource
variable {m : FeatureModel} {trees : List Tree} {r : Roster} {c : NodeId} {clone : InstanceId}
  {f : FeatureId}

theorem foundSome {s : CopySource} {label : String} {ids : List InstanceId} (some : ids ≠ []) :
    s.found f label ids = .ok (.instances ids) := by
  cases ids with
  | nil => exact absurd rfl some
  | cons i ids => rfl

theorem everywhereItself {policy : MissingPolicy} (unplaced : m.placement f = none) :
    (CopySource.mk m r policy).everywhere f = .ok .itself := by
  simp only [everywhere, unplaced]

theorem everywhereListed (h : Rostered m trees r) {policy : MissingPolicy} {n : NodeId}
    (placed : m.placement f = some n) :
    (CopySource.mk m r policy).everywhere f = .ok (.instances (r.ofNode n)) := by
  simp only [everywhere, placed, foundSome (h.placedEverywhere placed)]

theorem everywhereOk (h : Rostered m trees r) (f : FeatureId) : ∃ answer,
    (∀ policy, (CopySource.mk m r policy).everywhere f = .ok answer) ∧
    answer.Answers (m.placement f) fun n j => j ∈ r.ofNode n := by
  cases placed : m.placement f with
  | none => exact ⟨.itself, fun policy => everywhereItself placed, rfl⟩
  | some n =>
    exact ⟨.instances (r.ofNode n), fun policy => everywhereListed h placed,
      h.placedEverywhere placed, h.sound.ofNodeNodup n, n, rfl, fun j => .rfl⟩

theorem belongsExact (w : WellFormed m) (c : NodeId) (f : FeatureId) :
    ∃ own inside, m.context f = .ok own ∧
      (∀ r policy, (CopySource.mk m r policy).belongs c own = .ok inside) ∧
      (inside = true ↔ ∃ o, own = .within o ∧ m.Within c o) := by
  obtain ⟨own, answered, repeats, -⟩ := w.contextOk f
  refine ⟨own, ?_⟩
  cases own with
  | root => exact ⟨false, answered, fun _ _ => rfl, by simp⟩
  | within o =>
    simp only [belongs, Context.within.injEq, exists_eq_left',
      Relation.reflTransGen_iff_eq_or_transGen]
    by_cases same : o = c
    · refine ⟨true, answered, fun _ _ => if_pos same, ?_⟩
      simp [same]
    · obtain ⟨node, there, -⟩ := (Option.any_eq_true _ _).mp (repeats o rfl)
      obtain ⟨inside, searched, above⟩ := w.isAncestorOk c there
      refine ⟨inside, answered, fun _ _ => ?_, ?_⟩
      · rw [if_neg same, searched]
      · rw [above]
        simp [same]

theorem belongsOk (w : WellFormed m) (repeated : m.repeats c = true) (f : FeatureId) :
    ∃ own inside, m.context f = .ok own ∧
      (∀ r policy, (CopySource.mk m r policy).belongs c own = .ok inside) ∧
      (inside = true ↔ ∃ n, m.placement f = some n ∧ m.Within c n) := by
  obtain ⟨own, inside, answered, belongs, exact⟩ := belongsExact w c f
  obtain ⟨own', answered', -, within⟩ := w.contextOk f
  cases answered.symm.trans answered'
  exact ⟨own, inside, answered, belongs, exact.trans (within c repeated).symm⟩

theorem seenFromEq {s : CopySource} {own : Context} {inside : Bool} {x : Instance}
    (context : s.model.context f = .ok own) (belongs : s.belongs c own = .ok inside)
    (entered : s.roster.get clone = .ok x) : s.seenFrom c clone f =
      if inside then s.found f x.identifier ((s.roster.subtree clone).filter (s.roster.isOf f))
      else s.everywhere f := by
  have found := Roster.findUnderOk entered f
  simp only [seenFrom, context, belongs, entered, found, bind, Except.bind]

theorem seenFromOk (h : Rostered m trees r) (repeated : m.repeats c = true)
    (instant : clone ∈ r.ofNode c) (f : FeatureId) : ∃ answer,
    (∀ policy, (CopySource.mk m r policy).seenFrom c clone f = .ok answer) ∧
    answer.Answers (m.placement f) fun n j =>
      m.Within c n ∧ r.Within clone j ∧ r.isOf f j = true ∨ ¬ m.Within c n ∧ j ∈ r.ofNode n := by
  obtain ⟨own, inside, context, belongs, exact⟩ := belongsOk h.wellFormed repeated f
  obtain ⟨e, found, -⟩ := h.ofNodeExact.mp instant
  have fetched : r.get clone = .ok e.toInstance := fetchEqOk.mpr (h.entryInstance found)
  have there : clone.index < r.size := storedBelow (h.entryInstance found)
  obtain ⟨distinct, below⟩ := Roster.subtreeExact h.sound there
  cases inside with
  | true =>
    obtain ⟨n, placed, within⟩ := exact.mp rfl
    obtain ⟨j, under, has⟩ := h.placedUnder placed within instant
    have some : (r.subtree clone).filter (r.isOf f) ≠ [] :=
      List.ne_nil_of_mem (List.mem_filter.mpr ⟨(below j).mpr under, has⟩)
    refine ⟨.instances ((r.subtree clone).filter (r.isOf f)), fun policy => ?_, some,
      distinct.filter _, n, placed, fun j => ?_⟩
    · rw [seenFromEq context (belongs r policy) fetched, if_pos rfl, foundSome some]
    · rw [List.mem_filter, below]
      simp [within]
  | false =>
    obtain ⟨answer, answered, answers⟩ := everywhereOk h f
    refine ⟨answer, fun policy => ?_, ?_⟩
    · rw [seenFromEq context (belongs r policy) fetched, if_neg Bool.false_ne_true, answered policy]
    · cases answer with
      | itself => exact answers
      | instances ids =>
        obtain ⟨some, distinct, n, placed, listed⟩ := answers
        have outside : ¬ m.Within c n := fun within => by
          have := exact.mpr ⟨n, placed, within⟩
          contradiction
        refine ⟨some, distinct, n, placed, fun j => ?_⟩
        rw [listed]
        simp [outside]

end CopySource
end ProductLine
