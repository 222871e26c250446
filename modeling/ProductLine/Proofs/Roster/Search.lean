import Mathlib.Data.Finset.Card
import Mathlib.Data.Finset.Range
import ProductLine.Proofs.Roster.Links

/-!
The search below an instance. It meets the instance and those below it, each once: the queue holds
instances none of which lies below another, so what it still leads to shrinks by one at each step.
-/
namespace ProductLine
open Relation (ReflTransGen)

namespace Roster
variable {r : Roster} {a b i j p q : InstanceId}

theorem parentUnique (hp : r.IsParent p i) (hq : r.IsParent q i) : p = q := by
  obtain ⟨x, stored, up⟩ := hp
  obtain ⟨x', stored', up'⟩ := hq
  cases stored.symm.trans stored'
  exact Option.some.inj (up.symm.trans up')

namespace Sound

theorem parentBefore (sound : Sound r) (up : r.IsParent p i) : p.index < i.index := by
  obtain ⟨x, stored, up⟩ := up
  exact sound.parents stored up

theorem withinLe (sound : Sound r) (within : r.Within a i) : a.index ≤ i.index := by
  induction within with
  | refl => exact Nat.le_refl _
  | tail _ up ih =>
    have := sound.parentBefore up
    omega

theorem memBelow (sound : Sound r) : j ∈ r.below i ↔ r.IsParent i j := by
  simp only [sound.belowEq, memThose, IsParent, beq_iff_eq]

theorem belowSorted (sound : Sound r) (i : InstanceId) :
    (r.below i).Pairwise (fun j k => j.index < k.index) :=
  sound.belowEq i ▸ thoseSorted _

theorem belowNodup (sound : Sound r) (i : InstanceId) : (r.below i).Nodup :=
  sortedNodup (sound.belowSorted i)

theorem siblingsApart (sound : Sound r) {c d : InstanceId} (up : r.IsParent i c)
    (up' : r.IsParent i d) (different : c ≠ d) : ¬ r.Within c d := by
  intro within
  rcases (ReflTransGen.cases_tail_iff _ _ _).mp within with rfl | ⟨p, above, link⟩
  · exact different rfl
  · cases parentUnique up' link
    have := sound.withinLe above
    have := sound.parentBefore up
    omega

end Sound

def Reaches (r : Roster) (queue : List InstanceId) (i : InstanceId) : Prop :=
  ∃ q ∈ queue, r.Within q i

structure Apart (r : Roster) (queue : List InstanceId) : Prop where
  there : ∀ q ∈ queue, q.index < r.size
  apart : queue.Pairwise fun p q => ¬ r.Within p q ∧ ¬ r.Within q p

open Classical in
noncomputable def reached (r : Roster) (queue : List InstanceId) : Finset Nat :=
  (Finset.range r.size).filter fun j => r.Reaches queue ⟨j⟩

theorem memReached {queue : List InstanceId} {k : Nat} :
    k ∈ r.reached queue ↔ k < r.size ∧ r.Reaches queue ⟨k⟩ := by
  simp [reached]

theorem reachedFew (queue : List InstanceId) : (r.reached queue).card ≤ r.size := by
  have few := Finset.card_le_card (s := r.reached queue) (t := Finset.range r.size) fun k inside =>
    Finset.mem_range.mpr (memReached.mp inside).1
  rwa [Finset.card_range] at few

variable {rest : List InstanceId}

theorem Apart.step (sound : Sound r) (apart : r.Apart (i :: rest)) :
    r.Apart (rest ++ r.below i) where
  there := by
    intro q inside
    rcases List.mem_append.mp inside with old | child
    · exact apart.there q (List.mem_cons_of_mem _ old)
    · obtain ⟨x, stored, -⟩ := sound.memBelow.mp child
      exact storedBelow stored
  apart := by
    obtain ⟨first, others⟩ := List.pairwise_cons.mp apart.apart
    refine List.pairwise_append.mpr ⟨others, ?_, fun q old c child => ?_⟩
    · refine (sound.belowNodup i).pairwise_of_forall_ne fun c child c' child' different => ?_
      have up := sound.memBelow.mp child
      have up' := sound.memBelow.mp child'
      exact ⟨sound.siblingsApart up up' different, sound.siblingsApart up' up different.symm⟩
    · have up := sound.memBelow.mp child
      obtain ⟨notBelow, notAbove⟩ := first q old
      constructor
      · intro within
        rcases (ReflTransGen.cases_tail_iff _ _ _).mp within with rfl | ⟨p, above, link⟩
        · exact notBelow (.single up)
        · cases parentUnique up link
          exact notAbove above
      · intro within
        exact notBelow (.head up within)

theorem reachesStep (sound : Sound r) :
    r.Reaches (i :: rest) j ↔ j = i ∨ r.Reaches (rest ++ r.below i) j := by
  constructor
  · intro h
    obtain ⟨q, inside, within⟩ := h
    rcases List.mem_cons.mp inside with rfl | old
    · rcases ReflTransGen.cases_head_iff.mp within with rfl | ⟨c, up, within⟩
      · exact .inl rfl
      · exact .inr ⟨c, List.mem_append_right _ (sound.memBelow.mpr up), within⟩
    · exact .inr ⟨q, List.mem_append_left _ old, within⟩
  · intro h
    rcases h with rfl | ⟨q, inside, within⟩
    · exact ⟨j, List.mem_cons_self, .refl⟩
    · rcases List.mem_append.mp inside with old | child
      · exact ⟨q, List.mem_cons_of_mem _ old, within⟩
      · exact ⟨i, List.mem_cons_self, .head (sound.memBelow.mp child) within⟩

theorem Apart.leaves (sound : Sound r) (apart : r.Apart (i :: rest)) :
    ¬ r.Reaches (rest ++ r.below i) i := by
  intro h
  obtain ⟨q, inside, within⟩ := h
  rcases List.mem_append.mp inside with old | child
  · exact ((List.pairwise_cons.mp apart.apart).1 q old).2 within
  · have := sound.withinLe within
    have := sound.parentBefore (sound.memBelow.mp child)
    omega

theorem Apart.shrinks (sound : Sound r) (apart : r.Apart (i :: rest)) :
    (r.reached (i :: rest)).card = (r.reached (rest ++ r.below i)).card + 1 := by
  have parts : r.reached (i :: rest) = insert i.index (r.reached (rest ++ r.below i)) := by
    ext k
    have there := apart.there i List.mem_cons_self
    simp only [memReached, Finset.mem_insert, reachesStep sound]
    constructor
    · intro h
      rcases h.2 with same | later
      · exact .inl (congrArg InstanceId.index same)
      · exact .inr ⟨h.1, later⟩
    · intro h
      rcases h with rfl | later
      · exact ⟨there, .inl rfl⟩
      · exact ⟨later.1, .inr later.2⟩
  rw [parts, Finset.card_insert_of_notMem]
  intro inside
  exact apart.leaves sound (memReached.mp inside).2

theorem unqueueExact (sound : Sound r) {steps : Nat} {queue : List InstanceId}
    (apart : r.Apart queue) (enough : (r.reached queue).card ≤ steps) :
    (r.unqueue steps queue).Nodup ∧ ∀ j, j ∈ r.unqueue steps queue ↔ r.Reaches queue j := by
  induction steps generalizing queue with
  | zero =>
    cases queue with
    | nil => simp [unqueue, Reaches]
    | cons i rest =>
      have := apart.shrinks sound
      omega
  | succ steps ih =>
    cases queue with
    | nil => simp [unqueue, Reaches]
    | cons i rest =>
      -- each step takes one instance off what the queue leads to
      have fewer := apart.shrinks sound
      obtain ⟨distinct, exact⟩ := ih (apart.step sound) (by omega)
      rw [unqueue]
      refine ⟨List.nodup_cons.mpr ⟨?_, distinct⟩, fun j => ?_⟩
      · intro inside
        exact apart.leaves sound ((exact i).mp inside)
      · rw [List.mem_cons, exact, reachesStep sound]

theorem findUnderOk {x : Instance} (entered : r.get i = .ok x) (f : FeatureId) :
    r.findUnder i f = .ok ((r.subtree i).filter (r.isOf f)) := bindEqOk.mpr ⟨x, entered, rfl⟩

theorem subtreeExact (sound : Sound r) (there : i.index < r.size) :
    (r.subtree i).Nodup ∧ ∀ j, j ∈ r.subtree i ↔ r.Within i j := by
  have apart : r.Apart [i] := ⟨by simpa using there, List.pairwise_singleton _ _⟩
  obtain ⟨distinct, exact⟩ := unqueueExact sound apart (reachedFew [i])
  refine ⟨distinct, fun j => ?_⟩
  rw [subtree, exact]
  simp [Reaches]

end Roster
end ProductLine
