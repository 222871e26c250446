import Mathlib.Logic.Relation
import ProductLine.Roster
import ProductLine.Proofs.Formula.Truth
import ProductLine.Proofs.Model.Stores

/-!
What the lists of a roster say: those below an instance are the instances with it as parent, those
of a node are the instances that occur there, in order of entry. Entering below an earlier instance
keeps this.
-/
namespace ProductLine
open Relation (ReflTransGen)

namespace Roster

def those (r : Roster) (kind : Instance → Bool) : List InstanceId :=
  ((List.range r.size).filter fun i => r.instances[i]?.any kind).map InstanceId.mk

def IsParent (r : Roster) (p i : InstanceId) : Prop :=
  ∃ x, r.instances[i.index]? = some x ∧ x.parent = some p

abbrev Within (r : Roster) (a i : InstanceId) : Prop := ReflTransGen r.IsParent a i

def under (r : Roster) (above : Option InstanceId) (n : NodeId) : List InstanceId :=
  r.those fun x => x.parent == above && x.node == n

def selects (r : Roster) (a : Assignment) (i : InstanceId) : Bool :=
  r.instances[i.index]?.any fun x => x.term.isTrue a

structure Sound (r : Roster) : Prop where
  parents : ∀ {i : Nat} {x : Instance} {p : InstanceId}, r.instances[i]? = some x →
    x.parent = some p → p.index < i
  children : ∀ i : Nat, r.children[i]? =
    if i < r.size then some (r.those fun x => x.parent == some ⟨i⟩) else none
  nodes : ∀ n : NodeId, r.ofNode n = r.those fun x => x.node == n

variable {r : Roster}

theorem memThose {kind : Instance → Bool} {i : InstanceId} :
    i ∈ r.those kind ↔ ∃ x, r.instances[i.index]? = some x ∧ kind x = true := by
  obtain ⟨i⟩ := i
  simp only [those, List.mem_map, List.mem_filter, List.mem_range, InstanceId.mk.injEq,
    exists_eq_right, Option.any_eq_true]
  constructor
  · intro h
    exact h.2
  · intro h
    obtain ⟨x, stored, good⟩ := h
    exact ⟨storedBelow stored, x, stored, good⟩

theorem thoseSorted (kind : Instance → Bool) :
    (r.those kind).Pairwise (fun i j => i.index < j.index) := by
  rw [those, List.pairwise_map]
  exact (List.pairwise_lt_range).filter _

theorem thoseNodup (kind : Instance → Bool) : (r.those kind).Nodup :=
  sortedNodup (thoseSorted kind)

theorem thoseRead (kind : Instance → Bool) :
    (r.those kind).map (fun i => r.instances[i.index]?) =
      (r.instances.toList.filter kind).map some := by
  have all : (List.range r.size).map (fun i => r.instances[i]?) = r.instances.toList.map some := by
    refine List.ext_getElem? fun i => ?_
    rcases Nat.lt_or_ge i r.instances.size with inside | past
    · simp [Roster.size, inside]
    · simp [Roster.size, past]
  have kept := List.filter_map (p := Option.any kind) (f := fun i => r.instances[i]?)
    (l := List.range r.size)
  rw [all, List.filter_map] at kept
  rw [those, List.map_map]
  exact kept.symm

theorem thoseEnter (kind : Instance → Bool) (x : Instance) : (r.enter x).those kind =
    r.those kind ++ if kind x then [r.nextId] else [] := by
  have size : (r.enter x).size = r.size + 1 := by simp [enter, Roster.size]
  have old : (List.range r.size).filter (fun i => (r.enter x).instances[i]?.any kind) =
      (List.range r.size).filter (fun i => r.instances[i]?.any kind) := by
    refine List.filter_congr fun i inside => ?_
    have apart : i ≠ r.instances.size := Nat.ne_of_lt (List.mem_range.mp inside)
    simp [enter, Array.getElem?_push, apart]
  have new : (r.enter x).instances[r.size]? = some x := by simp [enter, Roster.size]
  rw [those, size, List.range_succ, List.filter_append, old, List.map_append]
  cases good : kind x <;> simp [those, new, good, nextId]

theorem childrenEnter (x : Instance) (i : Nat) : (r.enter x).children[i]? =
    if i = r.children.size then some []
    else r.children[i]?.map fun ids => if x.parent = some ⟨i⟩ then ids ++ [r.nextId] else ids := by
  cases up : x.parent with
  | none => simp [enter, up, Array.getElem?_push]
  | some p =>
    obtain ⟨p⟩ := p
    simp only [enter, up, Array.getElem?_push, Array.size_modify, Array.getElem?_modify,
      Option.some.injEq, InstanceId.mk.injEq]
    grind

namespace Sound

theorem empty : Sound .empty where
  parents := by simp [Roster.empty]
  children := by simp [Roster.empty, Roster.size]
  nodes := fun n => rfl

theorem memOfNode (sound : Sound r) {n : NodeId} {i : InstanceId} :
    i ∈ r.ofNode n ↔ ∃ x, r.instances[i.index]? = some x ∧ x.node = n := by
  simp only [sound.nodes, memThose, beq_iff_eq]

theorem ofNodeSorted (sound : Sound r) (n : NodeId) :
    (r.ofNode n).Pairwise (fun i j => i.index < j.index) :=
  sound.nodes n ▸ thoseSorted _

theorem ofNodeNodup (sound : Sound r) (n : NodeId) : (r.ofNode n).Nodup :=
  sortedNodup (sound.ofNodeSorted n)

theorem belowEq (sound : Sound r) (i : InstanceId) :
    r.below i = r.those fun x => x.parent == some i := by
  rw [below, sound.children]
  split
  · rfl
  · rename_i past
    refine (List.eq_nil_iff_forall_not_mem.mpr fun j inside => past ?_).symm
    obtain ⟨x, stored, up⟩ := memThose.mp inside
    exact Nat.lt_trans (sound.parents stored (by simpa using up)) (storedBelow stored)

theorem childrenOk (sound : Sound r) {i : InstanceId} (there : i.index < r.size) :
    r.childrenOf i = .ok (r.below i) := by
  refine fetchEqOk.mpr ?_
  rw [below, sound.children, if_pos there]
  rfl

theorem childrenSize (sound : Sound r) : r.children.size = r.size := by
  have first := sound.children r.size
  have last := sound.children r.children.size
  simp only [Nat.lt_irrefl, if_false, Array.getElem?_eq_none_iff] at first
  simp only [Array.getElem?_eq_none (Nat.le_refl _)] at last
  split at last
  · contradiction
  · omega

theorem enter (sound : Sound r) {x : Instance} (there : ∀ p, x.parent = some p → p.index < r.size) :
    Sound (r.enter x) where
  parents := by
    intro i y p stored up
    rcases pushEqSome.mp stored with old | ⟨rfl, rfl⟩
    · exact sound.parents old up
    · exact there p up
  children := by
    intro i
    have room : (r.enter x).size = r.size + 1 := by simp [Roster.enter, Roster.size]
    rw [room, thoseEnter, childrenEnter, sound.childrenSize, sound.children]
    rcases Nat.lt_trichotomy i r.size with before | last | after
    · rw [if_neg (Nat.ne_of_lt before), if_pos before, if_pos (by omega)]
      by_cases up : x.parent = some ⟨i⟩ <;> simp [up]
    · subst last
      have unused : r.those (fun y => y.parent == some ⟨r.size⟩) = [] := by
        refine List.eq_nil_iff_forall_not_mem.mpr fun j inside => ?_
        obtain ⟨y, stored, up⟩ := memThose.mp inside
        have early := sound.parents stored (by simpa using up)
        have := storedBelow stored
        simp only [Roster.size] at early
        omega
      have fresh : x.parent ≠ some ⟨r.size⟩ := fun up => Nat.lt_irrefl _ (there _ up)
      simp [unused, fresh]
    · have far : ¬ i < r.size + 1 := by omega
      simp [Nat.ne_of_gt after, Nat.not_lt_of_gt after, far]
  nodes := by
    intro n
    rw [thoseEnter, ← sound.nodes n]
    simp only [Roster.enter, ofNode, SortedMap.getUpdate]
    by_cases same : n = x.node
    · subst same
      simp
    · simp [same, Ne.symm same]

end Sound
end Roster
end ProductLine
