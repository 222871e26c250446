import ProductLine.Proofs.Roster.Breadth

/-!
Rosters filled depth first. What lies at or below an instance is entered without interruption, so
instances that are apart have all that lies below them apart, in the same order. A walk up from an
instance meets those above it.
-/
namespace ProductLine
open Relation (ReflTransGen)

namespace Roster

/-- Each instance is entered below the last one, or below one above that. -/
def Preordered (r : Roster) : Prop :=
  ∀ (i : Nat) (p : InstanceId), r.IsParent p ⟨i + 1⟩ → r.Within p ⟨i⟩

def Tip (r : Roster) (above : Option InstanceId) : Prop :=
  ∀ p, above = some p → ∃ last, r.size = last + 1 ∧ r.Within p ⟨last⟩

def climb (r : Roster) : Nat → InstanceId → List InstanceId
  | 0, _ => []
  | steps + 1, i =>
    match r.instances[i.index]?.bind Instance.parent with
    | none => [i]
    | some p => i :: r.climb steps p

/-- The instance, its parent, and so on. Parents are entered earlier, so this ends in time. -/
def walk (r : Roster) (i : InstanceId) : List InstanceId := r.climb (i.index + 1) i

def isNumbered (r : Roster) (i : InstanceId) : Bool :=
  r.instances[i.index]?.any (·.index.isSome)

def cloneOf (r : Roster) (i : InstanceId) : Option InstanceId := (r.walk i).find? r.isNumbered

variable {r r' : Roster} {a b i j k p q : InstanceId} {x : Instance}

theorem withinKept (kept : ∀ (i : Nat) (x : Instance), r.instances[i]? = some x →
    r'.instances[i]? = some x) (within : r.Within a i) : r'.Within a i :=
  ReflTransGen.mono (fun _ _ up => up.imp fun _ link => ⟨kept _ _ link.1, link.2⟩) _ _ within

theorem enterKept (i : Nat) (y : Instance) (stored : r.instances[i]? = some y) :
    (r.enter x).instances[i]? = some y := pushEqSome.mpr (.inl stored)

theorem Preordered.enter (ordered : r.Preordered) (tip : r.Tip x.parent) :
    (r.enter x).Preordered := by
  intro i p up
  obtain ⟨y, stored, up⟩ := up
  refine withinKept enterKept ?_
  rcases pushEqSome.mp stored with old | ⟨last, rfl⟩
  · exact ordered i p ⟨y, old, up⟩
  · obtain ⟨last', size, within⟩ := tip p up
    cases Nat.succ.inj (last.trans size)
    exact within

theorem Preordered.between (ordered : r.Preordered) (within : r.Within a k)
    (low : a.index ≤ j.index) (high : j.index ≤ k.index) : r.Within a j := by
  obtain ⟨k⟩ := k
  -- on the upper end: the instance before it is at or below its parent
  induction k with
  | zero =>
    obtain ⟨j⟩ := j
    cases Nat.le_zero.mp high
    exact within
  | succ k ih =>
    rcases Nat.lt_or_eq_of_le high with before | same
    · rcases (ReflTransGen.cases_tail_iff _ _ _).mp within with rfl | ⟨p, above, up⟩
      · exact absurd before (Nat.not_lt_of_le low)
      · exact ih (above.trans (ordered k p up)) (Nat.le_of_lt_succ before)
    · obtain ⟨j⟩ := j
      cases same
      exact within

section Intervals
variable (sound : r.Sound) (ordered : r.Preordered)
include sound ordered

theorem belowApart (before : a.index < b.index) (apart : ¬ r.Within a b) (under : r.Within a i)
    (under' : r.Within b j) : i.index < j.index := by
  refine Nat.lt_of_not_le fun late => apart ?_
  have := sound.withinLe under'
  exact ordered.between under (Nat.le_of_lt before) (by omega)

theorem followOrdered {path other : List Nat} (less : List.Lex (· < ·) path other)
    (same : path.length = other.length) (led : r.follow a path = some i)
    (led' : r.follow a other = some j) : i.index < j.index := by
  induction less generalizing a with
  | nil => cases same
  | cons _ ih =>
    obtain ⟨c, first, led⟩ := Option.bind_eq_some_iff.mp led
    obtain ⟨d, first', led'⟩ := Option.bind_eq_some_iff.mp led'
    cases first.symm.trans first'
    exact ih (Nat.succ.inj same) led led'
  | @rel k _ l _ less =>
    obtain ⟨c, first, led⟩ := Option.bind_eq_some_iff.mp led
    obtain ⟨d, first', led'⟩ := Option.bind_eq_some_iff.mp led'
    have up := sound.memBelow.mp (List.mem_of_getElem? first)
    have up' := sound.memBelow.mp (List.mem_of_getElem? first')
    obtain ⟨inside, rfl⟩ := List.getElem?_eq_some_iff.mp first
    obtain ⟨inside', rfl⟩ := List.getElem?_eq_some_iff.mp first'
    have before := List.pairwise_iff_getElem.mp (sound.belowSorted a) k l inside inside' less
    refine belowApart sound ordered before ?_ (sound.followWithin led) (sound.followWithin led')
    exact sound.siblingsApart up up' fun same =>
      Nat.ne_of_lt before (congrArg InstanceId.index same)

end Intervals

section Walks
variable (sound : r.Sound)
include sound

theorem climbEnough {s t : Nat} (hs : i.index < s) (ht : i.index < t) :
    r.climb s i = r.climb t i := by
  induction s generalizing i t with
  | zero => cases hs
  | succ s ih =>
    obtain ⟨t, rfl⟩ : ∃ t', t = t' + 1 := ⟨t - 1, by omega⟩
    rw [climb, climb]
    split
    · rfl
    · rename_i p above
      obtain ⟨x, stored, up⟩ := Option.bind_eq_some_iff.mp above
      have := sound.parents stored up
      rw [ih (t := t) (by omega) (by omega)]

theorem walkUp (up : r.IsParent p i) : r.walk i = i :: r.walk p := by
  obtain ⟨x, stored, up⟩ := up
  have before := sound.parents stored up
  rw [walk, climb, stored, Option.bind_some, up]
  exact congrArg (i :: ·) (climbEnough sound (by omega) (by omega))

omit sound in
theorem walkTop (top : ∀ p, ¬ r.IsParent p i) : r.walk i = [i] := by
  rw [walk, climb]
  split
  · rfl
  · rename_i p above
    obtain ⟨x, stored, up⟩ := Option.bind_eq_some_iff.mp above
    exact absurd ⟨x, stored, up⟩ (top p)

theorem memWalk : k ∈ r.walk i ↔ r.Within k i := by
  obtain ⟨n⟩ := i
  induction n using Nat.strongRecOn with
  | ind n earlier =>
    have above : r.Within k ⟨n⟩ ↔ ⟨n⟩ = k ∨ ∃ p, r.Within k p ∧ r.IsParent p ⟨n⟩ :=
      ReflTransGen.cases_tail_iff _ _ _
    by_cases up : ∃ p, r.IsParent p ⟨n⟩
    · obtain ⟨p, up⟩ := up
      have before := sound.parentBefore up
      rw [walkUp sound up, List.mem_cons, earlier p.index before, above, eq_comm]
      refine or_congr_right ⟨fun within => ⟨p, within, up⟩, fun h => ?_⟩
      obtain ⟨q, within, up'⟩ := h
      cases parentUnique up up'
      exact within
    · have alone : ¬ ∃ p, r.Within k p ∧ r.IsParent p ⟨n⟩ := fun h => up (h.imp fun _ => And.right)
      rw [walkTop fun p link => up ⟨p, link⟩, List.mem_singleton, above, or_iff_left alone, eq_comm]

theorem cloneOfUp (plain : r.isNumbered i = false) (up : r.IsParent p i) :
    r.cloneOf i = r.cloneOf p := by
  rw [cloneOf, walkUp sound up, List.find?_cons, plain]
  rfl

omit sound in
theorem cloneOfSelf (numbered : r.isNumbered i = true) : r.cloneOf i = some i := by
  obtain ⟨rest, first⟩ : ∃ rest, r.walk i = i :: rest := by
    rw [walk, climb]
    split
    · exact ⟨[], rfl⟩
    · exact ⟨_, rfl⟩
  rw [cloneOf, first, List.find?_cons, numbered]

end Walks
end Roster
end ProductLine
