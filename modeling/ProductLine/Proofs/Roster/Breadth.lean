import Mathlib.Data.List.Shortlex
import ProductLine.Proofs.Roster.Search

/-!
Rosters filled by entries of any kind. Those with a parent that is not there are refused, the others
are stored one after the other. The search below an instance finds others by depth, and within one
depth by the positions of children on the way down.
-/
namespace ProductLine
open Relation (ReflTransGen)

namespace Roster

def attempt (r : Roster) (x : Instance) : Roster :=
  match r.add x with
  | .ok r' => r'
  | .error _ => r

def ofAttempts (xs : List Instance) : Roster := xs.foldl attempt .empty

/-- Those of the entries that are stored when there are `count` before them. -/
def admitted (count : Nat) : List Instance → List Instance
  | [] => []
  | x :: xs =>
    if ∀ p ∈ x.parent, p.index < count then x :: admitted (count + 1) xs else admitted count xs

inductive Searches (r : Roster) (f : FeatureId) : List InstanceId → List InstanceId → Prop
  | done : Searches r f [] []
  | take {i : InstanceId} {x : Instance} {cs rest found : List InstanceId} (entry : r.get i = .ok x)
      (children : r.childrenOf i = .ok cs) (later : Searches r f (rest ++ cs) found) :
      Searches r f (i :: rest) (if x.feature = f then i :: found else found)

def follow (r : Roster) : InstanceId → List Nat → Option InstanceId
  | i, [] => some i
  | i, k :: path => (r.below i)[k]?.bind (r.follow · path)

/-- The first instance is less deep below the start, or as deep with the smaller positions. -/
def Earlier (r : Roster) (start i j : InstanceId) : Prop :=
  ∀ p q, r.follow start p = some i → r.follow start q = some j → List.Shortlex (· < ·) p q

structure InOrder (r : Roster) : Prop where
  parents : ∀ i x p, r.get i = .ok x → x.parent = some p → p.index < i.index
  children : ∀ i, i.index < r.size → ∃ ids, r.childrenOf i = .ok ids ∧
    ids.Pairwise (·.index < ·.index) ∧ ∀ j, j ∈ ids ↔ ∃ x, r.get j = .ok x ∧ x.parent = some i
  nodes : ∀ n, (r.ofNode n).Pairwise (·.index < ·.index) ∧
    ∀ j, j ∈ r.ofNode n ↔ ∃ x, r.get j = .ok x ∧ x.node = n
  search : ∀ start f, start.index < r.size → ∃ found, r.findUnder start f = .ok found ∧
    r.Searches f [start] found ∧ found.Nodup ∧
    (∀ j, j ∈ found ↔ r.Within start j ∧ ∃ x, r.get j = .ok x ∧ x.feature = f) ∧
    (∀ j ∈ found, ∃! path, r.follow start path = some j) ∧ found.Pairwise (r.Earlier start)

section Attempts
variable {r : Roster} {x : Instance}

theorem addEqOk {r' : Roster} : r.add x = .ok r' ↔
    (∀ p, x.parent = some p → p.index < r.children.size) ∧ r' = r.enter x := by
  cases up : x.parent with
  | none => simp [add, up, pure, Except.pure, eq_comm]
  | some p =>
    simp only [add, up, bindEqOk, fetchEqOk, pureEqOk, Option.some.injEq, forall_eq']
    constructor
    · intro h
      obtain ⟨_, found, same⟩ := h
      exact ⟨storedBelow found, same.symm⟩
    · intro h
      exact ⟨_, Array.getElem?_eq_getElem h.1, h.2.symm⟩

theorem Sound.attemptAccepted (sound : Sound r)
    (there : ∀ p, x.parent = some p → p.index < r.size) : r.attempt x = r.enter x := by
  have added : r.add x = .ok (r.enter x) := addEqOk.mpr ⟨sound.childrenSize ▸ there, rfl⟩
  simp [Roster.attempt, added]

theorem Sound.attemptStores (sound : Sound r) {i : InstanceId} {y : Instance}
    (there : ∀ p, x.parent = some p → p.index < r.size) :
    (r.attempt x).get i = .ok y ↔ r.get i = .ok y ∨ i = r.nextId ∧ y = x := by
  obtain ⟨i⟩ := i
  rw [sound.attemptAccepted there]
  simp only [get, fetchEqOk, nextId, InstanceId.mk.injEq]
  exact pushEqSome

theorem Sound.attemptRefused (sound : Sound r)
    (missing : ¬ ∀ p, x.parent = some p → p.index < r.size) : r.attempt x = r := by
  unfold Roster.attempt
  split
  · rename_i added
    exact absurd (sound.childrenSize ▸ (addEqOk.mp added).1) missing
  · rfl

theorem Sound.attempt (sound : Sound r) (x : Instance) : Sound (r.attempt x) := by
  by_cases there : ∀ p, x.parent = some p → p.index < r.size
  · rw [sound.attemptAccepted there]
    exact sound.enter there
  · rwa [sound.attemptRefused there]

theorem Sound.ofAttempts (xs : List Instance) : Sound (ofAttempts xs) := by
  induction xs using List.reverseRecOn with
  | nil => exact .empty
  | append_singleton xs x ih =>
    rw [Roster.ofAttempts, List.foldl_append]
    exact ih.attempt x

theorem Sound.attemptsStored (sound : Sound r) (xs : List Instance) :
    (xs.foldl Roster.attempt r).instances.toList = r.instances.toList ++ admitted r.size xs := by
  induction xs generalizing r with
  | nil => simp [admitted]
  | cons x xs ih =>
    rw [List.foldl_cons, ih (sound.attempt x), admitted]
    by_cases there : ∀ p ∈ x.parent, p.index < r.size
    · rw [sound.attemptAccepted there, if_pos there]
      simp [Roster.enter, Roster.size]
    · rw [sound.attemptRefused there, if_neg there]

theorem ofAttemptsStored (xs : List Instance) :
    (ofAttempts xs).instances.toList = admitted 0 xs := Sound.empty.attemptsStored xs

end Attempts

section Paths
variable {r : Roster} {start i j : InstanceId} {k : Nat} {path : List Nat}

theorem followSnoc : r.follow i (path ++ [k]) = some j ↔
    ∃ p, r.follow i path = some p ∧ (r.below p)[k]? = some j := by
  induction path generalizing i with
  | nil => simp [follow]
  | cons step path ih =>
    simp only [List.cons_append, follow, Option.bind_eq_some_iff, ih]
    constructor
    · intro h
      obtain ⟨c, first, p, led, last⟩ := h
      exact ⟨p, ⟨c, first, led⟩, last⟩
    · intro h
      obtain ⟨p, ⟨c, first, led⟩, last⟩ := h
      exact ⟨c, first, p, led, last⟩

theorem Sound.followWithin (sound : Sound r) (led : r.follow start path = some i) :
    r.Within start i := by
  induction path using List.reverseRecOn generalizing i with
  | nil =>
    cases led
    exact .refl
  | append_singleton path k ih =>
    obtain ⟨p, led, last⟩ := followSnoc.mp led
    exact (ih led).tail (sound.memBelow.mp (List.mem_of_getElem? last))

theorem Sound.followExists (sound : Sound r) (within : r.Within start i) :
    ∃ path, r.follow start path = some i := by
  induction within with
  | refl => exact ⟨[], rfl⟩
  | tail _ up ih =>
    obtain ⟨path, led⟩ := ih
    obtain ⟨k, last⟩ := List.mem_iff_getElem?.mp (sound.memBelow.mpr up)
    exact ⟨path ++ [k], followSnoc.mpr ⟨_, led, last⟩⟩

theorem Sound.followPast (sound : Sound r) (led : r.follow start (path ++ [k]) = some i) :
    start.index < i.index := by
  obtain ⟨p, led, last⟩ := followSnoc.mp led
  have := sound.withinLe (sound.followWithin led)
  have := sound.parentBefore (sound.memBelow.mp (List.mem_of_getElem? last))
  omega

theorem Sound.followUnique (sound : Sound r) {other : List Nat} (led : r.follow start path = some i)
    (led' : r.follow start other = some i) : path = other := by
  -- from the end of the ways: an instance has one parent, and one place below it
  induction path using List.reverseRecOn generalizing other i with
  | nil =>
    cases led
    rcases List.eq_nil_or_concat' other with rfl | ⟨other, l, rfl⟩
    · rfl
    · exact absurd (sound.followPast led') (Nat.lt_irrefl _)
  | append_singleton path k ih =>
    rcases List.eq_nil_or_concat' other with rfl | ⟨other, l, rfl⟩
    · cases led'
      exact absurd (sound.followPast led) (Nat.lt_irrefl _)
    · obtain ⟨p, led, last⟩ := followSnoc.mp led
      obtain ⟨p', above, last'⟩ := followSnoc.mp led'
      have up := sound.memBelow.mp (List.mem_of_getElem? last)
      have up' := sound.memBelow.mp (List.mem_of_getElem? last')
      obtain rfl := parentUnique up up'
      have inside := (List.getElem?_eq_some_iff.mp last).1
      cases (List.getElem?_inj inside (sound.belowNodup p)).mp (last.trans last'.symm)
      rw [ih led above]

theorem shortlexTrans {p q s : List Nat} (first : List.Shortlex (· < ·) p q)
    (second : List.Shortlex (· < ·) q s) : List.Shortlex (· < ·) p s := by
  rw [List.shortlex_def] at first second ⊢
  rcases first with shorter | ⟨same, less⟩
  · exact .inl (by omega)
  · rcases second with shorter | ⟨same', less'⟩
    · exact .inl (by omega)
    · exact .inr ⟨same.trans same', List.lt_trans less less'⟩

theorem lexDeeper {p q : List Nat} (less : List.Lex (· < ·) p q) (same : p.length = q.length)
    (a b : List Nat) : List.Lex (· < ·) (p ++ a) (q ++ b) := by
  induction less with
  | nil => cases same
  | cons _ ih => exact .cons (ih (Nat.succ.inj same))
  | rel less => exact .rel less

theorem shortlexDeeper {p q : List Nat} (less : List.Shortlex (· < ·) p q) (a b : Nat) :
    List.Shortlex (· < ·) (p ++ [a]) (q ++ [b]) := by
  rcases List.shortlex_def.mp less with shorter | ⟨same, less⟩
  · exact .of_length_lt (by simpa using shorter)
  · exact .of_lex (by simpa using same) (lexDeeper less same _ _)

def onward (r : Roster) (path : List Nat) (i : InstanceId) : List (List Nat) :=
  (List.range (r.below i).length).map (path ++ [·])

theorem onwardLeads (led : r.follow start path = some i) :
    List.Forall₂ (fun path c => r.follow start path = some c) (r.onward path i) (r.below i) := by
  refine List.forall₂_iff_get.mpr ⟨by simp [onward], fun k inside inside' => ?_⟩
  simp [onward, followSnoc, led, inside']

theorem onwardSorted : (r.onward path i).Pairwise (List.Shortlex (· < ·)) := by
  refine List.pairwise_map.mpr (List.pairwise_lt_range.imp fun less => ?_)
  exact .append_left ((List.shortlex_singleton_iff _ _).mpr less) path

/-- The queue holds ways down in order, the last of them before all that go on from the first. What
is taken off it keeps the order. -/
theorem unqueueOrdered {steps : Nat} {queue : List InstanceId} {paths : List (List Nat)}
    (led : List.Forall₂ (fun path i => r.follow start path = some i) paths queue)
    (sorted : paths.Pairwise (List.Shortlex (· < ·)))
    (near : ∀ first ∈ paths.head?, ∀ path ∈ paths, ∀ k, List.Shortlex (· < ·) path (first ++ [k])) :
    ∃ met, List.Forall₂ (fun path i => r.follow start path = some i) met (r.unqueue steps queue) ∧
      met.Pairwise (List.Shortlex (· < ·)) ∧
      ∀ bound, (∀ path ∈ paths, List.Shortlex (· < ·) bound path) →
        ∀ path ∈ met, List.Shortlex (· < ·) bound path := by
  induction steps generalizing queue paths with
  | zero => exact ⟨[], .nil, .nil, by simp⟩
  | succ steps ih =>
    cases led with
    | nil => exact ⟨[], .nil, .nil, by simp⟩
    | @cons first i paths rest head tail =>
      obtain ⟨before, sorted⟩ := List.pairwise_cons.mp sorted
      have near := near first rfl
      have past : ∀ {bound : List Nat}, List.Shortlex (· < ·) bound first ∨ bound = first →
          ∀ path ∈ r.onward first i, List.Shortlex (· < ·) bound path := by
        intro bound least path child
        obtain ⟨k, -, rfl⟩ := List.mem_map.mp child
        rcases least with less | rfl
        · exact less.append_right [k]
        · exact .of_length_lt (by simp)
      have later : ∀ path ∈ paths ++ r.onward first i, List.Shortlex (· < ·) first path :=
        List.forall_mem_append.mpr ⟨before, past (.inr rfl)⟩
      have sorted' : (paths ++ r.onward first i).Pairwise (List.Shortlex (· < ·)) := by
        refine List.pairwise_append.mpr ⟨sorted, onwardSorted, fun path old other child => ?_⟩
        obtain ⟨k, -, rfl⟩ := List.mem_map.mp child
        exact near path (List.mem_cons_of_mem _ old) k
      have near' : ∀ next ∈ (paths ++ r.onward first i).head?, ∀ path ∈ paths ++ r.onward first i,
          ∀ k, List.Shortlex (· < ·) path (next ++ [k]) := by
        intro next isNext path member k
        have deeper := shortlexDeeper (later next (List.mem_of_mem_head? isNext))
        rcases List.mem_append.mp member with old | child
        · exact shortlexTrans (near path (List.mem_cons_of_mem _ old) k) (deeper k k)
        · obtain ⟨l, -, rfl⟩ := List.mem_map.mp child
          exact deeper l k
      obtain ⟨met, led, ordered, bounded⟩ :=
        ih (List.rel_append tail (onwardLeads head)) sorted' near'
      refine ⟨first :: met, .cons head led,
        List.pairwise_cons.mpr ⟨bounded first later, ordered⟩, ?_⟩
      intro bound least
      obtain ⟨least, others⟩ := List.forall_mem_cons.mp least
      refine List.forall_mem_cons.mpr ⟨least, bounded bound ?_⟩
      exact List.forall_mem_append.mpr ⟨others, past (.inl least)⟩

theorem Sound.subtreeOrdered (sound : Sound r) : (r.subtree start).Pairwise (r.Earlier start) := by
  have led : List.Forall₂ (fun path i => r.follow start path = some i) [[]] [start] :=
    .cons rfl .nil
  have near : ∀ first ∈ [[]].head?, ∀ path ∈ [[]], ∀ k : Nat,
      List.Shortlex (· < ·) path (first ++ [k]) := by
    simp [List.Shortlex.of_length_lt]
  obtain ⟨met, led, ordered, -⟩ := unqueueOrdered led (List.pairwise_singleton _ _) near
  refine forall₂Pairwise led ordered fun here here' less p q led led' => ?_
  rwa [sound.followUnique led here, sound.followUnique led' here']

end Paths

section Search
variable {r : Roster} {start i : InstanceId} {f : FeatureId} {x : Instance}

theorem isOfEqTrue (stored : r.instances[i.index]? = some x) :
    r.isOf f i = true ↔ x.feature = f := by
  simp [isOf, stored]

theorem Sound.searches (sound : Sound r) {steps : Nat} {queue : List InstanceId}
    (apart : r.Apart queue) (enough : (r.reached queue).card ≤ steps) :
    r.Searches f queue ((r.unqueue steps queue).filter (r.isOf f)) := by
  induction steps generalizing queue with
  | zero =>
    cases queue with
    | nil => exact .done
    | cons i rest =>
      have := apart.shrinks sound
      omega
  | succ steps ih =>
    cases queue with
    | nil => exact .done
    | cons i rest =>
      have fewer := apart.shrinks sound
      have there := apart.there i List.mem_cons_self
      have stored := Array.getElem?_eq_getElem there
      have later := ih (apart.step sound) (by omega)
      have step := Searches.take (fetchEqOk.mpr stored) (sound.childrenOk there) later
      simpa only [unqueue, List.filter_cons, isOfEqTrue stored] using step

theorem Sound.inOrder (sound : Sound r) : r.InOrder where
  parents i x p found up := sound.parents (fetchEqOk.mp found) up
  children := by
    intro i there
    refine ⟨_, sound.childrenOk there, sound.belowSorted i, fun j => ?_⟩
    simp only [sound.memBelow, IsParent, get, fetchEqOk]
  nodes := by
    intro n
    refine ⟨sound.ofNodeSorted n, fun j => ?_⟩
    simp only [sound.memOfNode, get, fetchEqOk]
  search := by
    intro start f there
    obtain ⟨distinct, exact⟩ := subtreeExact sound there
    have apart : r.Apart [start] := ⟨by simpa using there, List.pairwise_singleton _ _⟩
    have entered := fetchEqOk.mpr (Array.getElem?_eq_getElem there)
    refine ⟨_, findUnderOk entered f, sound.searches apart (reachedFew [start]), distinct.filter _,
      fun j => ?_, ?_, sound.subtreeOrdered.filter _⟩
    · rw [List.mem_filter]
      refine and_congr (exact j) ?_
      simp only [isOf, Option.any_eq_true, beq_iff_eq, get, fetchEqOk]
    · intro j inside
      obtain ⟨path, led⟩ := sound.followExists ((exact j).mp (List.mem_filter.mp inside).1)
      exact ⟨path, led, fun other led' => sound.followUnique led' led⟩

end Search

/-- Whatever was tried, what the roster holds is in order, and so is what is found in it. -/
theorem attemptsInOrder (xs : List Instance) : (ofAttempts xs).InOrder :=
  (Sound.ofAttempts xs).inOrder

/-- The entry below an instance that is not there yet is refused. Of the two others that are of the
feature in question, the later one is found first, below the first child. -/
example :
    let entry (f : FeatureId) (parent : Option InstanceId) : Instance :=
      ⟨⟨0⟩, f, parent, "", none, .constant true⟩
    (ofAttempts [entry ⟨0⟩ none, entry ⟨1⟩ (some ⟨7⟩), entry ⟨0⟩ (some ⟨0⟩), entry ⟨0⟩ (some ⟨0⟩),
      entry ⟨1⟩ (some ⟨2⟩), entry ⟨1⟩ (some ⟨1⟩)]).findUnder ⟨0⟩ ⟨1⟩ = .ok [⟨4⟩, ⟨3⟩] := rfl

end Roster
end ProductLine
