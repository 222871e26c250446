/-!
Finite sets as strictly increasing lists. A set has one representation, so two sets with the same
members are equal (`ext`), and listing a set needs no sorting.
-/
namespace ProductLine

structure SortedSet (α : Type) [Ord α] where
  toList : List α
  sorted : toList.Pairwise (compare · · = .lt)
  deriving DecidableEq, Repr

namespace SortedSet
variable {α : Type} [Ord α]

def empty : SortedSet α := ⟨[], .nil⟩

instance : Inhabited (SortedSet α) := ⟨empty⟩
instance : Membership α (SortedSet α) := ⟨fun s x => x ∈ s.toList⟩

instance [DecidableEq α] (x : α) (s : SortedSet α) : Decidable (x ∈ s) :=
  inferInstanceAs (Decidable (x ∈ s.toList))

def place (x : α) : List α → List α
  | [] => [x]
  | y :: ys =>
    match compare x y with
    | .lt => x :: y :: ys
    | .eq => x :: ys
    | .gt => y :: place x ys

theorem memPlaceOnly {x z : α} {ys : List α} (h : z ∈ place x ys) : z = x ∨ z ∈ ys := by
  induction ys with
  | nil => simpa [place] using h
  | cons y ys ih =>
    simp only [place] at h
    split at h <;> simp only [List.mem_cons] at h ⊢
    · exact h
    · exact h.imp_right .inr
    · rcases h with h | h
      · exact .inr (.inl h)
      · exact (ih h).imp_right .inr

theorem memToList {x : α} {s : SortedSet α} : x ∈ s.toList ↔ x ∈ s := .rfl

@[simp] theorem notMemEmpty {x : α} : ¬ x ∈ (empty : SortedSet α) := List.not_mem_nil

variable [Std.TransOrd α]

theorem placeSorted (x : α) {ys : List α} (h : ys.Pairwise (compare · · = .lt)) :
    (place x ys).Pairwise (compare · · = .lt) := by
  induction ys with
  | nil => simp [place]
  | cons y ys ih =>
    obtain ⟨head, tail⟩ := List.pairwise_cons.mp h
    simp only [place]
    split
    · rename_i xy
      refine List.pairwise_cons.mpr ⟨fun z hz => ?_, h⟩
      rcases List.mem_cons.mp hz with rfl | hz
      · exact xy
      · exact Std.TransCmp.lt_trans xy (head z hz)
    · rename_i xy
      exact List.pairwise_cons.mpr ⟨fun z hz => Std.TransCmp.lt_of_eq_of_lt xy (head z hz), tail⟩
    · rename_i xy
      refine List.pairwise_cons.mpr ⟨fun z hz => ?_, ih tail⟩
      rcases memPlaceOnly hz with rfl | hz
      · exact Std.OrientedCmp.gt_iff_lt.mp xy
      · exact head z hz

def insert (s : SortedSet α) (x : α) : SortedSet α := ⟨place x s.toList, placeSorted x s.sorted⟩

def insertMany (s : SortedSet α) (xs : List α) : SortedSet α := xs.foldl insert s

def ofList (xs : List α) : SortedSet α := empty.insertMany xs

theorem nodup (s : SortedSet α) : s.toList.Nodup :=
  s.sorted.imp fun less same => by simp [same, Std.ReflCmp.compare_self] at less

theorem ext {s t : SortedSet α} (same : ∀ z, z ∈ s ↔ z ∈ t) : s = t := by
  have reordered : s.toList.Perm t.toList := (List.perm_ext_iff_of_nodup s.nodup t.nodup).mpr same
  have oneWay : ∀ a b : α, a ∈ s.toList → b ∈ t.toList → compare a b = .lt → compare b a = .lt →
      a = b := fun _ _ _ _ less more => absurd more (Std.OrientedCmp.not_lt_of_lt less)
  have alike : s.toList = t.toList := reordered.eq_of_pairwise oneWay s.sorted t.sorted
  cases s
  cases t
  cases alike
  rfl

variable [Std.LawfulEqOrd α]

omit [Std.TransOrd α] in
theorem memPlace {x z : α} {ys : List α} : z ∈ place x ys ↔ z = x ∨ z ∈ ys := by
  refine ⟨memPlaceOnly, fun h => ?_⟩
  induction ys with
  | nil => simpa [place] using h
  | cons y ys ih =>
    simp only [place]
    split
    · simpa using h
    · rename_i xy
      have same : x = y := Std.LawfulEqCmp.eq_of_compare xy
      simp_all
    · simp only [List.mem_cons] at h ⊢
      rcases h with h | h | h
      · exact .inr (ih (.inl h))
      · exact .inl h
      · exact .inr (ih (.inr h))

@[simp] theorem memInsert {x z : α} {s : SortedSet α} : z ∈ s.insert x ↔ z = x ∨ z ∈ s := memPlace

@[simp] theorem memInsertMany {z : α} {s : SortedSet α} {xs : List α} :
    z ∈ s.insertMany xs ↔ z ∈ s ∨ z ∈ xs := by
  induction xs generalizing s with
  | nil => simp [insertMany]
  | cons x xs ih =>
    have step : s.insertMany (x :: xs) = (s.insert x).insertMany xs := rfl
    rw [step, ih, memInsert, List.mem_cons]
    exact ⟨fun h => by rcases h with (h | h) | h <;> simp [h],
      fun h => by rcases h with h | h | h <;> simp [h]⟩

@[simp] theorem memOfList {z : α} {xs : List α} : z ∈ ofList xs ↔ z ∈ xs := by simp [ofList]

end SortedSet

instance {α : Type} [Ord α] : Ord (SortedSet α) := ⟨compareOn SortedSet.toList⟩

instance {α : Type} [Ord α] [Std.TransOrd α] : Std.TransOrd (SortedSet α) :=
  inferInstanceAs (Std.TransCmp (compareOn SortedSet.toList))

instance {α : Type} [Ord α] [Std.LawfulEqOrd α] : Std.LawfulEqOrd (SortedSet α) where
  compare_self {s} := @Std.ReflCmp.compare_self _ compare _ s.toList
  eq_of_compare {s t} h := by
    obtain ⟨xs, hx⟩ := s
    obtain ⟨ys, hy⟩ := t
    cases Std.LawfulEqCmp.eq_of_compare (show compare xs ys = .eq from h)
    rfl

end ProductLine
