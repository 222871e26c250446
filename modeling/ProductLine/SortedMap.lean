/-!
Finite maps as lists of entries with strictly increasing keys. `put` writes one key and is read
back by `getPut`.
-/
namespace ProductLine

structure SortedMap (κ ν : Type) [Ord κ] where
  entries : List (κ × ν)
  sorted : entries.Pairwise (fun a b => compare a.1 b.1 = .lt)
  deriving DecidableEq, Repr

namespace SortedMap
variable {κ ν : Type} [Ord κ]

def empty : SortedMap κ ν := ⟨[], .nil⟩

instance : Inhabited (SortedMap κ ν) := ⟨empty⟩

/-- Writes `write old` at `k`, where `old` is what `k` held before. -/
def place (k : κ) (write : Option ν → ν) : List (κ × ν) → List (κ × ν)
  | [] => [(k, write none)]
  | (k', v) :: rest =>
    match compare k k' with
    | .lt => (k, write none) :: (k', v) :: rest
    | .eq => (k, write (some v)) :: rest
    | .gt => (k', v) :: place k write rest

theorem memPlace {k : κ} {write : Option ν → ν} {e : κ × ν} {xs : List (κ × ν)}
    (h : e ∈ place k write xs) : e.1 = k ∨ e ∈ xs := by
  induction xs with
  | nil => simp only [place, List.mem_singleton] at h; exact .inl (h ▸ rfl)
  | cons x xs ih =>
    obtain ⟨k', v⟩ := x
    simp only [place] at h
    split at h <;> simp only [List.mem_cons] at h ⊢
    · exact h.imp (congrArg Prod.fst) id
    · exact h.imp (congrArg Prod.fst) .inr
    · rcases h with h | h
      · exact .inr (.inl h)
      · exact (ih h).imp_right .inr

section Order
variable [Std.TransOrd κ]

theorem placeSorted (k : κ) (write : Option ν → ν) {xs : List (κ × ν)}
    (h : xs.Pairwise (fun a b => compare a.1 b.1 = .lt)) :
    (place k write xs).Pairwise (fun a b => compare a.1 b.1 = .lt) := by
  induction xs with
  | nil => simp [place]
  | cons x xs ih =>
    obtain ⟨k', v⟩ := x
    obtain ⟨head, tail⟩ := List.pairwise_cons.mp h
    simp only [place]
    split
    · rename_i less
      refine List.pairwise_cons.mpr ⟨fun e he => ?_, h⟩
      rcases List.mem_cons.mp he with rfl | he
      · exact less
      · exact Std.TransCmp.lt_trans less (head e he)
    · rename_i same
      exact List.pairwise_cons.mpr ⟨fun e he => Std.TransCmp.lt_of_eq_of_lt same (head e he), tail⟩
    · rename_i more
      refine List.pairwise_cons.mpr ⟨fun e he => ?_, ih tail⟩
      rcases memPlace he with same | he
      · exact same ▸ Std.OrientedCmp.gt_iff_lt.mp more
      · exact head e he

def update (m : SortedMap κ ν) (k : κ) (write : Option ν → ν) : SortedMap κ ν :=
  ⟨place k write m.entries, placeSorted k write m.sorted⟩

def put (m : SortedMap κ ν) (k : κ) (v : ν) : SortedMap κ ν := m.update k fun _ => v

def ofList (entries : List (κ × ν)) : SortedMap κ ν :=
  entries.foldl (fun m e => m.put e.1 e.2) empty

end Order

variable [DecidableEq κ]

def get? (m : SortedMap κ ν) (k : κ) : Option ν := m.entries.lookup k

def contains (m : SortedMap κ ν) (k : κ) : Bool := (m.get? k).isSome

@[simp] theorem getEmpty (q : κ) : (empty : SortedMap κ ν).get? q = none := rfl

omit [Ord κ] in
theorem lookupCons (q k : κ) (v : ν) (xs : List (κ × ν)) :
    ((k, v) :: xs).lookup q = if q = k then some v else xs.lookup q := by
  rw [List.lookup_cons]
  by_cases h : q = k <;> simp [beq_eq_false_iff_ne.mpr, h]

variable [Std.TransOrd κ]

omit [DecidableEq κ] in
theorem notBelow {k k' : κ} (less : compare k k' = .lt) : k ≠ k' :=
  fun same => by simp [same, Std.ReflCmp.compare_self] at less

theorem lookupBelow {k : κ} {xs : List (κ × ν)} (below : ∀ e ∈ xs, compare k e.1 = .lt) :
    xs.lookup k = none :=
  List.lookup_eq_none_iff.mpr fun e he => by simpa using notBelow (below e he)

theorem lookupEqSome {k : κ} {v : ν} {xs : List (κ × ν)}
    (h : xs.Pairwise (fun a b => compare a.1 b.1 = .lt)) : xs.lookup k = some v ↔ (k, v) ∈ xs := by
  induction xs with
  | nil => simp
  | cons x xs ih =>
    obtain ⟨k', v'⟩ := x
    obtain ⟨head, tail⟩ := List.pairwise_cons.mp h
    rw [lookupCons]
    by_cases same : k = k'
    · subst same
      have apart : ¬ (k, v) ∈ xs := fun inside => notBelow (head _ inside) rfl
      simp [apart, eq_comm]
    · simp [same, ih tail]

theorem getEqSome {m : SortedMap κ ν} {k : κ} {v : ν} : m.get? k = some v ↔ (k, v) ∈ m.entries :=
  lookupEqSome m.sorted

variable [Std.LawfulEqOrd κ]

theorem lookupPlace (k q : κ) (write : Option ν → ν) {xs : List (κ × ν)}
    (h : xs.Pairwise (fun a b => compare a.1 b.1 = .lt)) :
    (place k write xs).lookup q = if q = k then some (write (xs.lookup k)) else xs.lookup q := by
  induction xs with
  | nil => simp [place, lookupCons]
  | cons x xs ih =>
    obtain ⟨k', v⟩ := x
    obtain ⟨head, tail⟩ := List.pairwise_cons.mp h
    simp only [place]
    split
    · rename_i less
      have absent : ((k', v) :: xs).lookup k = none := lookupBelow fun e he => by
        rcases List.mem_cons.mp he with rfl | he
        · exact less
        · exact Std.TransCmp.lt_trans less (head e he)
      rw [absent, lookupCons]
    · rename_i same
      cases (Std.LawfulEqCmp.eq_of_compare same : k = k')
      by_cases hq : q = k <;> simp [lookupCons, hq]
    · rename_i more
      have apart : k ≠ k' := (notBelow (Std.OrientedCmp.gt_iff_lt.mp more)).symm
      have step := ih tail
      by_cases hq : q = k
      · subst hq
        simpa [lookupCons, apart] using step
      · simp [lookupCons, step, hq]

theorem getUpdate (m : SortedMap κ ν) (k q : κ) (write : Option ν → ν) :
    (m.update k write).get? q = if q = k then some (write (m.get? k)) else m.get? q :=
  lookupPlace k q write m.sorted

theorem getPut (m : SortedMap κ ν) (k q : κ) (v : ν) :
    (m.put k v).get? q = if q = k then some v else m.get? q := getUpdate ..

end SortedMap
end ProductLine
