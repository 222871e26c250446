import ProductLine.Encoding.Unrolling

/-!
The full encoding as one list of entries, each a tree with an occurrence of its root and the
instance above. The entries below each one are the occurrences that its tree spreads out there
(`laidEntries`).
-/
namespace ProductLine

structure Entry where
  tree : Tree
  occurrence : Occurrence
  parent : Option InstanceId

abbrev Seat := Tree × Occurrence

namespace Entry

def seat (e : Entry) : Seat := (e.tree, e.occurrence)

def toInstance (e : Entry) : Instance :=
  ⟨e.tree.place.node.id, e.tree.place.feature.id, e.parent, e.occurrence.symbol.name,
    e.occurrence.index, e.occurrence.term⟩

end Entry

def Seat.offspring (s : Seat) : List Seat :=
  s.1.children.flatMap fun c => (c.place.spread s.2.suffix?).occurrences.map fun x => (c, x)

theorem Seat.memOffspring {s k : Seat} : k ∈ s.offspring ↔
    k.1 ∈ s.1.children ∧ k.2 ∈ (k.1.place.spread s.2.suffix?).occurrences := by
  obtain ⟨c, x⟩ := k
  simp [Seat.offspring]

def chain {α β : Type} (piece : α → Nat → List β) : Nat → List α → List β
  | _, [] => []
  | start, x :: xs => piece x start ++ chain piece (start + (piece x start).length) xs

namespace Tree

mutual

def listing (parent : Option InstanceId) (o : Occurrence) (start : Nat) : Tree → List Entry
  | mk p ts => ⟨mk p ts, o, parent⟩ :: listingBelow ⟨start⟩ o (start + 1) ts

def listingBelow (parent : InstanceId) (o : Occurrence) (start : Nat) : List Tree → List Entry
  | [] => []
  | t :: ts =>
    let first := chain (fun x s => t.listing (some parent) x s) start
      (t.place.spread o.suffix?).occurrences
    first ++ listingBelow parent o (start + first.length) ts

end

def listingOf (parent : Option InstanceId) (s : Seat) (start : Nat) : List Entry :=
  s.1.listing parent s.2 start

end Tree

theorem chainAppend {α β : Type} {piece : α → Nat → List β} {xs ys : List α} :
    ∀ {start : Nat}, chain piece start (xs ++ ys) =
      chain piece start xs ++ chain piece (start + (chain piece start xs).length) ys := by
  induction xs with
  | nil => simp [chain]
  | cons x xs ih =>
    intro start
    simp only [List.cons_append, chain, ih, List.append_assoc, List.length_append, Nat.add_assoc]

theorem chainMap {α β γ : Type} {piece : β → Nat → List γ} {g : α → β} {xs : List α} :
    ∀ {start : Nat}, chain piece start (xs.map g) = chain (fun x => piece (g x)) start xs := by
  induction xs with
  | nil => simp [chain]
  | cons x xs ih =>
    intro start
    simp only [List.map_cons, chain, ih]

theorem chainFlatMap {α β γ : Type} {piece : α → Nat → List β} {g : β → List γ} {h : α → List γ}
    {xs : List α} (each : ∀ x ∈ xs, ∀ start, ((piece x start).flatMap g).Perm (h x)) :
    ∀ {start : Nat}, ((chain piece start xs).flatMap g).Perm (xs.flatMap h) := by
  induction xs with
  | nil => simp [chain]
  | cons x xs ih =>
    intro start
    rw [chain, List.flatMap_append, List.flatMap_cons]
    exact (each x (by simp) start).append
      (ih fun y inside => each y (List.mem_cons_of_mem _ inside))

namespace Tree

theorem listingBelowEq (parent : InstanceId) (o : Occurrence) (ts : List Tree) :
    ∀ start, listingBelow parent o start ts = chain (listingOf (some parent)) start
      (ts.flatMap fun c => (c.place.spread o.suffix?).occurrences.map fun x => (c, x)) := by
  induction ts with
  | nil => simp [listingBelow, chain]
  | cons t ts ih =>
    intro start
    rw [listingBelow, List.flatMap_cons, chainAppend, chainMap, ih]
    rfl

theorem listingEq (parent : Option InstanceId) (o : Occurrence) (start : Nat) (t : Tree) :
    t.listing parent o start = ⟨t, o, parent⟩ ::
      chain (listingOf (some ⟨start⟩)) (start + 1) (Seat.offspring (t, o)) := by
  cases t with
  | mk p ts => rw [listing, listingBelowEq]; rfl

end Tree

def seatsBelow (entries : List Entry) (above : Option InstanceId) : List Seat :=
  (entries.filter fun e => e.parent == above).map Entry.seat

theorem seatsBelowAppend (xs ys : List Entry) (above : Option InstanceId) :
    seatsBelow (xs ++ ys) above = seatsBelow xs above ++ seatsBelow ys above := by
  simp [seatsBelow]

/-- The parents of the entries are `above` or stand among the positions from `start` on, where the
entries themselves stand. -/
def Inner (start : Nat) (entries : List Entry) (above : Option InstanceId) : Prop :=
  ∀ e ∈ entries, e.parent = above ∨
    ∃ k, e.parent = some ⟨k⟩ ∧ start ≤ k ∧ k < start + entries.length

structure Laid (start : Nat) (entries : List Entry) (above : Option InstanceId)
    (tops : List Seat) : Prop where
  inner : Inner start entries above
  tops : seatsBelow entries above = tops
  offspring : ∀ k e, entries[k]? = some e →
    seatsBelow entries (some ⟨start + k⟩) = e.seat.offspring

theorem Inner.seatsOutside {start : Nat} {entries : List Entry} {above : Option InstanceId}
    (inner : Inner start entries above) {k : Nat} (apart : above ≠ some ⟨k⟩)
    (outside : k < start ∨ start + entries.length ≤ k) : seatsBelow entries (some ⟨k⟩) = [] := by
  rw [seatsBelow, List.map_eq_nil_iff, List.filter_eq_nil_iff]
  intro e inside
  rcases inner e inside with up | ⟨j, up, low, high⟩
  · simpa [up] using apart
  · simp only [up, beq_iff_eq, Option.some.injEq, InstanceId.mk.injEq]
    omega

theorem laidNil {start : Nat} {above : Option InstanceId} : Laid start [] above [] :=
  ⟨fun _ inside => (nomatch inside), rfl, fun _ _ found => (nomatch found)⟩

theorem Laid.append {start : Nat} {xs ys : List Entry} {above : Option InstanceId}
    {ss ts : List Seat} (outside : ∀ p, above = some p → p.index < start)
    (first : Laid start xs above ss) (rest : Laid (start + xs.length) ys above ts) :
    Laid start (xs ++ ys) above (ss ++ ts) where
  inner := by
    intro e inside
    rw [List.length_append]
    rcases List.mem_append.mp inside with here | there
    · rcases first.inner e here with up | ⟨k, up, low, high⟩
      · exact .inl up
      · exact .inr ⟨k, up, low, by omega⟩
    · rcases rest.inner e there with up | ⟨k, up, low, high⟩
      · exact .inl up
      · exact .inr ⟨k, up, by omega, by omega⟩
  tops := by rw [seatsBelowAppend, first.tops, rest.tops]
  offspring := by
    intro k e found
    have apart : above ≠ some ⟨start + k⟩ := fun same => by
      have := outside _ same
      simp only at this
      omega
    rw [seatsBelowAppend]
    rcases Nat.lt_or_ge k xs.length with inside | past
    · rw [List.getElem?_append_left inside] at found
      rw [first.offspring k e found, rest.inner.seatsOutside apart (.inl (by omega)),
        List.append_nil]
    · rw [List.getElem?_append_right past] at found
      have here := rest.offspring _ e found
      rw [show start + xs.length + (k - xs.length) = start + k by omega] at here
      rw [here, first.inner.seatsOutside apart (.inr (by omega)), List.nil_append]

theorem laidChain {piece : Seat → Nat → List Entry} {above : Option InstanceId} {ss : List Seat}
    (each : ∀ s ∈ ss, ∀ start, (∀ p, above = some p → p.index < start) →
      Laid start (piece s start) above [s]) :
    ∀ {start : Nat}, (∀ p, above = some p → p.index < start) →
      Laid start (chain piece start ss) above ss := by
  induction ss with
  | nil => exact fun _ => laidNil
  | cons s ss ih =>
    intro start outside
    have first := each s (by simp) start outside
    have after : ∀ p, above = some p → p.index < start + (piece s start).length := by
      intro p same
      exact Nat.lt_of_lt_of_le (outside p same) (Nat.le_add_right _ _)
    have rest := ih (fun s inside => each s (List.mem_cons_of_mem _ inside)) after
    exact first.append outside rest

theorem Laid.under {start : Nat} {e : Entry} {es : List Entry}
    (outside : ∀ p, e.parent = some p → p.index < start)
    (below : Laid (start + 1) es (some ⟨start⟩) e.seat.offspring) :
    Laid start (e :: es) e.parent [e.seat] where
  inner := by
    intro x inside
    rw [List.length_cons]
    rcases List.mem_cons.mp inside with rfl | inside
    · exact .inl rfl
    · rcases below.inner x inside with up | ⟨k, up, low, high⟩
      · exact .inr ⟨start, up, Nat.le_refl _, by omega⟩
      · exact .inr ⟨k, up, by omega, by omega⟩
  tops := by
    have none : seatsBelow es e.parent = [] := by
      rw [seatsBelow, List.map_eq_nil_iff, List.filter_eq_nil_iff]
      intro x inside same
      have up : x.parent = e.parent := by simpa using same
      rcases below.inner x inside with above | ⟨k, above, low, -⟩
      · exact absurd (outside _ (up.symm.trans above)) (Nat.lt_irrefl _)
      · have := outside _ (up.symm.trans above)
        simp only at this
        omega
    simpa [seatsBelow] using none
  offspring := by
    intro k x found
    -- the entry itself is below no position from `start` on, so only `es` counts
    have apart : ∀ j, start ≤ j → e.parent ≠ some ⟨j⟩ := fun j low same => by
      have := outside _ same
      simp only at this
      omega
    have skip : seatsBelow (e :: es) (some ⟨start + k⟩) = seatsBelow es (some ⟨start + k⟩) := by
      simp [seatsBelow, apart (start + k) (by omega)]
    rw [skip]
    cases k with
    | zero =>
      cases Option.some.inj found
      exact below.tops
    | succ k =>
      have here := below.offspring k x found
      rwa [Nat.add_assoc, Nat.add_comm 1 k] at here

theorem Tree.laidListing (t : Tree) : ∀ (above : Option InstanceId) (o : Occurrence) (start : Nat),
    (∀ p, above = some p → p.index < start) →
      Laid start (t.listing above o start) above [(t, o)] := by
  induction t with
  | mk p ts ih =>
    intro above o start outside
    rw [listingEq]
    refine Laid.under (e := ⟨mk p ts, o, above⟩) outside (laidChain ?_ ?_)
    · intro s inside first before
      have child := (Seat.memOffspring (s := (mk p ts, o)).mp inside).1
      exact ih s.1 child _ _ _ before
    · intro q same
      cases same
      exact Nat.lt_succ_self _

namespace Unrolling

def entries (trees : List Tree) : List Entry :=
  chain (Tree.listingOf none) 0 (trees.map fun t => (t, t.occurrence))

theorem laidEntries (trees : List Tree) :
    Laid 0 (entries trees) none (trees.map fun t => (t, t.occurrence)) := by
  refine laidChain (fun s _ first outside => ?_) (by simp)
  exact s.1.laidListing none s.2 first outside

end Unrolling

end ProductLine
