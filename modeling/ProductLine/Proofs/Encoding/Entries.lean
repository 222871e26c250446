import ProductLine.Proofs.Encoding.Listing
import ProductLine.Proofs.Model.Growth
import ProductLine.Proofs.Roster.Links

/-!
The roster of a forest holds the entries of its listing, in order, and its lists tell which entry
lies below which.
-/
namespace ProductLine

structure Roster.Gains (r : Roster) (entries : List Entry) (r' : Roster) : Prop where
  instances : r'.instances.toList = r.instances.toList ++ entries.map Entry.toInstance
  sound : r.Sound → r'.Sound

namespace Roster.Gains
variable {r r' r'' : Roster} {xs ys : List Entry}

theorem size (gains : r.Gains xs r') : r'.size = r.size + xs.length := by
  have h := congrArg List.length gains.instances
  simpa [Roster.size] using h

theorem trans (first : r.Gains xs r') (rest : r'.Gains ys r'') : r.Gains (xs ++ ys) r'' where
  instances := by rw [rest.instances, first.instances, List.map_append, List.append_assoc]
  sound := rest.sound ∘ first.sound

theorem enter {e : Entry} (there : ∀ p, e.parent = some p → p.index < r.size) :
    r.Gains [e] (r.enter e.toInstance) where
  instances := by simp [Roster.enter]
  sound := fun sound => sound.enter there

theorem fold {above : Option InstanceId} {ss : List Seat}
    (each : ∀ s ∈ ss, ∀ r : Roster, (∀ p, above = some p → p.index < r.size) →
      r.Gains (Tree.listingOf above s r.size) (s.1.enter above s.2 r)) :
    ∀ {r : Roster}, (∀ p, above = some p → p.index < r.size) →
      r.Gains (chain (Tree.listingOf above) r.size ss)
        (ss.foldl (fun r s => s.1.enter above s.2 r) r) := by
  induction ss with
  | nil =>
    intro r _
    exact ⟨by simp [chain], id⟩
  | cons s ss ih =>
    intro r there
    have first := each s (by simp) r there
    have rest := ih (fun s inside => each s (List.mem_cons_of_mem _ inside))
      (r := s.1.enter above s.2 r) fun p same => by
        have := there p same
        rw [first.size]
        omega
    rw [first.size] at rest
    exact first.trans rest

end Roster.Gains

namespace Tree

theorem enterBelowEq (above : InstanceId) (o : Occurrence) (ts : List Tree) : ∀ r,
    enterBelow above o ts r =
      (ts.flatMap fun c => (c.place.spread o.suffix?).occurrences.map fun x => (c, x)).foldl
        (fun r (s : Seat) => s.1.enter (some above) s.2 r) r := by
  induction ts with
  | nil => simp [enterBelow]
  | cons t ts ih =>
    intro r
    rw [enterBelow, ih, List.flatMap_cons, List.foldl_append, List.foldl_map]

theorem enterGains (t : Tree) : ∀ (above : Option InstanceId) (o : Occurrence) (r : Roster),
    (∀ p, above = some p → p.index < r.size) →
      r.Gains (t.listing above o r.size) (t.enter above o r) := by
  induction t with
  | mk p ts ih =>
    intro above o r there
    have first := Roster.Gains.enter (r := r) (e := ⟨mk p ts, o, above⟩) there
    have rest : (r.enter (Entry.toInstance ⟨mk p ts, o, above⟩)).Gains
        (chain (listingOf (some r.nextId)) (r.size + 1) (Seat.offspring (mk p ts, o)))
        ((mk p ts).enter above o r) := by
      have size : (r.enter (Entry.toInstance ⟨mk p ts, o, above⟩)).size = r.size + 1 := first.size
      rw [enter, enterBelowEq, ← size]
      refine Roster.Gains.fold (fun s inside r' before => ?_) fun q same => ?_
      · have child := (Seat.memOffspring (s := (mk p ts, o)).mp inside).1
        exact ih s.1 child _ _ _ before
      · cases same
        rw [first.size]
        exact Nat.lt_succ_self _
    rw [listingEq]
    exact first.trans rest

end Tree

namespace Unrolling

theorem rosterGains (trees : List Tree) :
    Roster.empty.Gains (entries trees) (ofForest trees).roster := by
  have all : Roster.Gains .empty _ _ := Roster.Gains.fold
    (fun (s : Seat) (_ : s ∈ trees.map fun t => (t, t.occurrence)) r there =>
      s.1.enterGains none s.2 r there) (by simp)
  rw [List.foldl_map] at all
  exact all

theorem rosterSound (trees : List Tree) : (ofForest trees).roster.Sound :=
  (rosterGains trees).sound .empty

theorem instanceAt (trees : List Tree) (i : Nat) :
    (ofForest trees).roster.instances[i]? = (entries trees)[i]?.map Entry.toInstance := by
  rw [← Array.getElem?_toList, (rosterGains trees).instances]
  simp [Roster.empty]

variable {trees : List Tree}

theorem entryStored {i : Nat} {e : Entry} (found : (entries trees)[i]? = some e) :
    (ofForest trees).roster.instances[i]? = some e.toInstance := by
  rw [instanceAt, found]
  rfl

theorem parentBefore {i : Nat} {e : Entry} {p : InstanceId} (found : (entries trees)[i]? = some e)
    (up : e.parent = some p) : p.index < i := by
  refine (rosterSound trees).parents (x := e.toInstance) ?_ up
  rw [instanceAt, found]
  rfl

theorem memSeatsBelow {es : List Entry} {above : Option InstanceId} {s : Seat} :
    s ∈ seatsBelow es above ↔ ∃ e ∈ es, e.parent = above ∧ e.seat = s := by
  simp [seatsBelow, and_assoc]

theorem entryBelow {i : Nat} {e : Entry} {s : Seat} (found : (entries trees)[i]? = some e)
    (below : s ∈ e.seat.offspring) :
    ∃ (j : Nat) (e' : Entry), (entries trees)[j]? = some e' ∧
      e'.parent = some ⟨i⟩ ∧ e'.seat = s := by
  have seats := (laidEntries trees).offspring i e found
  rw [Nat.zero_add] at seats
  obtain ⟨e', inside, up, seat⟩ := memSeatsBelow.mp (seats ▸ below)
  obtain ⟨j, found'⟩ := List.mem_iff_getElem?.mp inside
  exact ⟨j, e', found', up, seat⟩

theorem entryAbove {j : Nat} {e' : Entry} {p : InstanceId} (found : (entries trees)[j]? = some e')
    (up : e'.parent = some p) :
    ∃ e, (entries trees)[p.index]? = some e ∧ e'.seat ∈ e.seat.offspring := by
  have before := parentBefore found up
  have inside := (List.getElem?_eq_some_iff.mp found).1
  have stored := List.getElem?_eq_getElem (l := entries trees) (i := p.index) (by omega)
  refine ⟨_, stored, ?_⟩
  have seats := (laidEntries trees).offspring _ _ stored
  rw [Nat.zero_add] at seats
  rw [← seats]
  exact memSeatsBelow.mpr ⟨e', List.mem_of_getElem? found, up, rfl⟩

theorem childEntry {i : Nat} {e : Entry} {t : Tree} {o : Occurrence}
    (found : (entries trees)[i]? = some e) (child : t ∈ e.tree.children)
    (spread : o ∈ (t.place.spread e.occurrence.suffix?).occurrences) :
    ∃ (j : Nat) (e' : Entry), (entries trees)[j]? = some e' ∧ e'.parent = some ⟨i⟩ ∧
      e'.tree = t ∧ e'.occurrence = o := by
  have below : (t, o) ∈ e.seat.offspring := Seat.memOffspring.mpr ⟨child, spread⟩
  obtain ⟨j, e', found', up, seat⟩ := entryBelow found below
  obtain ⟨tree, occurrence⟩ := Prod.ext_iff.mp seat
  exact ⟨j, e', found', up, tree, occurrence⟩

theorem parentEntry {j : Nat} {e' : Entry} {p : InstanceId} (found : (entries trees)[j]? = some e')
    (up : e'.parent = some p) :
    ∃ e, (entries trees)[p.index]? = some e ∧ e'.tree ∈ e.tree.children ∧
      e'.occurrence ∈ (e'.tree.place.spread e.occurrence.suffix?).occurrences := by
  obtain ⟨e, above, seat⟩ := entryAbove found up
  exact ⟨e, above, Seat.memOffspring.mp seat⟩

theorem entryTop {e : Entry} (inside : e ∈ entries trees) (up : e.parent = none) :
    ∃ t ∈ trees, e.seat = (t, t.occurrence) := by
  have seat := memSeatsBelow.mpr ⟨e, inside, up, rfl⟩
  rw [(laidEntries trees).tops] at seat
  obtain ⟨t, member, same⟩ := List.mem_map.mp seat
  exact ⟨t, member, same.symm⟩

theorem topEntry {t : Tree} (member : t ∈ trees) :
    ∃ (j : Nat) (e : Entry), (entries trees)[j]? = some e ∧ e.parent = none ∧
      e.seat = (t, t.occurrence) := by
  have seat : (t, t.occurrence) ∈ seatsBelow (entries trees) none := by
    rw [(laidEntries trees).tops]
    exact List.mem_map.mpr ⟨t, member, rfl⟩
  obtain ⟨e, inside, up, same⟩ := memSeatsBelow.mp seat
  obtain ⟨j, found⟩ := List.mem_iff_getElem?.mp inside
  exact ⟨j, e, found, up, same⟩

theorem seatInduction {motive : Seat → Prop} (top : ∀ t ∈ trees, motive (t, t.occurrence))
    (below : ∀ s k, motive s → k ∈ Seat.offspring s → motive k) {e : Entry}
    (inside : e ∈ entries trees) : motive e.seat := by
  obtain ⟨i, found⟩ := List.mem_iff_getElem?.mp inside
  clear inside
  induction i using Nat.strongRecOn generalizing e with
  | ind i earlier =>
    cases up : e.parent with
    | none =>
      obtain ⟨t, member, same⟩ := entryTop (List.mem_of_getElem? found) up
      exact same ▸ top t member
    | some p =>
      obtain ⟨e', found', seat⟩ := entryAbove found up
      exact below _ _ (earlier p.index (parentBefore found up) found') seat

theorem entriesMirror {m : FeatureModel} (mirrors : ∀ t ∈ trees, Tree.Mirrors m t) {e : Entry}
    (inside : e ∈ entries trees) : Tree.Mirrors m e.tree := by
  refine seatInduction (motive := fun s => Tree.Mirrors m s.1) mirrors
    (fun s k up child => ?_) inside
  exact up.deeper k.1 (Seat.memOffspring.mp child).1

theorem underTerms (trees : List Tree) (above : Option InstanceId) (n : NodeId) :
    ((ofForest trees).roster.under above n).map
        (fun i => (ofForest trees).roster.instances[i.index]?.map Instance.term) =
      ((seatsBelow (entries trees) above).filter fun s => s.1.id == n).map
        (fun s => some s.2.term) := by
  have all := (rosterGains trees).instances
  have read := congrArg (List.map (Option.map Instance.term)) (Roster.thoseRead
    (r := (ofForest trees).roster) fun x => x.parent == above && x.node == n)
  rw [all, List.map_map] at read
  rw [Roster.under, seatsBelow, List.filter_map, List.filter_filter, List.map_map]
  refine read.trans ?_
  simp only [Roster.empty, List.nil_append, List.filter_map, List.map_map]
  refine congrArg₂ List.map rfl (List.filter_congr fun e _ => ?_)
  rw [Bool.and_comm]
  rfl

end Unrolling

theorem Tree.only {β : Type} {ts : List Tree} {c : Tree} (apart : (ts.map Tree.id).Nodup)
    (inside : c ∈ ts) (answer : Tree → List β) :
    ts.flatMap (fun t => if t.id = c.id then answer t else []) = answer c := by
  induction ts with
  | nil => cases inside
  | cons t ts ih =>
    obtain ⟨fresh, apart⟩ := List.nodup_cons.mp apart
    rw [List.flatMap_cons]
    rcases List.mem_cons.mp inside with rfl | later
    · have others : ∀ u ∈ ts, (if u.id = c.id then answer u else []) = [] := by
        intro u inside
        exact if_neg fun same => fresh (List.mem_map.mpr ⟨u, inside, same⟩)
      rw [if_pos rfl, List.flatMap_eq_nil_iff.mpr others, List.append_nil]
    · have other : t.id ≠ c.id := fun same => fresh (List.mem_map.mpr ⟨c, later, same.symm⟩)
      rw [if_neg other, List.nil_append]
      exact ih apart later

theorem Seat.offspringOf {s : Seat} {c : Tree} (apart : (s.1.children.map Tree.id).Nodup)
    (child : c ∈ s.1.children) : s.offspring.filter (fun k => k.1.id == c.id) =
      (c.place.spread s.2.suffix?).occurrences.map fun x => (c, x) := by
  have pieces : ∀ t : Tree, ((t.place.spread s.2.suffix?).occurrences.map fun x => (t, x)).filter
      (fun k => k.1.id == c.id) = if t.id = c.id then
        (t.place.spread s.2.suffix?).occurrences.map fun x => (t, x) else [] := by
    intro t
    by_cases same : t.id = c.id <;> simp [List.filter_map, Function.comp_def, same]
  rw [offspring, List.filter_flatMap]
  simp only [pieces]
  exact Tree.only apart child _

theorem Unrolling.topsOf {trees : List Tree} {t : Tree} (apart : (trees.map Tree.id).Nodup)
    (inside : t ∈ trees) : (trees.map fun t => (t, t.occurrence)).filter (fun s => s.1.id == t.id) =
      [(t, t.occurrence)] := by
  have pieces : ∀ u : Tree, [(u, u.occurrence)].filter (fun s => s.1.id == t.id) =
      if u.id = t.id then [(u, u.occurrence)] else [] := by
    intro u
    by_cases same : u.id = t.id <;> simp [same]
  rw [List.map_eq_flatMap, List.filter_flatMap]
  simp only [pieces]
  exact Tree.only apart inside _

end ProductLine
