import ProductLine.Proofs.Encoding.Atoms
import ProductLine.Proofs.Encoding.Recasting

/-!
What either encoding says of the children of an owner: of an instance in the full encoding, of a
node in the simple one. Each occurrence of a child needs the owner; all else is said of the owner
and its children together or of the clones of one child. So if the terms of the owners tell their
nodes and are told apart, no need is stated twice, and nothing else that is said equals it.
-/
namespace ProductLine

def Placed.orders (p : Placed) (parent : Formula) (suffix : Option String) : List Formula :=
  (p.spread suffix).steps.flatMap (fun step =>
      (step.1.map fun q => Formula.implies step.2.term q.term).toList) ++
    (p.spread suffix).lowerBound parent p.node.cardinality.lower

structure Owner where
  seat : Seat
  term : Formula

namespace Owner

def conjuncts (w : Owner) : List Formula := w.seat.1.conjuncts w.term w.seat.2.suffix?

def needs (w : Owner) : List Formula := w.seat.offspring.map fun k => .implies k.2.term w.term

def rules (w : Owner) : List Formula :=
  w.seat.1.place.groupConjuncts w.term w.seat.2.suffix? (w.seat.1.children.map Tree.place) ++
    w.seat.1.children.flatMap fun c => c.place.orders w.term w.seat.2.suffix?

end Owner

def FeatureModel.Marks (m : FeatureModel) (f : Formula) (n : NodeId) : Prop :=
  ∃ (p : Placed) (index : Option Nat) (suffix : Option String), m.placed n = .ok p ∧
    (p.occurrence index suffix).term = f

structure Owners (m : FeatureModel) (owners : List Owner) : Prop where
  mirrors : ∀ w ∈ owners, Tree.Mirrors m w.seat.1
  marked : ∀ w ∈ owners, ∀ f ∈ w.term.atoms, m.Marks f w.seat.1.id
  apart : (owners.map Owner.term).Nodup

section Sorting
variable {p : Placed} {parent f : Formula} {suffix : Option String} {w : Owner}

theorem Placed.conditionsPerm (p : Placed) (parent : Formula) (suffix : Option String) :
    (p.conditions parent suffix).Perm
      ((p.spread suffix).occurrences.map (fun o => .implies o.term parent) ++
        p.orders parent suffix) := by
  have split := List.map_append_flatMap_perm (p.spread suffix).steps
    (fun step => Formula.implies step.2.term parent)
    (fun step => (step.1.map fun q => Formula.implies step.2.term q.term).toList)
  rw [conditions, orders, ← List.append_assoc, ← Spread.stepsOccurrences, List.map_map]
  exact split.symm.append_right _

theorem Owner.conjunctsPerm (w : Owner) : w.conjuncts.Perm (w.needs ++ w.rules) := by
  have each := List.Perm.flatMap_left w.seat.1.children fun c _ =>
    c.place.conditionsPerm w.term w.seat.2.suffix?
  have split := List.flatMap_append_perm w.seat.1.children
    (fun c => (c.place.spread w.seat.2.suffix?).occurrences.map fun o => .implies o.term w.term)
    (fun c => c.place.orders w.term w.seat.2.suffix?)
  have needs : w.needs = w.seat.1.children.flatMap fun c =>
      (c.place.spread w.seat.2.suffix?).occurrences.map fun o => .implies o.term w.term := by
    rw [Owner.needs, Seat.offspring, List.map_flatMap]
    simp only [List.map_map, Function.comp_def]
  rw [conjuncts, Tree.conjuncts, rules, needs]
  exact ((each.trans split.symm).append_left _).trans (List.perm_append_comm_assoc ..)

theorem Owner.allPerm (owners : List Owner) : (owners.flatMap conjuncts).Perm
    (owners.flatMap needs ++ owners.flatMap rules) :=
  (List.Perm.flatMap_left owners fun w _ => w.conjunctsPerm).trans
    (List.flatMap_append_perm owners needs rules).symm

theorem Placed.spreadAtom (p : Placed) (suffix : Option String) :
    ∃ o ∈ (p.spread suffix).occurrences, o.term ∈ (p.spread suffix).term.atoms := by
  obtain ⟨o, first⟩ := p.someOccurrence suffix
  exact ⟨o, List.mem_of_getElem? first,
    Spread.memTermAtoms.mpr ⟨o, List.mem_of_getElem? first, rfl⟩⟩

theorem Placed.groupForm {below : List Placed}
    (listed : f ∈ p.groupConjuncts parent suffix below) : ∃ g, f = .implies parent g ∧
      ∃ q ∈ below, ∃ o ∈ (q.spread suffix).occurrences, o.term ∈ g.atoms := by
  rcases memEncodeGroups.mp listed with
    ⟨c, member, -, rfl⟩ | ⟨i, kind, -, ⟨c, member, here⟩, encoded⟩
  · obtain ⟨q, inside, rfl⟩ := List.mem_map.mp member
    exact ⟨_, rfl, q, inside, q.spreadAtom suffix⟩
  · obtain ⟨rule, -, rfl⟩ := Option.map_eq_some_iff.mp encoded
    obtain ⟨q, inside, rfl⟩ := List.mem_map.mp member
    obtain ⟨o, own, part⟩ := q.spreadAtom suffix
    refine ⟨_, rfl, q, inside, o, own, ?_⟩
    rw [Formula.atomsCompound rfl, List.mem_flatMap]
    exact ⟨_, List.mem_map.mpr ⟨_, List.mem_filter.mpr ⟨member, here⟩, rfl⟩, part⟩

theorem Placed.ordersForm (listed : f ∈ p.orders parent suffix) :
    (∃ g, f = .implies parent g ∧ ∃ o ∈ (p.spread suffix).occurrences, o.term ∈ g.atoms) ∨
    ∃ o ∈ (p.spread suffix).occurrences, ∃ q ∈ (p.spread suffix).occurrences,
      f = .implies o.term q.term := by
  rcases List.mem_append.mp listed with link | bound
  · obtain ⟨step, taken, link⟩ := List.mem_flatMap.mp link
    obtain ⟨q, before, rfl⟩ := Option.map_eq_some_iff.mp (Option.mem_toList.mp link)
    exact .inr ⟨_, Spread.stepFrom taken, q, Spread.stepBefore taken before, rfl⟩
  · obtain ⟨os, spread, rfl⟩ := Spread.boundForm bound
    obtain ⟨o, own, part⟩ := p.spreadAtom suffix
    refine .inl ⟨_, rfl, o, own, ?_⟩
    rw [spread, Spread.term, Formula.atomsCompound rfl] at part
    rw [Formula.atomsCompound rfl]
    exact part

theorem Owner.rulesForm (listed : f ∈ w.rules) :
    (∃ g, f = .implies w.term g ∧ ∃ k ∈ w.seat.offspring, k.2.term ∈ g.atoms) ∨
    ∃ k ∈ w.seat.offspring, ∃ l ∈ w.seat.offspring, k.1 = l.1 ∧ f = .implies k.2.term l.2.term := by
  rcases List.mem_append.mp listed with group | order
  · obtain ⟨g, rfl, q, place, o, own, part⟩ := Placed.groupForm group
    obtain ⟨c, child, rfl⟩ := List.mem_map.mp place
    exact .inl ⟨g, rfl, (c, o), Seat.memOffspring.mpr ⟨child, own⟩, part⟩
  · obtain ⟨c, child, order⟩ := List.mem_flatMap.mp order
    rcases Placed.ordersForm order with ⟨g, rfl, o, own, part⟩ | ⟨o, own, q, own', rfl⟩
    · exact .inl ⟨g, rfl, (c, o), Seat.memOffspring.mpr ⟨child, own⟩, part⟩
    · exact .inr ⟨(c, o), Seat.memOffspring.mpr ⟨child, own⟩, (c, q),
        Seat.memOffspring.mpr ⟨child, own'⟩, rfl, rfl⟩

end Sorting

section Apart
variable {m : FeatureModel} {n n' : NodeId} {f : Formula} {owners : List Owner} {w w' : Owner}
  {k l : Seat}

theorem Placed.termOnce {p q : Placed} {i j : Option Nat} {s t : Option String}
    (apart : m.NamesApart) (placed : m.placed n = .ok p) (placed' : m.placed n' = .ok q)
    (same : (p.occurrence i s).term = (q.occurrence j t).term) :
    p.feature.name = q.feature.name ∧ i = j := by
  have declared : ∀ {n p}, m.placed n = .ok p → p.feature ∈ m.features := fun placed =>
    Array.mem_of_getElem? (FeatureModel.placedEqOk.mp placed).2.1
  obtain ⟨names, numbers, -⟩ := identifierOnce apart (declared placed) (declared placed')
    (Variable.selectedOnce same)
  exact ⟨names, numbers⟩

theorem WellFormed.marksOnce (well : WellFormed m) (once : m.PlacedOnce) (apart : m.NamesApart)
    (marks : m.Marks f n) (marks' : m.Marks f n') : n = n' := by
  obtain ⟨p, i, s, placed, rfl⟩ := marks
  obtain ⟨q, j, t, placed', same⟩ := marks'
  obtain ⟨names, -⟩ := Placed.termOnce apart placed' placed same
  cases well.placeOfName once placed' placed names
  exact (well.placedId placed).symm.trans (well.placedId placed')

namespace Owners
variable (h : Owners m owners)
include h

theorem offspringMarks (inside : w ∈ owners) (below : k ∈ w.seat.offspring) :
    m.Marks k.2.term k.1.id := by
  obtain ⟨child, own⟩ := Seat.memOffspring.mp below
  have placed := ((h.mirrors w inside).deeper k.1 child).placed
  exact ⟨k.1.place, k.2.index, _, placed, by rw [← Placed.spreadOccurrence own]⟩

theorem ownerBefore (well : WellFormed m) (inside : w ∈ owners) (below : k ∈ w.seat.offspring) :
    w.seat.1.id.index < k.1.id.index := by
  have mirror := h.mirrors w inside
  exact well.parentBefore
    (well.childAfter mirror.placed (mirror.listed (Seat.memOffspring.mp below).1))

variable (well : WellFormed m) (once : m.PlacedOnce) (apart : m.NamesApart)
include well once apart

theorem needsNodup : (owners.flatMap Owner.needs).Nodup := by
  have different := List.pairwise_map.mp h.apart
  refine List.nodup_flatMap.mpr ⟨fun w inside => ?_, different.imp fun {w w'} unlike => ?_⟩
  · -- within one owner, a term tells the child and the number of the clone
    have spots := (h.mirrors w inside).offspring w.seat.2
    have distinct := well.offspringNodup (h.mirrors w inside).stored
    rw [← spots] at distinct
    refine distinct.of_map.map_on fun k below l below' same => ?_
    have terms := (Formula.implies.inj same).1
    have node := well.marksOnce once apart (h.offspringMarks inside below)
      (terms ▸ h.offspringMarks inside below')
    obtain ⟨child, own⟩ := Seat.memOffspring.mp below
    obtain ⟨child', own'⟩ := Seat.memOffspring.mp below'
    rw [Placed.spreadOccurrence own, Placed.spreadOccurrence own'] at terms
    have mirror := h.mirrors w inside
    have number := (Placed.termOnce apart (mirror.deeper k.1 child).placed
      (mirror.deeper l.1 child').placed terms).2
    exact List.inj_on_of_nodup_map distinct below below' (Prod.ext node number)
  · intro f first second
    obtain ⟨k, -, rfl⟩ := List.mem_map.mp first
    obtain ⟨l, -, same⟩ := List.mem_map.mp second
    exact unlike (Formula.implies.inj same).2.symm

theorem needUnruled (inside : w ∈ owners) (below : k ∈ w.seat.offspring) (inside' : w' ∈ owners) :
    .implies k.2.term w.term ∉ w'.rules := by
  intro listed
  have here := h.offspringMarks inside below
  have down := h.ownerBefore well inside below
  have single : k.2.term.atoms = [k.2.term] := k.2.termAtoms
  rcases Owner.rulesForm listed with
    ⟨g, same, l, below', part⟩ | ⟨l, below', l', below'', tree, same⟩
  · -- the other owner would stand at the child's node, with this owner's node below it
    obtain ⟨premise, rfl⟩ := Formula.implies.inj same
    have own : k.2.term ∈ w'.term.atoms := by
      rw [← premise, single]
      exact List.mem_singleton_self _
    have upper := well.marksOnce once apart (h.marked w' inside' _ own) here
    have lower := well.marksOnce once apart (h.marked w inside _ part)
      (h.offspringMarks inside' below')
    have down' := h.ownerBefore well inside' below'
    rw [upper, ← lower] at down'
    exact Nat.lt_asymm down down'
  · -- both would stand at one node
    obtain ⟨premise, conclusion⟩ := Formula.implies.inj same
    have own : l'.2.term ∈ w.term.atoms := by
      rw [conclusion, l'.2.termAtoms]
      exact List.mem_singleton_self _
    have upper := well.marksOnce once apart (h.marked w inside _ own)
      (h.offspringMarks inside' below'')
    have lower := well.marksOnce once apart here (premise ▸ h.offspringMarks inside' below')
    rw [upper, lower, tree] at down
    exact Nat.lt_irrefl _ down

end Owners
end Apart

end ProductLine
