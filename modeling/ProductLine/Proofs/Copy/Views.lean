import ProductLine.Proofs.Copy.Names
import ProductLine.Proofs.Formula.View

/-!
The view that a copy of a constraint has: each referenced feature with a place stands for the
instances seen of it.
-/
namespace ProductLine

def Roster.symbols (r : Roster) (sort : ValueSort) (ids : List InstanceId) : List Variable :=
  ids.filterMap fun i => r.instances[i.index]?.map fun x => ⟨x.identifier, sort⟩

theorem Roster.symbolsCons {r : Roster} {sort : ValueSort} {j : InstanceId}
    {ids : List InstanceId} {x : Instance} (stored : r.instances[j.index]? = some x) :
    r.symbols sort (j :: ids) = ⟨x.identifier, sort⟩ :: r.symbols sort ids := by
  rw [symbols, List.filterMap_cons, stored]
  rfl

theorem Roster.memSymbols {r : Roster} {sort : ValueSort} {ids : List InstanceId} {v : Variable} :
    v ∈ r.symbols sort ids ↔
      ∃ j ∈ ids, ∃ x, r.instances[j.index]? = some x ∧ ⟨x.identifier, sort⟩ = v := by
  simp [symbols]

namespace FeatureModel

def placeOf (m : FeatureModel) (f : FeatureId) : Option Placed :=
  (m.placement f).bind fun n => (m.placed n).toOption

def view (m : FeatureModel) (r : Roster) (seen : FeatureId → List InstanceId) (k : Constraint) :
    View :=
  k.referenced.filterMap fun f => (m.placeOf f).map fun p =>
    ⟨⟨p.feature.name, p.sort⟩, r.symbols p.sort (seen f)⟩

end FeatureModel

section Places
variable {m : FeatureModel} {f g : FeatureId} {p : Placed}

theorem placeOfSome : m.placeOf f = some p ↔ ∃ n, m.placement f = some n ∧ m.placed n = .ok p := by
  simp only [FeatureModel.placeOf, Option.bind_eq_some_iff, toOptionEqSome]

theorem WellFormed.placeFeature (w : WellFormed m) (place : m.placeOf f = some p) :
    p.node.feature = f ∧ m.features[f.index]? = some p.feature ∧
      p.feature.type.sort? = some p.sort := by
  obtain ⟨n, placed, found⟩ := placeOfSome.mp place
  obtain ⟨node, there, carries⟩ := w.placementNode placed
  obtain ⟨stored, known, sorted⟩ := FeatureModel.placedEqOk.mp found
  cases Option.some.inj (stored.symm.trans there)
  exact ⟨carries, carries ▸ known, sorted⟩

end Places

structure Sight (m : FeatureModel) (trees : List Tree) (r : Roster)
    (seen : FeatureId → List InstanceId) : Prop where
  rostered : Rostered m trees r
  once : m.PlacedOnce
  apart : m.NamesApart
  distinct : ∀ f, (seen f).Nodup
  own : ∀ f, ∀ j ∈ seen f, r.isOf f j = true

namespace Sight
variable {m : FeatureModel} {trees : List Tree} {r : Roster} {seen : FeatureId → List InstanceId}
  {f g : FeatureId} {p : Placed} {k : Constraint} {j : InstanceId}

theorem instancePlace (h : Sight m trees r seen) (place : m.placeOf f = some p)
    (inside : j ∈ seen f) :
    ∃ e, (Unrolling.entries trees)[j.index]? = some e ∧ e.tree.place = p := by
  obtain ⟨x, stored, has⟩ := Rostered.isOfExact.mp (h.own f j inside)
  obtain ⟨e, found, rfl⟩ := h.rostered.instanceEntry stored
  refine ⟨e, found, ?_⟩
  have w := h.rostered.wellFormed
  have mirror := h.rostered.mirror found
  obtain ⟨n, -, placed⟩ := placeOfSome.mp place
  have known := (FeatureModel.placedEqOk.mp mirror.placed).2.1
  refine w.placeOfName h.once mirror.placed placed ?_
  have own := h.rostered.entryFeature found mirror.stored
  rw [← own, has, (w.placeFeature place).2.1] at known
  rw [Option.some.inj known]

theorem instanceTerm (h : Sight m trees r seen) (place : m.placeOf f = some p)
    (inside : j ∈ seen f) :
    ∃ x, r.instances[j.index]? = some x ∧
      x.term = (Variable.mk x.identifier p.sort).selected := by
  obtain ⟨e, found, rfl⟩ := h.instancePlace place inside
  exact ⟨_, h.rostered.entryInstance found, Rostered.entryTerm found⟩

theorem symbolEntry (h : Sight m trees r seen) (place : m.placeOf f = some p) {v : Variable}
    (inside : v ∈ r.symbols p.sort (seen f)) :
    ∃ e ∈ Unrolling.entries trees, e.occurrence.symbol = v := by
  obtain ⟨j, member, x, stored, rfl⟩ := Roster.memSymbols.mp inside
  obtain ⟨e, found, rfl⟩ := h.instancePlace place member
  cases (h.rostered.entryInstance found).symm.trans stored
  exact ⟨e, List.mem_of_getElem? found, Rostered.entrySymbol found⟩

theorem memView (s : Standing) : s ∈ m.view r seen k ↔ ∃ f ∈ k.referenced, ∃ p,
    m.placeOf f = some p ∧ ⟨⟨p.feature.name, p.sort⟩, r.symbols p.sort (seen f)⟩ = s := by
  simp [FeatureModel.view]

theorem viewUnique (h : Sight m trees r seen) (referenced : f ∈ k.referenced)
    (place : m.placeOf f = some p) {good : Standing → Bool}
    (names : ∀ s ∈ m.view r seen k, good s = true → s.own.name = p.feature.name)
    (fits : good ⟨⟨p.feature.name, p.sort⟩, r.symbols p.sort (seen f)⟩ = true) :
    (m.view r seen k).find? good =
      some ⟨⟨p.feature.name, p.sort⟩, r.symbols p.sort (seen f)⟩ := by
  refine findUnique (fun s listed chosen => ?_)
    ((memView _).mpr ⟨f, referenced, p, place, rfl⟩) fits
  have name := names s listed chosen
  obtain ⟨f', -, p', place', rfl⟩ := (memView s).mp listed
  have w := h.rostered.wellFormed
  cases w.featureOfName (w.placeFeature place').2.1 (w.placeFeature place).2.1 name
  cases place.symm.trans place'
  rfl

end Sight
end ProductLine
