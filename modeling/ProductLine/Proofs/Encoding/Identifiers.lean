import ProductLine.Proofs.Encoding.Shape

/-!
An identifier that can be read back is that of one instance: its parts tell the node, the number
and, after the dot, the parent. Where no dot follows, nothing repeated is at or above the node, and
the parent is the only instance of its own node.
-/
namespace ProductLine
open Relation (ReflTransGen)

namespace Rostered
variable {m : FeatureModel} {trees : List Tree} {r : Roster} {i j : Nat} {e e' : Entry}

theorem entryPlain (found : (Unrolling.entries trees)[i]? = some e)
    (unqualified : e.occurrence.suffix? = none) :
    e.occurrence.index = none ∧ suffixAbove trees e.parent = none := by
  have named := entryNamed found
  have qualifies : e.occurrence.qualifies = false := by
    simpa [Occurrence.suffix?] using unqualified
  rw [named] at qualifies
  simpa [Placed.occurrence] using qualifies

theorem suffixName (found : (Unrolling.entries trees)[i]? = some e)
    (found' : (Unrolling.entries trees)[j]? = some e') (place : e.tree.place = e'.tree.place)
    (same : e.occurrence.suffix? = e'.occurrence.suffix?) :
    e.occurrence.symbol.name = e'.occurrence.symbol.name := by
  cases suffix : e.occurrence.suffix? with
  | none =>
    obtain ⟨index, above⟩ := entryPlain found suffix
    obtain ⟨index', above'⟩ := entryPlain found' (same ▸ suffix)
    rw [entryNamed found, entryNamed found', index, index', above, above', place]
  | some s =>
    have read : ∀ o : Occurrence, o.suffix? = some s → o.symbol.name = s := by
      intro o known
      unfold Occurrence.suffix? at known
      split at known
      · exact Option.some.inj known
      · cases known
    rw [read _ suffix, read _ (same ▸ suffix)]

theorem identifierParts (h : Rostered m trees r) (once : m.PlacedOnce) (apart : m.NamesApart)
    (found : (Unrolling.entries trees)[i]? = some e)
    (found' : (Unrolling.entries trees)[j]? = some e')
    (same : e.occurrence.symbol.name = e'.occurrence.symbol.name) :
    e.tree.place = e'.tree.place ∧ e.occurrence.index = e'.occurrence.index ∧
      suffixAbove trees e.parent = suffixAbove trees e'.parent := by
  have named := entryNamed found
  have named' := entryNamed found'
  have identified : e.tree.place.identifier e.occurrence.index (suffixAbove trees e.parent) =
      e'.tree.place.identifier e'.occurrence.index (suffixAbove trees e'.parent) := by
    rw [named, named'] at same
    exact same
  obtain ⟨names, numbers, suffixes⟩ := Placed.identifierOnce apart (h.entryDeclared found)
    (h.entryDeclared found') identified
  exact ⟨h.wellFormed.placeOfName once (h.mirror found).placed (h.mirror found').placed names,
    numbers, suffixes⟩

theorem identifierOnce (h : Rostered m trees r) (once : m.PlacedOnce) (apart : m.NamesApart)
    (found : (Unrolling.entries trees)[i]? = some e)
    (found' : (Unrolling.entries trees)[j]? = some e')
    (same : e.occurrence.symbol.name = e'.occurrence.symbol.name) : i = j := by
  induction i using Nat.strongRecOn generalizing j e e' with
  | ind i earlier =>
    -- the identifier tells all but the parent, and the parent comes earlier
    obtain ⟨place, index, suffix⟩ := h.identifierParts once apart found found' same
    have node : e.tree.id = e'.tree.id := congrArg (fun p : Placed => p.node.id) place
    have parents : e.parent = e'.parent := by
      cases up : e.parent with
      | none => exact (h.rootTop found' (node ▸ h.topRoot found up)).symm
      | some p =>
        cases up' : e'.parent with
        | none =>
          have top := h.rootTop found (node ▸ h.topRoot found' up')
          exact up.symm.trans top
        | some p' =>
          obtain ⟨above, there, link⟩ := h.stepUp found up
          obtain ⟨above', there', link'⟩ := h.stepUp found' up'
          -- both parents stand at the same node and hand down the same suffix
          have shared : above.tree.id = above'.tree.id :=
            FeatureModel.parentUnique link (node ▸ link')
          have places : above.tree.place = above'.tree.place :=
            Except.ok.inj ((h.mirror there).placed.symm.trans (shared ▸ (h.mirror there').placed))
          rw [up, up'] at suffix
          have handed : above.occurrence.suffix? = above'.occurrence.suffix? := by
            simpa [suffixAbove, there, there'] using suffix
          have positions := earlier p.index (Unrolling.parentBefore found up) there there'
            (suffixName there there' places handed)
          obtain ⟨p⟩ := p
          obtain ⟨p'⟩ := p'
          cases positions
          rfl
    have here : r.Stands e.parent ⟨i⟩ (e.tree.id, e.occurrence.index) :=
      ⟨_, h.entryInstance found, rfl, rfl, rfl⟩
    have there : r.Stands e.parent ⟨j⟩ (e.tree.id, e.occurrence.index) :=
      ⟨_, h.entryInstance found', parents.symm, node.symm, index.symm⟩
    exact congrArg InstanceId.index (h.standsOnce here there)

theorem unrepeated (h : Rostered m trees r) (found : (Unrolling.entries trees)[i]? = some e)
    (unqualified : e.occurrence.suffix? = none) {n : NodeId} (within : m.Within n e.tree.id) :
    m.repeats n = false := by
  induction i using Nat.strongRecOn generalizing e with
  | ind i earlier =>
    obtain ⟨index, above⟩ := entryPlain found unqualified
    rcases (ReflTransGen.cases_tail_iff _ _ _).mp within with rfl | ⟨q, beyond, link⟩
    · cases up : e.parent with
      | none => exact h.wellFormed.rootSingle (h.topRoot found up)
      | some p =>
        obtain ⟨_, -, -, inside⟩ := Unrolling.parentEntry found up
        obtain ⟨k, position⟩ := List.mem_iff_getElem?.mp inside
        rcases Placed.occurrenceAt.mp position with ⟨-, -, same⟩ | ⟨single, -, -⟩
        · rw [same] at index
          cases index
        · rw [FeatureModel.repeatsEqTrue (h.mirror found).stored, single]
    · cases up : e.parent with
      | none => exact absurd link (h.wellFormed.rootHighest (h.topRoot found up))
      | some p =>
        obtain ⟨parent, there, link'⟩ := h.stepUp found up
        cases FeatureModel.parentUnique link link'
        rw [up] at above
        refine earlier p.index (Unrolling.parentBefore found up) there ?_ beyond
        simpa [suffixAbove, there] using above

theorem namedPlainly (h : Rostered m trees r) (apart : m.NamesApart)
    (found : (Unrolling.entries trees)[i]? = some e) {feature : Feature}
    (declared : feature ∈ m.features) (same : e.toInstance.identifier = feature.name) :
    e.tree.place.feature.id = feature.id ∧ ∀ n, m.Within n e.tree.id → m.repeats n = false := by
  obtain ⟨names, index, suffix⟩ := h.entryName apart found declared same
  have unqualified : e.occurrence.suffix? = none := by
    rw [entryNamed found, index, suffix]
    rfl
  obtain ⟨-, known, -⟩ := FeatureModel.placedEqOk.mp (h.mirror found).placed
  obtain ⟨k, known'⟩ := Array.mem_iff_getElem?.mp declared
  have own := h.wellFormed.featureOfName (g := ⟨k⟩) known known' names
  refine ⟨?_, fun n within => h.unrepeated found unqualified within⟩
  rw [h.wellFormed.declared.ids known, h.wellFormed.declared.ids known', ← own]

end Rostered

/-- Where declared names cannot be taken for generated ones, no identifier stands for two instances,
and a declared name only for the instance of its own feature that is not a clone nor below one. -/
theorem identifiersApart {m : FeatureModel} (built : Built m) (typed : m.Typed)
    (once : m.PlacedOnce) (apart : m.NamesApart) : ∃ u, m.unroll = .ok u ∧
      (∀ (i j : Nat) (x y : Instance), u.roster.instances[i]? = some x →
        u.roster.instances[j]? = some y → x.identifier = y.identifier → i = j) ∧
      ∀ (i : Nat) (x : Instance) (feature : Feature), u.roster.instances[i]? = some x →
        feature ∈ m.features → x.identifier = feature.name →
          x.feature = feature.id ∧ ∀ n, m.Within n x.node → m.repeats n = false := by
  obtain ⟨trees, unrolled, h⟩ := built.wellFormed.unrollOk typed
  refine ⟨_, unrolled, ?_, ?_⟩
  · intro i j x y stored stored' same
    obtain ⟨e, found, rfl⟩ := h.instanceEntry stored
    obtain ⟨e', found', rfl⟩ := h.instanceEntry stored'
    exact h.identifierOnce once apart found found' same
  · intro i x feature stored declared same
    obtain ⟨e, found, rfl⟩ := h.instanceEntry stored
    exact h.namedPlainly apart found declared same

namespace Example

theorem hallIdentifiers : Built hall ∧ hall.Typed ∧ hall.PlacedOnce ∧ hall.NamesApart ∧
    ∃ u, hall.unroll = .ok u ∧
      (∀ (i j : Nat) (x y : Instance), u.roster.instances[i]? = some x →
        u.roster.instances[j]? = some y → x.identifier = y.identifier → i = j) ∧
      ∀ (i : Nat) (x : Instance) (feature : Feature), u.roster.instances[i]? = some x →
        feature ∈ hall.features → x.identifier = feature.name →
          x.feature = feature.id ∧ ∀ n, hall.Within n x.node → hall.repeats n = false := by
  have typed : hall.Typed := by decide
  have once : hall.PlacedOnce := by decide
  have apart : hall.NamesApart := FeatureModel.namesApart (by decide)
  exact ⟨hallBuilt, typed, once, apart, identifiersApart hallBuilt typed once apart⟩

end Example
end ProductLine
