import ProductLine.Proofs.Encoding.Shape

/-!
Moving clones to the front. Below every instance the chosen clones change places with those before
them, each with all that is below it. `source` tells whose place an instance takes: one of the same
node, below the source of its parent, and each instance is the source of one.
-/
namespace ProductLine

section Lists
variable {α β : Type} {good : α → Bool} {xs ys : List α}

def fronted (good : α → Bool) (xs : List α) : List α := xs.filter good ++ xs.filter (!good ·)

theorem frontedPerm (good : α → Bool) (xs : List α) : (fronted good xs).Perm xs :=
  List.filter_append_perm good xs

theorem frontedMap (good : β → Bool) (f : α → β) (xs : List α) :
    fronted good (xs.map f) = (fronted (good ∘ f) xs).map f := by
  simp only [fronted, List.filter_map, List.map_append]
  rfl

theorem frontedSteps {k : Nat} {x y : α} (before : (fronted good xs)[k]? = some x)
    (after : (fronted good xs)[k + 1]? = some y) (chosen : good y = true) : good x = true := by
  rcases Nat.lt_or_ge (k + 1) (xs.filter good).length with early | late
  · rw [fronted, List.getElem?_append_left (by omega)] at before
    exact (List.mem_filter.mp (List.mem_of_getElem? before)).2
  · rw [fronted, List.getElem?_append_right late] at after
    have left := (List.mem_filter.mp (List.mem_of_getElem? after)).2
    rw [chosen] at left
    cases left

theorem mapPositions [DecidableEq α] (distinct : xs.Nodup) (lengths : xs.length = ys.length) :
    xs.map (fun x => ys[xs.idxOf x]?.getD x) = ys := by
  refine List.ext_getElem (by rw [List.length_map, lengths]) fun k inside inside' => ?_
  rw [List.getElem_map, distinct.idxOf_getElem, List.getElem?_eq_getElem inside']
  rfl

end Lists

/-- The instance whose place this one takes when the chosen clones come first. -/
def Roster.source (r : Roster) (chosen : InstanceId → Bool) (i : InstanceId) : InstanceId :=
  match r.instances[i.index]? with
  | none => i
  | some x =>
    match x.parent with
    | none => i
    | some p =>
      if p.index < i.index then
        let places := fronted chosen (r.under (some (r.source chosen p)) x.node)
        places[(r.under (some p) x.node).idxOf i]?.getD i
      else i
termination_by i.index

namespace Roster
variable {r : Roster} {chosen : InstanceId → Bool} {i : InstanceId}

theorem sourceTop {s : Spot} (stands : r.Stands none i s) : r.source chosen i = i := by
  obtain ⟨x, stored, top, -, -⟩ := stands
  rw [source, stored]
  simp only [top]

theorem Sound.sourceUnder (sound : r.Sound) {c : NodeId} {j : InstanceId}
    (inside : j ∈ r.under (some i) c) : r.source chosen j =
      (fronted chosen
        (r.under (some (r.source chosen i)) c))[(r.under (some i) c).idxOf j]?.getD j := by
  obtain ⟨x, stored, here⟩ := memThose.mp inside
  simp only [Bool.and_eq_true, beq_iff_eq] at here
  obtain ⟨up, rfl⟩ := here
  have before := sound.parents stored up
  rw [source, stored]
  simp only [up, before, if_true]

end Roster

theorem Tree.Mirrors.unique {m : FeatureModel} {t t' : Tree} (mirrors : Mirrors m t)
    (mirrors' : Mirrors m t') (same : t.id = t'.id) : t = t' := by
  induction t generalizing t' with
  | mk p ts ih =>
    obtain ⟨p', ts'⟩ := t'
    have places : p = p' := by
      have placed := mirrors'.placed
      rw [← same] at placed
      exact Except.ok.inj (mirrors.placed.symm.trans placed)
    subst places
    have ids : ts.map Tree.id = ts'.map Tree.id := mirrors.children.trans mirrors'.children.symm
    have pairs : List.Forall₂ (fun t t' => t.id = t'.id) ts ts' := mapsEqual.mp ids
    have equal : List.Forall₂ (fun t t' => t = t') ts ts' := by
      refine List.forall₂_iff_zip.mpr ⟨pairs.length_eq, fun {t t'} pair => ?_⟩
      obtain ⟨left, right⟩ := List.of_mem_zip pair
      exact ih t left (mirrors.deeper t left) (mirrors'.deeper t' right)
        (List.forall₂_zip pairs pair)
    rw [List.forall₂_eq_eq_eq] at equal
    rw [equal]

namespace Rostered
variable {m : FeatureModel} {trees : List Tree} {r : Roster} {chosen : InstanceId → Bool}
  {n p c : NodeId} {node : Node} {i : InstanceId}

theorem sourceBelow (h : Rostered m trees r) (up : m.IsParent p c) (here : i ∈ r.ofNode p)
    (there : r.source chosen i ∈ r.ofNode p) : (r.under (some i) c).map (r.source chosen) =
      fronted chosen (r.under (some (r.source chosen i)) c) := by
  rw [List.map_congr_left fun j inside => h.sound.sourceUnder inside]
  refine mapPositions (Roster.thoseNodup _) ?_
  rw [(frontedPerm chosen _).length_eq, h.underLength up here, h.underLength up there]

theorem sourceThere (h : Rostered m trees r) (chosen : InstanceId → Bool)
    (found : m.nodes[n.index]? = some node) :
    ∀ i ∈ r.ofNode n, r.source chosen i ∈ r.ofNode n := by
  refine h.wellFormed.downward (motive := fun n => ∀ i ∈ r.ofNode n,
    r.source chosen i ∈ r.ofNode n) ?_ ?_ n node found
  · intro n node found top i inside
    obtain ⟨j, alone, stands⟩ := h.rootAlone ((h.wellFormed.linked.roots n).mpr ⟨node, found, top⟩)
    rw [alone, List.mem_singleton] at inside
    rw [inside, Roster.sourceTop stands, alone]
    exact List.mem_singleton_self j
  · intro c p up ih i inside
    have parts := h.ofNodeBelow up
    obtain ⟨q, above, below⟩ := List.mem_flatMap.mp (parts.mem_iff.mp inside)
    have moved := h.sourceBelow up above (ih q above)
    have listed : r.source chosen i ∈ fronted chosen (r.under (some (r.source chosen q)) c) :=
      moved ▸ List.mem_map.mpr ⟨i, below, rfl⟩
    have under := (frontedPerm chosen _).mem_iff.mp listed
    exact parts.mem_iff.mpr (List.mem_flatMap.mpr ⟨_, ih q above, under⟩)

theorem sourcePerm (h : Rostered m trees r) (chosen : InstanceId → Bool)
    (found : m.nodes[n.index]? = some node) :
    ((r.ofNode n).map (r.source chosen)).Perm (r.ofNode n) := by
  refine h.wellFormed.downward (motive := fun n =>
    ((r.ofNode n).map (r.source chosen)).Perm (r.ofNode n)) ?_ ?_ n node found
  · intro n node found top
    obtain ⟨j, alone, stands⟩ := h.rootAlone ((h.wellFormed.linked.roots n).mpr ⟨node, found, top⟩)
    rw [alone, List.map_singleton, Roster.sourceTop stands]
  · intro c p up ih
    have parts := h.ofNodeBelow up
    obtain ⟨above, stored⟩ := h.wellFormed.parentThere up
    have each : ∀ i ∈ r.ofNode p, (r.under (some i) c).map (r.source chosen) =
        fronted chosen (r.under (some (r.source chosen i)) c) :=
      fun i inside => h.sourceBelow up inside (h.sourceThere chosen stored i inside)
    -- below each instance the sources are those below its own source, in another order
    have moved : ((r.ofNode p).flatMap fun i => (r.under (some i) c).map (r.source chosen)).Perm
        ((r.ofNode p).flatMap fun i => r.under (some (r.source chosen i)) c) := by
      rw [List.flatMap_congr each]
      exact List.Perm.flatMap_left _ fun i _ => frontedPerm chosen _
    have places := ih.flatMap_right fun i => r.under (some i) c
    rw [List.flatMap_map] at places
    rw [← List.map_flatMap] at moved
    exact (parts.map _).trans (moved.trans (places.trans parts.symm))

end Rostered
end ProductLine
