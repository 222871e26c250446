import ProductLine.Proofs.Compilation.Success
import ProductLine.Proofs.Encoding.Leaves

/-!
Where repetition has no subtree to copy and no constraint to copy either, both encodings compile a
model to the same result.
-/
namespace ProductLine

section Rooted
variable {m : FeatureModel} {b : Buckets} {k : Constraint}

theorem WellFormed.rootedBuckets (w : WellFormed m)
    (rooted : ∀ k ∈ m.constraints, ∀ f ∈ k.referenced, m.context f = .ok .root)
    (buckets : m.buckets = .ok b) : b.byContexts.entries = [] ∧
      b.plain.mapM (fun i => Constraint.formula <$> m.constraint i) =
        .ok (m.constraints.toList.map Constraint.formula) := by
  obtain ⟨all, each, sorted⟩ := w.bucketsOk
  cases buckets.symm.trans sorted
  have plain : ∀ s ∈ all, s.scope = .plain := by
    intro s inside
    rw [mapMEqOk] at each
    obtain ⟨k, declared, answered⟩ := forall₂Right each inside
    exact (w.contextsPlain answered).mpr (rooted k (Array.mem_toList_iff.mp declared))
  constructor
  · refine List.eq_nil_iff_forall_not_mem.mpr fun entry listed => ?_
    obtain ⟨concerned, inside, -⟩ := Buckets.memBuckets.mp listed
    exact concerned (plain _ inside)
  · have every : all.zipIdx.filter (fun e => e.1.scope = .plain) = all.zipIdx := by
      refine List.filter_eq_self.mpr fun e inside => ?_
      exact decide_eq_true (plain _ (List.fst_mem_of_mem_zipIdx inside))
    have length : all.length = m.constraints.size := by
      rw [mapMEqOk] at each
      simpa using each.length_eq.symm
    rw [Buckets.plainOf, every, List.zipIdx_map_snd, mapMEqOk, List.forall₂_map_right_iff]
    refine List.forall₂_iff_get.mpr ⟨by simp [length], fun i short inside => ?_⟩
    exact mapEqOk.mpr ⟨_, fetchEqOk.mpr (by simp), rfl⟩

theorem restateNone (k : Constraint) : Merging.restate [] k = .ok k.formula := by
  have same : k.formula.substitute (Formula.firstReplacement []) = k.formula :=
    Formula.substituteStays fun g _ => rfl
  unfold Merging.restate
  rw [List.map_nil, same]
  rfl

theorem singleNodes (single : m.hasRepeatedNode = false) {node : Node} (inside : node ∈ m.nodes) :
    ¬ node.isRepeated = true := by
  have none := Array.any_eq_false'.mp single
  exact none node inside

theorem singleRooted (w : WellFormed m) (single : m.hasRepeatedNode = false) (f : FeatureId) :
    m.context f = .ok .root := by
  obtain ⟨own, answered, repeats, -⟩ := w.contextOk f
  cases own with
  | root => exact answered
  | within c =>
    obtain ⟨node, found, many⟩ := (Option.any_eq_true _ _).mp (repeats c rfl)
    exact absurd many (singleNodes single (Array.mem_of_getElem? found))

end Rooted

section Agreement
variable {m : FeatureModel}

theorem restatedVerbatim (free : m.constraints = #[] ∨ m.hasRepeatedNode = false)
    {places : List Placed} (placed : ∀ p ∈ places, p.node ∈ m.nodes) :
    m.constraints.toList.mapM (Merging.restate (places.filter fun p => p.node.isRepeated)) =
      .ok (m.constraints.toList.map Constraint.formula) := by
  rcases free with bare | single
  · rw [bare]
    rfl
  · have none : places.filter (fun p => p.node.isRepeated) = [] :=
      List.filter_eq_nil_iff.mpr fun p inside => singleNodes single (placed p inside)
    rw [none, mapMEqOk, List.forall₂_map_right_iff]
    exact List.forall₂_same.mpr fun k _ => restateNone k

theorem fullEqSimple (w : WellFormed m) (leaves : m.RepeatsLeaves)
    (free : m.constraints = #[] ∨ m.hasRepeatedNode = false) (policy : MissingPolicy) :
    m.compileFull policy = m.compileSimple := by
  obtain ⟨b, buckets⟩ : ∃ b, m.buckets = .ok b := by
    obtain ⟨all, -, sorted⟩ := w.bucketsOk
    exact ⟨_, sorted⟩
  have rooted : ∀ k ∈ m.constraints, ∀ f ∈ k.referenced, m.context f = .ok .root := by
    rcases free with bare | single
    · simp [bare]
    · exact fun _ _ f _ => singleRooted w single f
  obtain ⟨bare, plain⟩ := w.rootedBuckets rooted buckets
  cases grown : m.forest with
  | error e =>
    unfold FeatureModel.compileFull FeatureModel.compileSimple FeatureModel.unroll
      FeatureModel.merge
    rw [grown]
    rfl
  | ok trees =>
    obtain ⟨tops, mirrors⟩ := w.forestMirrors grown
    have h : Rostered m trees (Unrolling.ofForest trees).roster := ⟨w, tops, mirrors, rfl⟩
    have placed : ∀ p ∈ trees.flatMap Tree.places, p.node ∈ m.nodes := by
      intro p inside
      obtain ⟨n, found⟩ := (memPlaced w tops mirrors).mp inside
      exact Array.mem_of_getElem? (FeatureModel.placedNode found)
    have copies : (CopySource.mk m (Unrolling.ofForest trees).roster policy).copies b = .ok [] := by
      rw [CopySource.copies, bare]
      rfl
    have full : m.compileFull policy = .ok (.ofConjuncts (Unrolling.ofForest trees).symbols
        ((Unrolling.ofForest trees).conjuncts ++
          m.constraints.toList.map Constraint.formula ++ [])) :=
      bindEqOk.mpr ⟨_, mapEqOk.mpr ⟨trees, grown, rfl⟩, bindEqOk.mpr ⟨b, buckets,
        bindEqOk.mpr ⟨_, plain, bindEqOk.mpr ⟨_, copies, rfl⟩⟩⟩⟩
    have simple : m.compileSimple = .ok _ := bindEqOk.mpr ⟨_, bindEqOk.mpr ⟨trees, grown,
      bindEqOk.mpr ⟨_, restatedVerbatim free placed, rfl⟩⟩, rfl⟩
    rw [full, simple, List.append_nil, h.leafConjuncts leaves, h.leafSymbols leaves]

/-- If nothing is below a repeated node, and there are no constraints or no repeated nodes, both
encodings give the same conjuncts and variables, or fail alike. -/
theorem encodingsAgree (built : Built m) (leaves : m.RepeatsLeaves)
    (free : m.constraints = #[] ∨ m.hasRepeatedNode = false) (policy policy' : MissingPolicy) :
    m.compile ⟨.full, policy⟩ = m.compile ⟨.simple, policy'⟩ := by
  unfold FeatureModel.compile
  rw [fullEqSimple built.wellFormed leaves free policy]

end Agreement

namespace Example

def dockCalls : List Call :=
  [.addRootFeature "Server", .makeMandatory ⟨0⟩, .addChildFeature ⟨0⟩ "Slot",
    .setCardinality ⟨1⟩ 1 2, .addChildFeature ⟨0⟩ "Panel", .declare "Port" .boolean,
    .addChild ⟨0⟩ ⟨3⟩, .addChild ⟨2⟩ ⟨3⟩, .setCardinality ⟨3⟩ 0 3, .setCardinality ⟨4⟩ 0 3,
    .setGroupKind ⟨0⟩ .or]

def dock : FeatureModel := (Call.makeAll dockCalls .empty).getD .empty

theorem dockBuilt : Built dock := by
  have made : Call.makeAll dockCalls .empty = some dock := rfl
  exact Built.empty.makeAll made

theorem dockAgrees : Built dock ∧ dock.RepeatsLeaves ∧ dock.constraints = #[] ∧
    dock.compile ⟨.full, .fail⟩ = dock.compile ⟨.simple, .keepFeature⟩ ∧
      ∃ out, dock.compile ⟨.full, .fail⟩ = .ok out := by
  have leaves : dock.RepeatsLeaves := by decide
  have bare : dock.constraints = #[] := rfl
  have some : (dock.compile ⟨.full, .fail⟩).toOption.isSome = true := by decide +kernel
  obtain ⟨out, compiled⟩ := Option.isSome_iff_exists.mp some
  exact ⟨dockBuilt, leaves, bare, encodingsAgree dockBuilt leaves (.inl bare) .fail .keepFeature,
    out, toOptionEqSome.mp compiled⟩

end Example
end ProductLine
