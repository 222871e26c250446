import ProductLine.Proofs.Copy.Values

/-!
When copies can be made. All fail only for values asked for: a copy for a clone of a feature's own
context has the value, one for the model as a whole does not have that of a shared feature.
-/
namespace ProductLine

section Occasions
variable {m : FeatureModel} {trees : List Tree} {r : Roster} {policy : MissingPolicy}
  {k : Constraint} {c : NodeId} {clone : InstanceId} {bad : Failure → Prop}

theorem guardedAvoids (h : Rostered m trees r) (once : m.PlacedOnce) (apart : m.NamesApart)
    (sorted : ∀ f ∈ k.referenced, m.HasSort f) (repeated : m.repeats c = true)
    (instant : clone ∈ r.ofNode c)
    (settled : ∀ f ∈ k.referenced, ∀ o, m.context f = .ok (.within o) → o = c ∨
      ¬ m.Compares k f ∨ ∀ feature context,
        ¬ bad (.rejected (.ambiguousFeatureValue feature context))) :
    Avoids bad ((CopySource.mk m r policy).guarded c clone k) := by
  obtain ⟨x, stored, -⟩ := h.sound.memOfNode.mp instant
  have fetched : r.get clone = .ok x := fetchEqOk.mpr stored
  refine avoidsBind (fetched ▸ avoidsOk x) fun guard _ => avoidsBind ?_ fun _ _ => avoidsOk _
  refine (h.sightFrom once apart c clone).copyAvoids sorted
    (fun f _ => h.seenFromAnswers once repeated instant f) fun f inside p place => ?_
  obtain ⟨n, placed, -⟩ := placeOfSome.mp place
  obtain ⟨own, answered, -⟩ := h.wellFormed.contextOk f
  cases own with
  | root =>
    rw [h.seenFromOutside repeated answered]
    exact .inl (h.ofFeatureAlone once placed answered)
  | within o =>
    rcases settled f inside o answered with rfl | unasked | good
    · exact .inl (h.seenFromAlone once instant answered)
    · exact .inr (.inl ⟨⟨o, answered⟩, unasked⟩)
    · exact .inr (.inr fun context => good _ context)

theorem unguardedAvoids (h : Rostered m trees r) (once : m.PlacedOnce) (apart : m.NamesApart)
    (sorted : ∀ f ∈ k.referenced, m.HasSort f)
    (settled : ∀ f ∈ k.referenced, ∀ o, m.context f = .ok (.within o) →
      ¬ m.Compares k f ∨ ∀ feature context,
        ¬ bad (.rejected (.ambiguousFeatureValue feature context))) :
    Avoids bad ((CopySource.mk m r policy).unguarded k) := by
  refine (h.sightWhole once apart).copyAvoids sorted (fun f _ => h.everywhereAnswers once f)
    fun f inside p place => ?_
  obtain ⟨n, placed, -⟩ := placeOfSome.mp place
  obtain ⟨own, answered, -⟩ := h.wellFormed.contextOk f
  cases own with
  | root => exact .inl (h.ofFeatureAlone once placed answered)
  | within o =>
    rcases settled f inside o answered with unasked | good
    · exact .inr (.inl ⟨⟨o, answered⟩, unasked⟩)
    · exact .inr (.inr fun context => good _ context)

/-- No constraint that reaches across contexts asks for the value of a shared feature. -/
def FeatureModel.AsksOne (m : FeatureModel) : Prop :=
  ∀ k ∈ m.constraints, ∀ s, m.contexts k = .ok s → s.scope = .across →
    ∀ f c, m.context f = .ok (.within c) → ¬ m.Compares k f

theorem WellFormed.insideOwn (w : WellFormed m) {s : ContextSet} (answered : m.contexts k = .ok s)
    (inside : s.scope = .inside c) {f : FeatureId} (referenced : f ∈ k.referenced) :
    m.context f = .ok (.within c) := by
  obtain ⟨s', answered', exact⟩ := w.contextsOk k
  cases answered.symm.trans answered'
  obtain ⟨own, context, -⟩ := w.contextOk f
  have member : own ∈ s.toList := (exact own).mpr ⟨f, referenced, context⟩
  rw [ContextSet.scopeInside inside, List.mem_singleton] at member
  exact member ▸ context

theorem copyForAvoids (h : Rostered m trees r) (once : m.PlacedOnce) (apart : m.NamesApart)
    (sorted : ∀ k ∈ m.constraints, ∀ f ∈ k.referenced, m.HasSort f)
    (settled : m.AsksOne ∨ ∀ feature context,
      ¬ bad (.rejected (.ambiguousFeatureValue feature context))) {o : Occasion}
    (due : o.Due m r) : Avoids bad ((CopySource.mk m r policy).copyFor o) := by
  cases o with
  | perClone i c clone =>
    obtain ⟨k, s, there, answered, node, repeated, instant⟩ := h.cloneDue due
    have declared := Array.mem_of_getElem? there
    rw [CopySource.copyForClone (fetchEqOk.mpr there)]
    refine guardedAvoids h once apart (sorted k declared) repeated instant
      fun f referenced o own => ?_
    cases scope : s.scope with
    | plain => exact absurd scope (ContextSet.scopeOfNode node)
    | inside n =>
      rw [← SortedSet.memToList, ContextSet.scopeInside scope, List.mem_singleton] at node
      cases node
      cases own.symm.trans (h.wellFormed.insideOwn answered scope referenced)
      exact .inl rfl
    | across => exact .inr (settled.imp_left fun one => one k declared s answered scope f o own)
  | whole i =>
    obtain ⟨k, s, there, answered, across⟩ := due
    have declared := Array.mem_of_getElem? there
    rw [CopySource.copyForWhole (fetchEqOk.mpr there)]
    refine unguardedAvoids h once apart (sorted k declared) fun f _ o own => ?_
    exact settled.imp_left fun one => one k declared s answered across f o own

theorem copiesExist (h : Rostered m trees r) (once : m.PlacedOnce) (apart : m.NamesApart)
    (sorted : ∀ k ∈ m.constraints, ∀ f ∈ k.referenced, m.HasSort f) {b : Buckets}
    (buckets : m.buckets = .ok b) :
    (∃ out, (CopySource.mk m r policy).copies b = .ok out) ↔ m.AsksOne := by
  constructor
  · intro done k declared s answered across f c own compares
    obtain ⟨out, done⟩ := done
    obtain ⟨i, there⟩ := Array.mem_iff_getElem?.mp declared
    obtain ⟨copied, -, made⟩ := CopySource.copiesDue h buckets done
      (o := .whole i) ⟨k, s, there, answered, across⟩
    rw [CopySource.copyForWhole (fetchEqOk.mpr there)] at made
    exact (h.sightWhole once apart).copyRefused (h.wellFormed.refers k declared)
      (fun f _ => h.everywhereAnswers once f) own (h.ofFeatureSeveral once own) compares copied made
  · intro one
    exact avoidsAll.mp (CopySource.copiesAvoids h buckets fun o due =>
      copyForAvoids h once apart sorted (.inl one) due)

end Occasions
end ProductLine
