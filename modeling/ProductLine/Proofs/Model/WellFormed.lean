import ProductLine.Proofs.Model.Stores

/-!
Well-formed models: every store is in order and refers to what is there. Every change keeps this,
so it holds of every model built.
-/
namespace ProductLine

structure WellFormed (m : FeatureModel) : Prop where
  declared : Declared m.features m.byName
  linked : Linked m.nodes m.roots
  features : ∀ {i : Nat} {n : Node}, m.nodes[i]? = some n → n.feature.index < m.features.size
  placed : FirstPlaced m.nodes m.placements
  refers : ∀ c ∈ m.constraints, List.Forall₂ (m.Refers c.formula) c.formula.names c.referenced

theorem WellFormed.empty : WellFormed .empty where
  declared := ⟨by simp [FeatureModel.empty], by simp [FeatureModel.empty]⟩
  linked := by constructor <;> simp [FeatureModel.empty]
  features := by simp [FeatureModel.empty]
  placed := fun f n => by simp [FeatureModel.empty, carried]
  refers := by simp [FeatureModel.empty]

namespace FeatureModel

structure NamesKept (m m' : FeatureModel) : Prop where
  names : ∀ (name : String) (f : FeatureId), m.byName.get? name = some f →
    m'.byName.get? name = some f
  types : ∀ (i : Nat) (feature : Feature), m.features[i]? = some feature →
    ∃ feature' : Feature, m'.features[i]? = some feature' ∧ feature'.type = feature.type

theorem Refers.keep {m m' : FeatureModel} {formula : Formula} {name : String} {f : FeatureId}
    (refers : m.Refers formula name f) (kept : m.NamesKept m') : m'.Refers formula name f := by
  obtain ⟨named, feature, stored, allowed⟩ := refers
  obtain ⟨feature', stored', same⟩ := kept.types _ feature stored
  exact ⟨kept.names _ _ named, feature', stored', same ▸ allowed⟩

end FeatureModel

namespace Change
variable {m : FeatureModel}

theorem keepReferred {m' : FeatureModel} (w : WellFormed m) (kept : m.NamesKept m')
    (same : m'.constraints = m.constraints) :
    ∀ c ∈ m'.constraints, List.Forall₂ (m'.Refers c.formula) c.formula.names c.referenced := by
  intro c inside
  exact (w.refers c (same ▸ inside)).imp fun _ _ refers => refers.keep kept

theorem declareWellFormed (w : WellFormed m) {name : String} {type : FeatureType}
    (fresh : m.byName.contains name = false) : WellFormed (m.withFeature name type) where
  declared := w.declared.push fresh
  linked := w.linked
  features := by
    intro i n stored
    have := w.features stored
    simp only [FeatureModel.withFeature, Array.size_push]
    omega
  placed := w.placed
  refers := by
    refine keepReferred w ⟨fun k id named => ?_, fun i feature stored => ?_⟩ rfl
    · have unused : m.byName.get? name = none := by simpa [SortedMap.contains] using fresh
      have apart : k ≠ name := by
        intro same
        rw [same, unused] at named
        contradiction
      simpa [FeatureModel.withFeature, SortedMap.getPut, apart] using named
    · exact ⟨feature, pushEqSome.mpr (.inl stored), rfl⟩

theorem describeWellFormed (w : WellFormed m) {f : Nat} {feature : Feature} {attributes}
    (found : m.features[f]? = some feature) :
    WellFormed { m with features := m.features.setIfInBounds f { feature with attributes } } where
  declared := w.declared.describe found
  linked := w.linked
  features := by
    intro i n stored
    simpa using w.features stored
  placed := w.placed
  refers := by
    refine keepReferred w ⟨fun k id named => named, fun i old stored => ?_⟩ rfl
    by_cases same : i = f
    · subst same
      cases Option.some.inj (found.symm.trans stored)
      exact ⟨_, setEqSome.mpr (.inr ⟨rfl, storedBelow found, rfl⟩), rfl⟩
    · exact ⟨old, setEqSome.mpr (.inl ⟨same, stored⟩), rfl⟩

theorem addRootWellFormed (w : WellFormed m) {f : FeatureId}
    (declared : f.index < m.features.size) :
    WellFormed { m.withNode f none with roots := m.roots ++ [⟨m.nodes.size⟩] } where
  declared := w.declared
  linked := w.linked.grow (by simp) FeatureModel.rootGrown
  features := by
    intro i n stored
    rcases pushEqSome.mp stored with old | ⟨-, rfl⟩
    · exact w.features old
    · exact declared
  placed := by
    refine w.placed.grow fun i => ?_
    simp only [FeatureModel.withNode, carried, Array.getElem?_push]
    split <;> rfl
  refers := w.refers

theorem addChildWellFormed (w : WellFormed m) {f : FeatureId} {p : NodeId} {above : Node}
    (declared : f.index < m.features.size) (found : m.nodes[p.index]? = some above) :
    WellFormed ((m.withNode f (some p)).setNode p
      { above with children := above.children ++ [⟨m.nodes.size⟩] }) where
  declared := w.declared
  linked := w.linked.grow (by simp [storedBelow found]) (w.linked.childGrown found)
  features := by
    intro i n stored
    rcases setEqSome.mp stored with ⟨-, stored⟩ | ⟨-, -, rfl⟩
    · rcases pushEqSome.mp stored with old | ⟨-, rfl⟩
      · exact w.features old
      · exact declared
    · exact (w.features found :)
  placed := by
    refine w.placed.grow fun i => ?_
    have inside := storedBelow found
    simp only [FeatureModel.setNode, FeatureModel.withNode, carried, Array.getElem?_setIfInBounds,
      Array.getElem?_push, Array.size_push]
    grind [Node.fresh]
  refers := w.refers

theorem adjustWellFormed (w : WellFormed m) {n : NodeId} {old new : Node}
    (found : m.nodes[n.index]? = some old) (adjusts : m.Adjusts old new) :
    WellFormed (m.setNode n new) where
  declared := w.declared
  linked := w.linked.adjust found adjusts
  features := by
    intro i n stored
    rcases setEqSome.mp stored with ⟨-, stored⟩ | ⟨-, -, rfl⟩
    · exact w.features stored
    · exact adjusts.feature ▸ w.features found
  placed := by
    refine w.placed.keep fun i => ?_
    simp only [FeatureModel.setNode, carried, Array.getElem?_setIfInBounds]
    have := adjusts.feature
    grind
  refers := w.refers

theorem constrainWellFormed (w : WellFormed m) {formula referenced}
    (refers : List.Forall₂ (m.Refers formula) formula.names referenced) :
    WellFormed { m with constraints := m.constraints.push ⟨formula, referenced⟩ } where
  declared := w.declared
  linked := w.linked
  features := w.features
  placed := w.placed
  refers := by
    intro c inside
    rcases Array.mem_push.mp inside with old | rfl
    · exact w.refers c old
    · exact refers

theorem wellFormed {m' : FeatureModel} (w : WellFormed m) (change : Change m m') :
    WellFormed m' := by
  cases change with
  | declare fresh => exact declareWellFormed w fresh
  | describe found => exact describeWellFormed w found
  | addRoot declared => exact addRootWellFormed w declared
  | addChild declared found => exact addChildWellFormed w declared found
  | adjust found adjusts => exact adjustWellFormed w found adjusts
  | constrain refers => exact constrainWellFormed w refers

end Change

theorem WellFormed.referencedKnown {m : FeatureModel} {k : Constraint} {f : FeatureId}
    (w : WellFormed m) (declared : k ∈ m.constraints) (referenced : f ∈ k.referenced) :
    ∃ feature, m.feature f = .ok feature := by
  obtain ⟨name, -, -, feature, stored, -⟩ := forall₂Right (w.refers k declared) referenced
  exact ⟨feature, fetchEqOk.mpr stored⟩

theorem Built.wellFormed {m : FeatureModel} (built : Built m) : WellFormed m :=
  built.invariant .empty Change.wellFormed

end ProductLine
