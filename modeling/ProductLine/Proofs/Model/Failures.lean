import ProductLine.Proofs.Model.Changes

/-!
What a call that fails leaves behind: the model as it was. Only a child placed below a node that is
not there stays in the store, outside of every list of children.
-/
namespace ProductLine

namespace Build
variable {α β : Type} {m m' : FeatureModel} {failure : Failure}

theorem applyBindError {x : Build α} {next : α → Build β} :
    (x >>= next).apply m = (.error failure, m') ↔ x.apply m = (.error failure, m') ∨
      ∃ a middle, x.apply m = (.ok a, middle) ∧ (next a).apply middle = (.error failure, m') := by
  simp only [apply, EStateM.run, bind, EStateM.bind]
  cases x m <;> simp

def Looks (call : Build α) : Prop := ∀ m, (call.apply m).2 = m

def Sure (call : Build α) : Prop := ∀ m failure m', call.apply m ≠ (.error failure, m')

def Undone (call : Build α) : Prop := ∀ m failure m', call.apply m = (.error failure, m') → m' = m

theorem looksGet : Looks get := fun _ => rfl

theorem looksPure (a : α) : Looks (pure a : Build α) := fun _ => rfl

theorem looksThrow (f : Failure) : Looks (throw f : Build α) := fun _ => rfl

theorem looksOfExcept (x : Except Failure α) : Looks (ofExcept x : Build α) := by
  cases x with
  | ok a => exact fun _ => rfl
  | error f => exact fun _ => rfl

theorem looksBind {x : Build α} {next : α → Build β} (first : Looks x)
    (rest : ∀ a, Looks (next a)) : Looks (x >>= next) := by
  intro m
  have kept := first m
  simp only [apply, EStateM.run, bind, EStateM.bind] at kept ⊢
  cases done : x m with
  | ok a middle =>
    rw [done] at kept
    exact (rest a middle).trans kept
  | error f middle =>
    rw [done] at kept
    exact kept

theorem surePure (a : α) : Sure (pure a : Build α) := by
  intro m failure m'
  change (Except.ok a, m) ≠ (.error failure, m')
  simp

theorem sureSet (m₀ : FeatureModel) : Sure (set m₀ : Build PUnit) := by
  intro m failure m'
  change (Except.ok PUnit.unit, m₀) ≠ (.error failure, m')
  simp

theorem sureModify (g : FeatureModel → FeatureModel) : Sure (modify g : Build PUnit) := by
  intro m failure m'
  change (Except.ok PUnit.unit, g m) ≠ (.error failure, m')
  simp

theorem surePlace (f : FeatureId) (parent : Option NodeId) : Sure (place f parent) := by
  intro m failure m'
  rw [placeApply]
  simp

theorem sureBind {x : Build α} {next : α → Build β} (first : Sure x) (rest : ∀ a, Sure (next a)) :
    Sure (x >>= next) := by
  intro m failure m' failed
  rcases applyBindError.mp failed with failed | ⟨a, middle, -, failed⟩
  · exact first _ _ _ failed
  · exact rest a _ _ _ failed

theorem Sure.undone {call : Build α} (sure : Sure call) : Undone call :=
  fun _ _ _ failed => absurd failed (sure _ _ _)

theorem undoneAfter {x : Build α} {next : α → Build β} (looks : Looks x)
    (rest : ∀ a, Undone (next a)) : Undone (x >>= next) := by
  intro m failure m' failed
  have kept := looks m
  rcases applyBindError.mp failed with failed | ⟨a, middle, done, failed⟩
  · rw [failed] at kept
    exact kept
  · rw [done] at kept
    exact (rest a _ _ _ failed).trans kept

theorem undoneBefore {x : Build α} {next : α → Build β} (first : Undone x)
    (sure : ∀ a, Sure (next a)) : Undone (x >>= next) := by
  intro m failure m' failed
  rcases applyBindError.mp failed with failed | ⟨a, middle, -, failed⟩
  · exact first _ _ _ failed
  · exact absurd failed (sure a _ _ _)

theorem declareUndone (name : String) (type : FeatureType) : Undone (declare name type) := by
  have rest (m : FeatureModel) (id : FeatureId) : Undone (do set m; return id) :=
    undoneBefore (sureSet m).undone fun _ => surePure id
  refine undoneAfter looksGet fun m => ?_
  split
  · exact undoneAfter (looksThrow _) fun _ => rest _ _
  · exact rest _ _

theorem setAttributeUndone (f : FeatureId) (name : String) (value : AttributeValue) :
    Undone (setAttribute f name value) :=
  undoneAfter looksGet fun _ => undoneAfter (looksOfExcept _) fun _ => (sureSet _).undone

theorem changeNodeUndone (n : NodeId) (change : Node → Node) : Undone (changeNode n change) :=
  undoneAfter looksGet fun _ => undoneAfter (looksOfExcept _) fun _ => (sureSet _).undone

theorem sureAddRoot (f : FeatureId) : Sure (addRoot f) :=
  sureBind (surePlace f none) fun _ => sureBind (sureModify _) fun _ => surePure _

theorem setCardinalityUndone (n : NodeId) (lower upper : UInt32) :
    Undone (setCardinality n lower upper) :=
  undoneAfter (looksOfExcept _) fun _ => changeNodeUndone n _

theorem looksNodeWithGroup (n : NodeId) (group : GroupId) : Looks (nodeWithGroup n group) := by
  refine looksBind looksGet fun _ => looksBind (looksOfExcept _) fun node => ?_
  split
  · exact looksBind (looksThrow _) fun _ => looksPure node
  · exact looksPure node

theorem setKindOfGroupUndone (n : NodeId) (group : GroupId) (kind : GroupKind) :
    Undone (setKindOfGroup n group kind) :=
  undoneAfter (looksNodeWithGroup n group) fun _ => changeNodeUndone n _

theorem addGroupUndone (n : NodeId) (kind : GroupKind) : Undone (addGroup n kind) :=
  undoneAfter looksGet fun _ => undoneAfter (looksOfExcept _) fun _ =>
    undoneBefore (changeNodeUndone n _) fun _ => surePure _

theorem setParentGroupUndone (child : NodeId) (group : GroupId) :
    Undone (setParentGroup child group) := by
  refine undoneAfter looksGet fun _ => undoneAfter (looksOfExcept _) fun node => ?_
  split
  · intro m failure m' failed
    exact congrArg Prod.snd failed.symm
  · exact undoneAfter (looksNodeWithGroup _ group) fun _ => changeNodeUndone child _

theorem addConstraintError {formula} : (addConstraint formula).apply m = (.error failure, m') ↔
    formula.names.mapM (m.resolve formula) = .error failure ∧ m' = m := by
  rw [addConstraintApply]
  cases formula.names.mapM (m.resolve formula) with
  | ok referenced => simp
  | error failure => simp [eq_comm]

theorem addConstraintUndone (formula : Formula) : Undone (addConstraint formula) :=
  fun _ _ _ failed => (addConstraintError.mp failed).2

theorem changeNodeMissing {n : NodeId} {change : Node → Node}
    (failed : (changeNode n change).apply m = (.error failure, m')) : m.nodes[n.index]? = none := by
  cases found : m.nodes[n.index]? with
  | none => rfl
  | some node =>
    have done : (changeNode n change).apply m = (.ok (), m.setNode n (change node)) :=
      changeNodeOk.mpr ⟨node, found, rfl⟩
    rw [done] at failed
    cases failed

theorem addChildFails {p : NodeId} {f : FeatureId}
    (failed : (addChild p f).apply m = (.error failure, m')) :
    m.nodes.size < p.index ∧ m' = m.withNode f (some p) := by
  unfold addChild at failed
  rcases applyBindError.mp failed with early | ⟨id, middle, placed, failed⟩
  · exact absurd early (surePlace _ _ _ _ _)
  · rw [placeApply] at placed
    cases placed
    rcases applyBindError.mp failed with failed | ⟨_, _, -, late⟩
    · have missing := changeNodeMissing failed
      simp only [FeatureModel.withNode, Array.getElem?_eq_none_iff, Array.size_push] at missing
      exact ⟨missing, changeNodeUndone _ _ _ _ _ failed⟩
    · exact absurd late (surePure _ _ _ _)

theorem addChildFeatureFails {p : NodeId} {name : String}
    (failed : (addChildFeature p name).apply m = (.error failure, m')) :
    m.byName.contains name = true ∧ m' = m ∨ m.byName.contains name = false ∧
      m.nodes.size < p.index ∧
      m' = (m.withFeature name .boolean).withNode ⟨m.features.size⟩ (some p) := by
  rcases applyBindError.mp failed with failed | ⟨f, middle, declared, failed⟩
  · have taken : m.byName.contains name = true := by
      by_contra fresh
      have done : (declare name .boolean).apply m = (.ok ⟨m.features.size⟩, _) :=
        declareOk.mpr ⟨Bool.eq_false_iff.mpr fresh, rfl, rfl⟩
      cases done.symm.trans failed
    exact .inl ⟨taken, declareUndone _ _ _ _ _ failed⟩
  · obtain ⟨fresh, rfl, rfl⟩ := declareOk.mp declared
    exact .inr ⟨fresh, addChildFails failed⟩

end Build

namespace Call
variable {m m' : FeatureModel} {c : Call} {failure : Failure}

theorem undone (elsewhere : c.parent? = none) : Build.Undone c.perform := by
  cases c with
  | declare name type =>
    exact Build.undoneBefore (Build.declareUndone name type) fun _ => Build.surePure _
  | setAttribute f name value =>
    exact Build.undoneBefore (Build.setAttributeUndone f name value) fun _ => Build.surePure _
  | addRoot f => exact Build.undoneBefore (Build.sureAddRoot f).undone fun _ => Build.surePure _
  | addRootFeature name =>
    refine Build.undoneBefore ?_ fun _ => Build.surePure _
    exact Build.undoneBefore (Build.declareUndone name .boolean) fun f => Build.sureAddRoot f
  | setCardinality n lower upper =>
    exact Build.undoneBefore (Build.setCardinalityUndone n lower upper) fun _ => Build.surePure _
  | makeMandatory n | makeOptional n =>
    exact Build.undoneBefore (Build.changeNodeUndone n _) fun _ => Build.surePure _
  | setGroupKind n kind =>
    exact Build.undoneBefore (Build.setKindOfGroupUndone n .first kind) fun _ => Build.surePure _
  | setKindOfGroup n group kind =>
    exact Build.undoneBefore (Build.setKindOfGroupUndone n group kind) fun _ => Build.surePure _
  | addGroup n kind =>
    exact Build.undoneBefore (Build.addGroupUndone n kind) fun _ => Build.surePure _
  | setParentGroup child group =>
    exact Build.undoneBefore (Build.setParentGroupUndone child group) fun _ => Build.surePure _
  | addConstraint formula =>
    exact Build.undoneBefore (Build.addConstraintUndone formula) fun _ => Build.surePure _
  | addChild p f | addChildFeature p name => cases elsewhere

inductive Residue (m : FeatureModel) : Call → FeatureModel → Prop
  | nothing {c : Call} : Residue m c m
  | child {p f} (missing : m.nodes.size < p.index) :
      Residue m (.addChild p f) (m.withNode f (some p))
  | childFeature {p name} (fresh : m.byName.contains name = false)
      (missing : m.nodes.size < p.index) : Residue m (.addChildFeature p name)
        ((m.withFeature name .boolean).withNode ⟨m.features.size⟩ (some p))

theorem failed (failed : c.perform.apply m = (.error failure, m')) : Residue m c m' := by
  cases placing : c.parent? with
  | none => exact undone placing _ _ _ failed ▸ .nothing
  | some p =>
    cases c with
    | addChild p f =>
      rcases Build.applyBindError.mp failed with failed | ⟨_, _, -, late⟩
      · obtain ⟨missing, rfl⟩ := Build.addChildFails failed
        exact .child missing
      · exact absurd late (Build.surePure _ _ _ _)
    | addChildFeature p name =>
      rcases Build.applyBindError.mp failed with failed | ⟨_, _, -, late⟩
      · rcases Build.addChildFeatureFails failed with ⟨-, rfl⟩ | ⟨fresh, missing, rfl⟩
        · exact .nothing
        · exact .childFeature fresh missing
      · exact absurd late (Build.surePure _ _ _ _)
    | _ => cases placing

/-- The call names a parent that would still be missing if the call had made its node. -/
def Strays (m : FeatureModel) : Call → Prop
  | addChild p _ => m.nodes.size < p.index
  | addChildFeature p name => m.featureByName name = none ∧ m.nodes.size < p.index
  | _ => False

end Call

namespace FeatureModel

/-- `m'` has one more node, in last place: optional, with one group and no children, below a parent
that knows nothing of it. It is the placement of its feature if the feature had none. -/
structure LeftBehind (m : FeatureModel) (f : FeatureId) (p : NodeId) (m' : FeatureModel) :
    Prop where
  nodes : m'.nodes = m.nodes.push
    { id := ⟨m.nodes.size⟩, feature := f, parent := some p, children := [], groups := #[.and],
      parentGroup := .first, cardinality := { lower := 0, upper := 1 }, mandatory := false }
  placements : ∀ g, m'.placement g =
    if g = f ∧ m.placement f = none then some ⟨m.nodes.size⟩ else m.placement g
  roots : m'.roots = m.roots
  constraints : m'.constraints = m.constraints

theorem withNodeLeft (m : FeatureModel) (f : FeatureId) (p : NodeId) :
    m.LeftBehind f p (m.withNode f (some p)) where
  nodes := rfl
  placements := by
    intro g
    have read : (m.withNode f (some p)).placement g =
        if g = f then some ((m.placement f).getD ⟨m.nodes.size⟩) else m.placement g :=
      SortedMap.getUpdate ..
    rw [read]
    by_cases same : g = f
    · subst same
      cases m.placement g <;> simp
    · simp [same]
  roots := rfl
  constraints := rfl

theorem withFeatureNamed (m : FeatureModel) (name : String) (type : FeatureType) (k : String) :
    (m.withFeature name type).featureByName k =
      if k = name then some ⟨m.features.size⟩ else m.featureByName k :=
  SortedMap.getPut ..

end FeatureModel

namespace Call
variable {m m' : FeatureModel} {c : Call} {failure : Failure}

theorem unnamed {name : String} :
    m.byName.contains name = false ↔ m.featureByName name = none := by
  simp [SortedMap.contains, FeatureModel.featureByName]

theorem strayFails (strays : c.Strays m) :
    ∃ failure m', c.perform.apply m = (.error failure, m') := by
  have missing : ∀ {m : FeatureModel} {p f n m'}, m.nodes.size < p.index →
      (Build.addChild p f).apply m ≠ (.ok n, m') := by
    intro m p f n m' missing done
    obtain ⟨above, found, -⟩ := Build.addChildOk.mp done
    have inside := (Array.getElem?_eq_some_iff.mp found).1
    simp only [FeatureModel.withNode, Array.size_push] at inside
    omega
  cases result : c.perform.apply m with
  | mk answer m' =>
    cases answer with
    | error failure => exact ⟨failure, m', rfl⟩
    | ok answer =>
      cases c with
      | addChild p f =>
        obtain ⟨n, done, -⟩ := Build.applyReturnOk.mp result
        exact absurd done (missing strays)
      | addChildFeature p name =>
        obtain ⟨n, done, -⟩ := Build.applyReturnOk.mp result
        obtain ⟨f, middle, declared, placed⟩ := Build.applyBindOk.mp done
        obtain ⟨-, -, rfl⟩ := Build.declareOk.mp declared
        exact absurd placed (missing (m := m.withFeature name .boolean) strays.2)
      | _ => exact strays.elim

theorem strayChild {p : NodeId} {f : FeatureId}
    (failed : (addChild p f).perform.apply m = (.error failure, m')) :
    m.LeftBehind f p m' ∧ m'.features = m.features ∧ m'.byName = m.byName := by
  rcases Build.applyBindError.mp failed with failed | ⟨_, _, -, late⟩
  · obtain ⟨-, rfl⟩ := Build.addChildFails failed
    exact ⟨m.withNodeLeft f p, rfl, rfl⟩
  · exact absurd late (Build.surePure _ _ _ _)

theorem strayFeature {p : NodeId} {name : String} (strays : (addChildFeature p name).Strays m)
    (failed : (addChildFeature p name).perform.apply m = (.error failure, m')) :
    m.LeftBehind ⟨m.features.size⟩ p m' ∧
      m'.features = m.features.push ⟨⟨m.features.size⟩, name, .boolean, .empty⟩ ∧
      ∀ k, m'.featureByName k = if k = name then some ⟨m.features.size⟩ else m.featureByName k := by
  rcases Build.applyBindError.mp failed with failed | ⟨_, _, -, late⟩
  · rcases Build.addChildFeatureFails failed with ⟨taken, -⟩ | ⟨-, -, rfl⟩
    · cases taken.symm.trans (unnamed.mpr strays.1)
    · have left := (m.withFeature name .boolean).withNodeLeft ⟨m.features.size⟩ p
      exact ⟨⟨left.nodes, left.placements, left.roots, left.constraints⟩, rfl,
        m.withFeatureNamed name .boolean⟩
  · exact absurd late (Build.surePure _ _ _ _)

/-- Whatever earlier calls made of the model, failed ones included: a call that fails leaves it as
it was, unless the call places a child below a node that is neither there nor the child itself. Such
a call always fails, and the child stays. -/
theorem failuresLeave (m : FeatureModel) (c : Call) :
    (c.Strays m → ∃ failure m', c.perform.apply m = (.error failure, m')) ∧
    ∀ failure m', c.perform.apply m = (.error failure, m') →
      (¬ c.Strays m → m' = m) ∧
      (c.Strays m →
        (∀ p f, c = addChild p f →
          m.LeftBehind f p m' ∧ m'.features = m.features ∧ m'.byName = m.byName) ∧
        ∀ p name, c = addChildFeature p name →
          m.LeftBehind ⟨m.features.size⟩ p m' ∧
          m'.features = m.features.push ⟨⟨m.features.size⟩, name, .boolean, .empty⟩ ∧
          ∀ k, m'.featureByName k =
            if k = name then some ⟨m.features.size⟩ else m.featureByName k) := by
  refine ⟨strayFails, fun failure m' failed => ⟨fun orderly => ?_, fun strays => ⟨?_, ?_⟩⟩⟩
  · cases Call.failed failed with
    | nothing => rfl
    | child missing => exact absurd missing orderly
    | childFeature fresh missing => exact absurd ⟨unnamed.mp fresh, missing⟩ orderly
  · rintro p f rfl
    exact strayChild failed
  · rintro p name rfl
    exact strayFeature strays failed

end Call

namespace Example

def strayFan : FeatureModel := ((Call.addChildFeature ⟨9⟩ "Fan").perform.apply rack).2

theorem fanLeft : ∃ failure m', (Call.addChild ⟨9⟩ ⟨4⟩).Strays strayFan ∧
    (Call.addChild ⟨9⟩ ⟨4⟩).perform.apply strayFan = (.error failure, m') ∧
    strayFan.LeftBehind ⟨4⟩ ⟨9⟩ m' ∧ m'.placement ⟨4⟩ = some ⟨4⟩ ∧
    ¬ (Call.setParentGroup ⟨0⟩ .first).Strays m' ∧
    ∃ failure m'', (Call.setParentGroup ⟨0⟩ .first).perform.apply m' = (.error failure, m'') ∧
      m'' = m' := by
  have strays : (Call.addChild ⟨9⟩ ⟨4⟩).Strays strayFan := show strayFan.nodes.size < 9 by decide
  have failed : (Call.addChild ⟨9⟩ ⟨4⟩).perform.apply strayFan =
      (.error (.misused (.outOfBounds 6 9)), strayFan.withNode ⟨4⟩ (some ⟨9⟩)) := rfl
  have root : (Call.setParentGroup ⟨0⟩ .first).perform.apply (strayFan.withNode ⟨4⟩ (some ⟨9⟩)) =
      (.error (.misused (.rootWithoutGroup ⟨0⟩)), strayFan.withNode ⟨4⟩ (some ⟨9⟩)) := rfl
  have left := (((Call.failuresLeave strayFan _).2 _ _ failed).2 strays).1 ⟨9⟩ ⟨4⟩ rfl
  have undone := ((Call.failuresLeave _ _).2 _ _ root).1 id
  exact ⟨_, _, strays, failed, left.1, rfl, id, _, _, root, undone⟩

end Example
end ProductLine
