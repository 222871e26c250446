import ProductLine.Model.Basic

/-!
Building a feature model call by call. A call gives its answer or its failure, and the model it
leaves behind in either case: most failing calls leave the model as it was, but a child placed below
a node that is not there stays behind as a node without a place in any list of children.
-/
namespace ProductLine

/-- A call that changes the model, and may fail without undoing what it did. -/
abbrev Build := EStateM Failure FeatureModel

namespace Build

def apply {α : Type} (call : Build α) (m : FeatureModel) : Except Failure α × FeatureModel :=
  match call.run m with
  | .ok answer m => (.ok answer, m)
  | .error failure m => (.error failure, m)

def declare (name : String) (type : FeatureType) : Build FeatureId := do
  let m ← get
  if m.byName.contains name then throw (.misused (.duplicateFeature name))
  let id : FeatureId := ⟨m.features.size⟩
  set { m with
    features := m.features.push ⟨id, name, type, .empty⟩
    byName := m.byName.put name id }
  return id

def setAttribute (f : FeatureId) (name : String) (value : AttributeValue) : Build Unit := do
  let m ← get
  let feature ← ofExcept (m.feature f)
  let changed := { feature with attributes := feature.attributes.put name value }
  set { m with features := m.features.setIfInBounds f.index changed }

def place (f : FeatureId) (parent : Option NodeId) : Build NodeId := do
  let m ← get
  let id : NodeId := ⟨m.nodes.size⟩
  set { m with
    nodes := m.nodes.push ⟨id, f, parent, [], #[.and], .first, .optional, false⟩
    placements := m.placements.update f (·.getD id) }
  return id

def changeNode (n : NodeId) (change : Node → Node) : Build Unit := do
  let m ← get
  let node ← ofExcept (m.node n)
  set { m with nodes := m.nodes.setIfInBounds n.index (change node) }

def addRoot (f : FeatureId) : Build NodeId := do
  let id ← place f none
  modify fun m => { m with roots := m.roots ++ [id] }
  return id

def addChild (parent : NodeId) (f : FeatureId) : Build NodeId := do
  let id ← place f (some parent)
  changeNode parent fun p => { p with children := p.children ++ [id] }
  return id

def addRootFeature (name : String) : Build NodeId := do
  addRoot (← declare name .boolean)

def addChildFeature (parent : NodeId) (name : String) : Build NodeId := do
  addChild parent (← declare name .boolean)

def setCardinality (n : NodeId) (lower upper : UInt32) : Build Unit := do
  let cardinality ← ofExcept (Cardinality.ofBounds lower upper)
  changeNode n ({ · with cardinality })

def makeMandatory (n : NodeId) : Build Unit := changeNode n ({ · with mandatory := true })
def makeOptional (n : NodeId) : Build Unit := changeNode n ({ · with mandatory := false })

def nodeWithGroup (n : NodeId) (group : GroupId) : Build Node := do
  let node ← ofExcept ((← get).node n)
  if node.groups.size ≤ group.index then throw (.misused (.missingGroup n group))
  return node

def setKindOfGroup (n : NodeId) (group : GroupId) (kind : GroupKind) : Build Unit := do
  let node ← nodeWithGroup n group
  changeNode n ({ · with groups := node.groups.setIfInBounds group.index kind })

def setGroupKind (n : NodeId) (kind : GroupKind) : Build Unit := setKindOfGroup n .first kind

def addGroup (n : NodeId) (kind : GroupKind) : Build GroupId := do
  let node ← ofExcept ((← get).node n)
  changeNode n ({ · with groups := node.groups.push kind })
  return ⟨node.groups.size⟩

def setParentGroup (child : NodeId) (group : GroupId) : Build Unit := do
  match (← ofExcept ((← get).node child)).parent with
  | none => throw (.misused (.rootWithoutGroup child))
  | some parent =>
    let _ ← nodeWithGroup parent group
    changeNode child ({ · with parentGroup := group })

def addConstraint (formula : Formula) : Build Nat := do
  let m ← get
  let referenced ← ofExcept (formula.names.mapM (m.resolve formula))
  set { m with constraints := m.constraints.push ⟨formula, referenced⟩ }
  return m.constraints.size

end Build
end ProductLine
