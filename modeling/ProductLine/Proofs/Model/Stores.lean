import ProductLine.Proofs.Model.Changes

/-!
The stores of a model one by one: features under their names, nodes linked up and down, and first
placements. Each says what it keeps when its store grows or one entry changes.
-/
namespace ProductLine

structure Declared (features : Array Feature) (byName : SortedMap String FeatureId) : Prop where
  ids : ∀ {i : Nat} {f : Feature}, features[i]? = some f → f.id = ⟨i⟩
  names : ∀ {name : String} {id : FeatureId},
    byName.get? name = some id ↔ ∃ f, features[id.index]? = some f ∧ f.name = name

structure Linked (nodes : Array Node) (tops : List NodeId) : Prop where
  ids : ∀ {i : Nat} {n : Node}, nodes[i]? = some n → n.id = ⟨i⟩
  parents : ∀ {i : Nat} {n : Node} {p : NodeId}, nodes[i]? = some n → n.parent = some p →
    p.index < i
  children : ∀ {p : Nat} {above : Node}, nodes[p]? = some above → ∀ c : NodeId,
    c ∈ above.children ↔ ∃ n, nodes[c.index]? = some n ∧ n.parent = some ⟨p⟩
  childrenSorted : ∀ {p : Nat} {above : Node}, nodes[p]? = some above →
    above.children.Pairwise (·.index < ·.index)
  roots : ∀ c : NodeId, c ∈ tops ↔ ∃ n, nodes[c.index]? = some n ∧ n.parent = none
  rootsSorted : tops.Pairwise (·.index < ·.index)
  groups : ∀ {i : Nat} {n : Node}, nodes[i]? = some n → 0 < n.groups.size
  parentGroups : ∀ {i : Nat} {n : Node} {p : NodeId} {above : Node}, nodes[i]? = some n →
    n.parent = some p → nodes[p.index]? = some above → n.parentGroup.index < above.groups.size

def carried (nodes : Array Node) (i : Nat) : Option FeatureId := nodes[i]?.map Node.feature

def FirstPlaced (nodes : Array Node) (placements : SortedMap FeatureId NodeId) : Prop :=
  ∀ (f : FeatureId) (n : NodeId), placements.get? f = some n ↔
    carried nodes n.index = some f ∧ ∀ k < n.index, carried nodes k ≠ some f

section Stores
variable {α : Type} {xs : Array α} {x y : α} {i k : Nat}

theorem pushEqSome : (xs.push x)[i]? = some y ↔ xs[i]? = some y ∨ i = xs.size ∧ y = x := by
  grind

theorem setEqSome : (xs.setIfInBounds k x)[i]? = some y ↔
    i ≠ k ∧ xs[i]? = some y ∨ i = k ∧ k < xs.size ∧ y = x := by
  grind

theorem storedBelow (found : xs[i]? = some y) : i < xs.size :=
  (Array.getElem?_eq_some_iff.mp found).1

theorem sortedNodup {f : α → Nat} {ys : List α} (sorted : ys.Pairwise fun a b => f a < f b) :
    ys.Nodup :=
  sorted.imp fun less same => by
    rw [same] at less
    exact Nat.lt_irrefl _ less

theorem sortedUnique {f : α → Nat} {ys zs : List α} (sorted : ys.Pairwise fun a b => f a < f b)
    (sorted' : zs.Pairwise fun a b => f a < f b) (same : ys.Perm zs) : ys = zs :=
  same.eq_of_pairwise (fun _ _ _ _ less more => absurd more (Nat.not_lt_of_gt less)) sorted sorted'

end Stores

namespace Declared
variable {features : Array Feature} {byName : SortedMap String FeatureId}

theorem push (d : Declared features byName) {name : String} {type : FeatureType}
    (fresh : byName.contains name = false) :
    Declared (features.push ⟨⟨features.size⟩, name, type, .empty⟩)
      (byName.put name ⟨features.size⟩) where
  ids := by
    intro i f found
    rcases pushEqSome.mp found with old | ⟨rfl, rfl⟩
    · exact d.ids old
    · rfl
  names := by
    intro k id
    have unused : byName.get? name = none := by simpa [SortedMap.contains] using fresh
    rw [SortedMap.getPut]
    by_cases same : k = name
    · subst same
      rw [if_pos rfl]
      constructor
      · intro h
        cases Option.some.inj h
        exact ⟨_, pushEqSome.mpr (.inr ⟨rfl, rfl⟩), rfl⟩
      · intro h
        obtain ⟨f, found, named⟩ := h
        rcases pushEqSome.mp found with old | ⟨last, -⟩
        · rw [d.names.mpr ⟨f, old, named⟩] at unused
          contradiction
        · rw [← last]
    · rw [if_neg same, d.names]
      constructor
      · intro h
        obtain ⟨f, found, named⟩ := h
        exact ⟨f, pushEqSome.mpr (.inl found), named⟩
      · intro h
        obtain ⟨f, found, named⟩ := h
        rcases pushEqSome.mp found with old | ⟨-, rfl⟩
        · exact ⟨f, old, named⟩
        · exact absurd named.symm same

theorem describe (d : Declared features byName) {i : Nat} {feature attributes}
    (found : features[i]? = some feature) :
    Declared (features.setIfInBounds i { feature with attributes }) byName where
  ids := by
    intro k f stored
    rcases setEqSome.mp stored with ⟨-, old⟩ | ⟨rfl, -, rfl⟩
    · exact d.ids old
    · exact (d.ids found :)
  names := by
    intro name id
    rw [d.names]
    constructor
    · intro h
      obtain ⟨f, stored, named⟩ := h
      by_cases same : id.index = i
      · subst same
        cases Option.some.inj (found.symm.trans stored)
        exact ⟨_, setEqSome.mpr (.inr ⟨rfl, storedBelow found, rfl⟩), named⟩
      · exact ⟨f, setEqSome.mpr (.inl ⟨same, stored⟩), named⟩
    · intro h
      obtain ⟨f, stored, named⟩ := h
      rcases setEqSome.mp stored with ⟨-, old⟩ | ⟨rfl, -, rfl⟩
      · exact ⟨f, old, named⟩
      · exact ⟨feature, found, named⟩

end Declared

def Node.adopt (q : Option NodeId) (c : NodeId) (n : Node) : Node :=
  if q = some n.id then { n with children := n.children ++ [c] } else n

namespace Node
variable (q : Option NodeId) (c : NodeId) (n : Node)

theorem adoptKeeps : (n.adopt q c).id = n.id ∧ (n.adopt q c).feature = n.feature ∧
    (n.adopt q c).parent = n.parent ∧ (n.adopt q c).groups = n.groups ∧
    (n.adopt q c).parentGroup = n.parentGroup := by
  unfold adopt
  split <;> exact ⟨rfl, rfl, rfl, rfl, rfl⟩

theorem memAdopt {x : NodeId} : x ∈ (n.adopt q c).children ↔
    x ∈ n.children ∨ q = some n.id ∧ x = c := by
  unfold adopt
  split <;> simp_all

end Node

def Grown (nodes nodes' : Array Node) (f : FeatureId) (q : Option NodeId) : Prop :=
  ∀ (i : Nat) (n' : Node), nodes'[i]? = some n' ↔
    (∃ n, nodes[i]? = some n ∧ n' = n.adopt q ⟨nodes.size⟩) ∨
      i = nodes.size ∧ n' = .fresh ⟨nodes.size⟩ f q

theorem Grown.linked {nodes nodes' : Array Node} {f : FeatureId} {q up : Option NodeId} {c : NodeId}
    (grown : Grown nodes nodes' f q) : (∃ n, nodes'[c.index]? = some n ∧ n.parent = up) ↔
      (∃ n, nodes[c.index]? = some n ∧ n.parent = up) ∨ c.index = nodes.size ∧ q = up := by
  unfold Grown at grown
  simp only [grown]
  grind [Node.adoptKeeps, Node.fresh]

theorem FeatureModel.rootGrown {m : FeatureModel} {f : FeatureId} :
    Grown m.nodes (m.withNode f none).nodes f none := by
  intro i n
  simp [FeatureModel.withNode, pushEqSome, Node.adopt]

namespace Linked
variable {nodes nodes' : Array Node} {tops : List NodeId}

theorem childGrown {m : FeatureModel} (l : Linked m.nodes tops) {f : FeatureId} {p : NodeId}
    {above : Node} (found : m.nodes[p.index]? = some above) :
    Grown m.nodes ((m.withNode f (some p)).setNode p
      { above with children := above.children ++ [⟨m.nodes.size⟩] }).nodes f (some p) := by
  intro i n
  have inside := storedBelow found
  have adopted : ∀ old, m.nodes[i]? = some old → old.adopt (some p) ⟨m.nodes.size⟩ =
      if i = p.index then { above with children := above.children ++ [⟨m.nodes.size⟩] }
      else old := by
    intro old before
    have id := l.ids before
    obtain ⟨p⟩ := p
    unfold Node.adopt
    grind
  simp only [FeatureModel.setNode, FeatureModel.withNode, setEqSome, pushEqSome, Array.size_push]
  grind

theorem sortedSnoc {ids : List NodeId} {last : Nat} (sorted : ids.Pairwise (·.index < ·.index))
    (early : ∀ i ∈ ids, i.index < last) :
    (ids ++ [NodeId.mk last]).Pairwise (·.index < ·.index) := by
  refine List.pairwise_append.mpr ⟨sorted, by simp, ?_⟩
  intro i before j after
  cases List.mem_singleton.mp after
  exact early i before

theorem childBelow (l : Linked nodes tops) {p : Nat} {above : Node} (found : nodes[p]? = some above)
    {c : NodeId} (inside : c ∈ above.children) : c.index < nodes.size := by
  obtain ⟨n, found, -⟩ := (l.children found c).mp inside
  exact storedBelow found

theorem rootBelow (l : Linked nodes tops) {c : NodeId} (inside : c ∈ tops) :
    c.index < nodes.size := by
  obtain ⟨n, found, -⟩ := (l.roots c).mp inside
  exact storedBelow found

theorem noneBelowFresh (l : Linked nodes tops) (c : NodeId) :
    ¬ ∃ n, nodes[c.index]? = some n ∧ n.parent = some ⟨nodes.size⟩ := by
  intro h
  obtain ⟨n, found, up⟩ := h
  have early := l.parents found up
  have late := storedBelow found
  simp only at early
  omega

section Growth
variable {f : FeatureId} {q : Option NodeId}

theorem growChildren (l : Linked nodes tops) (there : ∀ p, q = some p → p.index < nodes.size)
    (grown : Grown nodes nodes' f q) {p : Nat} {above : Node} (found : nodes'[p]? = some above)
    (c : NodeId) : c ∈ above.children ↔ ∃ n, nodes'[c.index]? = some n ∧ n.parent = some ⟨p⟩ := by
  rw [grown.linked]
  rcases (grown p above).mp found with ⟨old, before, rfl⟩ | ⟨rfl, rfl⟩
  · rw [Node.memAdopt, l.children before, l.ids before]
    cases c
    simp [and_comm]
  · have unused : q ≠ some ⟨nodes.size⟩ := fun same => Nat.lt_irrefl _ (there _ same)
    simp [Node.fresh, unused, l.noneBelowFresh c]

theorem growChildrenSorted (l : Linked nodes tops) (grown : Grown nodes nodes' f q) {p : Nat}
    {above : Node} (found : nodes'[p]? = some above) :
    above.children.Pairwise (·.index < ·.index) := by
  rcases (grown p above).mp found with ⟨old, before, rfl⟩ | ⟨rfl, rfl⟩
  · unfold Node.adopt
    split
    · exact sortedSnoc (l.childrenSorted before) fun c => l.childBelow before
    · exact l.childrenSorted before
  · exact .nil

theorem growParentGroups (l : Linked nodes tops) (there : ∀ p, q = some p → p.index < nodes.size)
    (grown : Grown nodes nodes' f q) {i : Nat} {n : Node} {p : NodeId} {above : Node}
    (found : nodes'[i]? = some n) (up : n.parent = some p)
    (higher : nodes'[p.index]? = some above) : n.parentGroup.index < above.groups.size := by
  rcases (grown i n).mp found with ⟨old, before, rfl⟩ | ⟨rfl, rfl⟩
  · have up : old.parent = some p := (old.adoptKeeps ..).2.2.1.symm.trans up
    rcases (grown p.index above).mp higher with ⟨old', before', rfl⟩ | ⟨late, -⟩
    · rw [(old.adoptKeeps ..).2.2.2.2, (old'.adoptKeeps ..).2.2.2.1]
      exact l.parentGroups before up before'
    · have := l.parents before up
      have := storedBelow before
      omega
  · rcases (grown p.index above).mp higher with ⟨old', before', rfl⟩ | ⟨late, -⟩
    · rw [(old'.adoptKeeps ..).2.2.2.1]
      exact l.groups before'
    · exact absurd (there p up) (by omega)

theorem grow (l : Linked nodes tops) (there : ∀ p, q = some p → p.index < nodes.size)
    (grown : Grown nodes nodes' f q) :
    Linked nodes' (if q = none then tops ++ [⟨nodes.size⟩] else tops) where
  ids := by
    intro i n found
    rcases (grown i n).mp found with ⟨old, before, rfl⟩ | ⟨rfl, rfl⟩
    · exact (old.adoptKeeps ..).1.trans (l.ids before)
    · rfl
  parents := by
    intro i n p found up
    rcases (grown i n).mp found with ⟨old, before, rfl⟩ | ⟨rfl, rfl⟩
    · exact l.parents before ((old.adoptKeeps ..).2.2.1.symm.trans up)
    · exact there p up
  children := l.growChildren there grown
  childrenSorted := l.growChildrenSorted grown
  roots := by
    intro c
    rw [grown.linked, ← l.roots]
    cases c
    split <;> simp_all
  rootsSorted := by
    split
    · exact sortedSnoc l.rootsSorted fun c => l.rootBelow
    · exact l.rootsSorted
  groups := by
    intro i n found
    rcases (grown i n).mp found with ⟨old, before, rfl⟩ | ⟨rfl, rfl⟩
    · rw [(old.adoptKeeps ..).2.2.2.1]
      exact l.groups before
    · simp [Node.fresh]
  parentGroups := l.growParentGroups there grown

end Growth

section Adjustment
variable {m : FeatureModel} {k : Nat} {old new : Node}

theorem adjustLooks (found : m.nodes[k]? = some old) (adjusts : m.Adjusts old new) {i : Nat}
    {n : Node} (stored : (m.nodes.setIfInBounds k new)[i]? = some n) :
    ∃ n' : Node, m.nodes[i]? = some n' ∧ n.id = n'.id ∧ n.parent = n'.parent ∧
      n.children = n'.children ∧ n'.groups.size ≤ n.groups.size := by
  rcases setEqSome.mp stored with ⟨-, before⟩ | ⟨rfl, -, rfl⟩
  · exact ⟨n, before, rfl, rfl, rfl, Nat.le_refl _⟩
  · exact ⟨old, found, adjusts.id, adjusts.parent, adjusts.children, adjusts.groups⟩

theorem adjustLinked (found : m.nodes[k]? = some old) (adjusts : m.Adjusts old new) {c : NodeId}
    {up : Option NodeId} :
    (∃ n : Node, (m.nodes.setIfInBounds k new)[c.index]? = some n ∧ n.parent = up) ↔
      ∃ n : Node, m.nodes[c.index]? = some n ∧ n.parent = up := by
  simp only [setEqSome]
  have parent := adjusts.parent
  have inside := storedBelow found
  grind

theorem adjustParentGroups (l : Linked m.nodes tops) (found : m.nodes[k]? = some old)
    (adjusts : m.Adjusts old new) {i : Nat} {n : Node} {p : NodeId} {above : Node}
    (stored : (m.nodes.setIfInBounds k new)[i]? = some n) (up : n.parent = some p)
    (higher : (m.nodes.setIfInBounds k new)[p.index]? = some above) :
    n.parentGroup.index < above.groups.size := by
  obtain ⟨above', before, -, -, -, groups⟩ := adjustLooks found adjusts higher
  refine Nat.lt_of_lt_of_le ?_ groups
  rcases setEqSome.mp stored with ⟨-, same⟩ | ⟨rfl, -, rfl⟩
  · exact l.parentGroups same up before
  · rcases adjusts.group with kept | ⟨p', above'', up', before', inside⟩
    · exact kept ▸ l.parentGroups found (adjusts.parent ▸ up) before
    · rw [adjusts.parent, up'] at up
      cases up
      cases before.symm.trans before'
      exact inside

theorem adjust (l : Linked m.nodes tops) (found : m.nodes[k]? = some old)
    (adjusts : m.Adjusts old new) : Linked (m.nodes.setIfInBounds k new) tops where
  ids := by
    intro i n stored
    obtain ⟨n', before, id, -⟩ := adjustLooks found adjusts stored
    exact id.trans (l.ids before)
  parents := by
    intro i n p stored up
    obtain ⟨n', before, -, parent, -⟩ := adjustLooks found adjusts stored
    exact l.parents before (parent ▸ up)
  children := by
    intro p above stored c
    obtain ⟨n', before, -, -, children, -⟩ := adjustLooks found adjusts stored
    rw [adjustLinked found adjusts, children]
    exact l.children before c
  childrenSorted := by
    intro p above stored
    obtain ⟨n', before, -, -, children, -⟩ := adjustLooks found adjusts stored
    exact children ▸ l.childrenSorted before
  roots := by
    intro c
    rw [adjustLinked found adjusts]
    exact l.roots c
  rootsSorted := l.rootsSorted
  groups := by
    intro i n stored
    obtain ⟨n', before, -, -, -, groups⟩ := adjustLooks found adjusts stored
    exact Nat.lt_of_lt_of_le (l.groups before) groups
  parentGroups := l.adjustParentGroups found adjusts

end Adjustment
end Linked

namespace FirstPlaced
variable {nodes nodes' : Array Node} {placements : SortedMap FeatureId NodeId}

theorem unplaced (placed : FirstPlaced nodes placements) {f : FeatureId}
    (absent : placements.get? f = none) (k : Nat) : carried nodes k ≠ some f := by
  induction k using Nat.strongRecOn with
  | ind k earlier =>
    intro carries
    have found := (placed f ⟨k⟩).mpr ⟨carries, earlier⟩
    rw [absent] at found
    contradiction

theorem keep (placed : FirstPlaced nodes placements)
    (same : ∀ i, carried nodes' i = carried nodes i) : FirstPlaced nodes' placements := by
  intro f n
  simp only [same]
  exact placed f n

theorem grow (placed : FirstPlaced nodes placements) {f : FeatureId}
    (carries : ∀ i, carried nodes' i = if i = nodes.size then some f else carried nodes i) :
    FirstPlaced nodes' (placements.update f (·.getD ⟨nodes.size⟩)) := by
  have inside : ∀ {g i}, carried nodes i = some g → i < nodes.size := by
    intro g i h
    obtain ⟨node, found, -⟩ := Option.map_eq_some_iff.mp h
    exact storedBelow found
  intro g ⟨n⟩
  rw [SortedMap.getUpdate]
  simp only [carries]
  by_cases same : g = f
  · subst same
    rw [if_pos rfl]
    cases found : placements.get? g with
    | some old =>
      have first := (placed g old).mp found
      have early := inside first.1
      have unique := placed g ⟨n⟩
      grind
    | none =>
      have absent := placed.unplaced found
      grind
  · rw [if_neg same, placed g ⟨n⟩]
    have := @inside g
    grind

end FirstPlaced
end ProductLine
