import Mathlib.Data.List.Nodup
import Mathlib.Data.List.Perm.Subperm
import ProductLine.Proofs.Model.Ancestry
import ProductLine.Proofs.Model.Order
import ProductLine.Proofs.Model.Sessions

/-!
Walks through the forest of a model in any state that calls can lead to. Parent links may then lead
nowhere or in circles, but not where the lists of nodes lead from the roots: there each node has one
place, after its parent. So both the traversal and the walks up from the nodes it lists come to an
end.
-/
namespace ProductLine
open Relation (ReflTransGen)

namespace FeatureModel

inductive Visits (m : FeatureModel) : List NodeId → List NodeId → Prop
  | done : Visits m [] []
  | take {n : NodeId} {cs rest order : List NodeId} (children : m.children n = .ok cs)
      (later : Visits m (cs ++ rest) order) : Visits m (n :: rest) (n :: order)

inductive Lists (m : FeatureModel) : List NodeId → List NodeId → Prop
  | nil : Lists m [] []
  | cons {n : NodeId} {cs ns inside after : List NodeId} (children : m.children n = .ok cs)
      (below : Lists m cs inside) (beside : Lists m ns after) :
      Lists m (n :: ns) (n :: (inside ++ after))

inductive Climbs (m : FeatureModel) : NodeId → List NodeId → Prop
  | top {n : NodeId} (root : m.parent n = .ok none) : Climbs m n []
  | up {n p : NodeId} {above : List NodeId} (parent : m.parent n = .ok (some p))
      (higher : Climbs m p above) : Climbs m n (p :: above)

/-- The traversal comes to its end and is the recursive listing of the roots, without repetition.
The walk up from a listed node ends in a root and meets only nodes listed before it. -/
structure Traversed (m : FeatureModel) : Prop where
  visits : m.Visits m.roots m.preorder
  lists : m.Lists m.roots m.preorder
  once : m.preorder.Nodup
  climbs : ∀ before n after, m.preorder = before ++ n :: after →
    ∃ above, m.ancestors n = .ok above ∧ m.Climbs n above ∧
      (∃ root ∈ m.roots, (n :: above).getLast? = some root) ∧ ∀ a ∈ above, a ∈ before

def Holds (m : FeatureModel) (p c : NodeId) : Prop := ∃ cs, m.children p = .ok cs ∧ c ∈ cs

abbrev Leads (m : FeatureModel) (a n : NodeId) : Prop := ReflTransGen m.Holds a n

def Listed (m : FeatureModel) (n : NodeId) : Prop := ∃ root ∈ m.roots, m.Leads root n

def Aside (m : FeatureModel) (a b : NodeId) : Prop := ¬ m.Leads a b ∧ ¬ m.Leads b a

section Walks
variable {m : FeatureModel} {n : NodeId} {ns order stack above : List NodeId} {steps : Nat}

theorem Visits.cut (visits : m.Visits stack order) : m.unstack steps stack = order.take steps := by
  induction visits generalizing steps with
  | done => cases steps <;> rfl
  | @take n cs rest order children _ ih =>
    obtain ⟨node, found, rfl⟩ := childrenEqOk.mp children
    have below : m.below n = node.children := by simp [FeatureModel.below, found]
    cases steps with
    | zero => rfl
    | succ steps => rw [unstack, below, ih, List.take_succ_cons]

theorem Climbs.cut {node : Node} (climbs : m.Climbs n above) (found : m.nodes[n.index]? = some node)
    (enough : above.length ≤ steps) : m.climb steps node = ⟨above, none⟩ := by
  induction climbs generalizing steps node with
  | top root =>
    obtain ⟨_, stored, up⟩ := parentEqOk.mp root
    cases found.symm.trans stored
    cases steps <;> simp [climb, up]
  | @up n p above parent higher ih =>
    obtain ⟨_, stored, up⟩ := parentEqOk.mp parent
    cases found.symm.trans stored
    obtain ⟨next, there⟩ : ∃ next, m.nodes[p.index]? = some next := by
      cases higher with
      | top root | up root => exact (parentEqOk.mp root).imp fun _ => And.left
    have fetched : m.node p = .ok next := fetchEqOk.mpr there
    cases steps with
    | zero => cases enough
    | succ steps => simp [climb, up, fetched, ih there (Nat.le_of_succ_le_succ enough)]

theorem Lists.visitsBefore (lists : m.Lists ns order) {rest more : List NodeId}
    (later : m.Visits rest more) : m.Visits (ns ++ rest) (order ++ more) := by
  -- `rest` is what lies under the listed nodes on the stack; it stays until they are done
  induction lists generalizing rest more with
  | nil => exact later
  | cons children _ _ below beside =>
    have visits := Visits.take children (below (beside later))
    simpa only [List.cons_append, List.append_assoc] using visits

theorem Lists.visits (lists : m.Lists ns order) : m.Visits ns order := by
  simpa using lists.visitsBefore .done

theorem Lists.append {ns' order' : List NodeId} (first : m.Lists ns order)
    (second : m.Lists ns' order') : m.Lists (ns ++ ns') (order ++ order') := by
  induction first with
  | nil => exact second
  | cons children below _ _ ih =>
    rw [List.cons_append, List.cons_append, List.append_assoc]
    exact .cons children below ih

theorem Lists.mem (lists : m.Lists ns order) {x : NodeId} : x ∈ order ↔ ∃ n ∈ ns, m.Leads n x := by
  induction lists with
  | nil => simp
  | @cons n cs ns inside after children _ _ below beside =>
    have head : m.Leads n x ↔ x = n ∨ ∃ c ∈ cs, m.Leads c x := by
      have held : ∀ c, m.Holds n c ↔ c ∈ cs := by simp [Holds, children]
      simp only [Leads, ReflTransGen.cases_head_iff (a := n), held, eq_comm]
    simp [below, beside, head, or_assoc]

theorem listsAll (each : ∀ n ∈ ns, ∃ order, m.Lists [n] order) : ∃ order, m.Lists ns order := by
  induction ns with
  | nil => exact ⟨[], .nil⟩
  | cons n ns ih =>
    obtain ⟨first, head⟩ := each n List.mem_cons_self
    obtain ⟨others, tail⟩ := ih fun k inside => each k (List.mem_cons_of_mem _ inside)
    exact ⟨first ++ others, head.append tail⟩

end Walks
end FeatureModel

namespace Owned
open FeatureModel
variable {m : FeatureModel} {n p c : NodeId} {ns order : List NodeId}

theorem heldUp (o : Owned m.nodes m.roots) (held : m.Holds p c) :
    p.index ≤ c.index ∧ m.IsParent p c := by
  obtain ⟨cs, children, inside⟩ := held
  obtain ⟨above, found, rfl⟩ := childrenEqOk.mp children
  exact o.children found c inside

theorem listedStored (o : Owned m.nodes m.roots) (listed : m.Listed n) :
    ∃ node, m.nodes[n.index]? = some node := by
  obtain ⟨root, top, leads⟩ := listed
  cases leads with
  | refl => exact (o.roots n top).imp fun _ => And.left
  | tail _ held => exact (o.heldUp held).2.imp fun _ => And.left

theorem rootTop (o : Owned m.nodes m.roots) (top : n ∈ m.roots) : ¬ m.IsParent p n := by
  intro up
  obtain ⟨node, found, root⟩ := o.roots n top
  obtain ⟨node', found', up⟩ := up
  cases found.symm.trans found'
  cases root.symm.trans up

theorem notOwnParent (o : Owned m.nodes m.roots) (listed : m.Listed n) : ¬ m.IsParent n n := by
  obtain ⟨root, top, leads⟩ := listed
  -- a node that is its own parent is in no list but its own
  induction leads with
  | refl => exact o.rootTop top
  | tail _ held ih =>
    intro own
    cases parentUnique own (o.heldUp held).2
    exact ih own

theorem heldLater (o : Owned m.nodes m.roots) (listed : m.Listed p) (held : m.Holds p c) :
    p.index < c.index := by
  obtain ⟨early, up⟩ := o.heldUp held
  refine Nat.lt_of_le_of_ne early fun same => ?_
  cases p
  cases c
  cases same
  exact o.notOwnParent listed up

theorem listedFrom (listed : m.Listed n) (leads : m.Leads n c) : m.Listed c := by
  obtain ⟨root, top, above⟩ := listed
  exact ⟨root, top, above.trans leads⟩

theorem ledLater (o : Owned m.nodes m.roots) (listed : m.Listed n) (leads : m.Leads n c) :
    n.index ≤ c.index := by
  induction leads with
  | refl => exact Nat.le_refl _
  | tail above held ih =>
    have := o.heldLater (listedFrom listed above) held
    omega

theorem ledTogether (o : Owned m.nodes m.roots) {a b x : NodeId} (first : m.Leads a x)
    (second : m.Leads b x) : m.Leads a b ∨ m.Leads b a := by
  have unique : Relator.RightUnique (Function.swap m.Holds) := fun _ _ _ held held' =>
    parentUnique (o.heldUp held).2 (o.heldUp held').2
  have up := ReflTransGen.total_of_right_unique unique (Relation.reflTransGen_swap.mpr first)
    (Relation.reflTransGen_swap.mpr second)
  exact up.symm.imp Relation.reflTransGen_swap.mp Relation.reflTransGen_swap.mp

theorem rootsAside (o : Owned m.nodes m.roots) : m.roots.Pairwise m.Aside := by
  refine (sortedNodup o.rootsSorted).pairwise_of_forall_ne fun a first b second different => ?_
  have apart : ∀ {a b}, b ∈ m.roots → a ≠ b → ¬ m.Leads a b := by
    intro a b top different leads
    rcases (ReflTransGen.cases_tail_iff _ _ _).mp leads with rfl | ⟨p, -, held⟩
    · exact different rfl
    · exact o.rootTop top (o.heldUp held).2
  exact ⟨apart second different, apart first different.symm⟩

theorem childrenAside (o : Owned m.nodes m.roots) (listed : m.Listed n) {cs : List NodeId}
    (children : m.children n = .ok cs) : cs.Pairwise m.Aside := by
  obtain ⟨above, found, rfl⟩ := childrenEqOk.mp children
  have apart : ∀ {a b}, m.Holds n a → m.Holds n b → a ≠ b → ¬ m.Leads a b := by
    intro a b first second different leads
    rcases (ReflTransGen.cases_tail_iff _ _ _).mp leads with rfl | ⟨p, leads, held⟩
    · exact different rfl
    · cases parentUnique (o.heldUp held).2 (o.heldUp second).2
      have := o.ledLater (listedFrom listed (.single first)) leads
      have := o.heldLater listed first
      omega
  have nodup := sortedNodup (o.childrenSorted found)
  refine nodup.pairwise_of_forall_ne fun a first b second different => ?_
  have first : m.Holds n a := ⟨_, children, first⟩
  have second : m.Holds n b := ⟨_, children, second⟩
  exact ⟨apart first second different, apart second first different.symm⟩

theorem listsForward (o : Owned m.nodes m.roots) (listed : ∀ n ∈ ns, m.Listed n)
    (aside : ns.Pairwise m.Aside) (lists : m.Lists ns order) :
    order.Pairwise fun a b => ¬ m.Leads b a := by
  induction lists with
  | nil => exact .nil
  | @cons n cs ns inside after children lists lists' below beside =>
    obtain ⟨own, others⟩ := List.forall_mem_cons.mp listed
    obtain ⟨first, aside⟩ := List.pairwise_cons.mp aside
    have held : ∀ c ∈ cs, m.Holds n c := fun c inside => ⟨cs, children, inside⟩
    have deeper : ∀ x ∈ inside, ∃ c ∈ cs, m.Leads c x := fun x => lists.mem.mp
    have further : ∀ x ∈ after, ∃ k ∈ ns, m.Leads k x := fun x => lists'.mem.mp
    refine List.pairwise_cons.mpr ⟨fun x later leads => ?_, List.pairwise_append.mpr ⟨?_, ?_, ?_⟩⟩
    · rcases List.mem_append.mp later with later | later
      · obtain ⟨c, child, under⟩ := deeper x later
        have := o.heldLater own (held c child)
        have := o.ledLater (listedFrom own (.single (held c child))) (under.trans leads)
        omega
      · obtain ⟨k, sibling, under⟩ := further x later
        exact (first k sibling).2 (under.trans leads)
    · exact below (fun c child => listedFrom own (.single (held c child)))
        (o.childrenAside own children)
    · exact beside others aside
    · -- a way back would put `n` and one of the nodes beside it on one way up
      intro x early y late leads
      obtain ⟨c, child, under⟩ := deeper x early
      obtain ⟨k, sibling, under'⟩ := further y late
      rcases o.ledTogether (.head (held c child) under) (under'.trans leads) with lower | higher
      · exact (first k sibling).1 lower
      · exact (first k sibling).2 higher

theorem listsNode (o : Owned m.nodes m.roots) (depth : Nat) (listed : m.Listed n)
    (enough : m.nodes.size ≤ n.index + depth) : ∃ order, m.Lists [n] order := by
  -- on the number of nodes that can still follow: each step down leads to a later one
  induction depth generalizing n with
  | zero =>
    obtain ⟨node, found⟩ := o.listedStored listed
    exact absurd (storedBelow found) (Nat.not_lt_of_le enough)
  | succ depth ih =>
    obtain ⟨node, found⟩ := o.listedStored listed
    have children : m.children n = .ok node.children := childrenEqOk.mpr ⟨node, found, rfl⟩
    have each : ∀ c ∈ node.children, ∃ order, m.Lists [c] order := by
      intro c inside
      have held : m.Holds n c := ⟨_, children, inside⟩
      have := o.heldLater listed held
      exact ih (listedFrom listed (.single held)) (by omega)
    obtain ⟨inside, below⟩ := listsAll each
    exact ⟨n :: (inside ++ []), .cons children below .nil⟩

theorem listsRoots (o : Owned m.nodes m.roots) : ∃ order, m.Lists m.roots order :=
  listsAll fun n top => o.listsNode m.nodes.size ⟨n, top, .refl⟩ (Nat.le_add_left _ _)

theorem climbsUp (o : Owned m.nodes m.roots) (listed : m.Listed n) : ∃ above, m.Climbs n above ∧
    above.length ≤ n.index ∧ (∃ root ∈ m.roots, (n :: above).getLast? = some root) ∧
    ∀ a ∈ above, a ≠ n ∧ m.Listed a ∧ m.Leads a n := by
  obtain ⟨root, top, leads⟩ := listed
  induction leads with
  | refl =>
    obtain ⟨node, found, up⟩ := o.roots root top
    exact ⟨[], .top (parentEqOk.mpr ⟨node, found, up⟩), Nat.zero_le _, ⟨root, top, rfl⟩, by simp⟩
  | @tail p n leads held ih =>
    have listed : m.Listed p := ⟨root, top, leads⟩
    have later := o.heldLater listed held
    obtain ⟨above, higher, short, ends, met⟩ := ih
    refine ⟨p :: above, .up (parentEqOk.mpr (o.heldUp held).2) higher, ?_, ?_, ?_⟩
    · rw [List.length_cons]
      omega
    · simpa using ends
    · refine List.forall_mem_cons.mpr ⟨⟨?_, listed, .single held⟩, fun a inside => ?_⟩
      · rintro rfl
        exact Nat.lt_irrefl _ later
      · obtain ⟨-, found, under⟩ := met a inside
        refine ⟨?_, found, under.tail held⟩
        rintro rfl
        exact Nat.not_lt_of_le (o.ledLater found under) later

theorem short (o : Owned m.nodes m.roots) (lists : m.Lists m.roots order) (once : order.Nodup) :
    order.length ≤ m.nodes.size := by
  have injective : Function.Injective NodeId.index := fun a b same => by
    cases a
    cases b
    cases same
    rfl
  have inside : order.map NodeId.index ⊆ List.range m.nodes.size := by
    intro i member
    obtain ⟨n, listed, rfl⟩ := List.mem_map.mp member
    obtain ⟨node, found⟩ := o.listedStored (lists.mem.mp listed)
    exact List.mem_range.mpr (storedBelow found)
  have few := ((once.map injective).subperm inside).length_le
  rwa [List.length_map, List.length_range] at few

theorem traversed (o : Owned m.nodes m.roots) : m.Traversed := by
  obtain ⟨order, lists⟩ := o.listsRoots
  have forward := o.listsForward (fun n top => ⟨n, top, .refl⟩) o.rootsAside lists
  have once : order.Nodup := forward.imp fun back => by
    rintro rfl
    exact back .refl
  have whole : m.preorder = order := by
    rw [preorder, lists.visits.cut, List.take_of_length_le (o.short lists once)]
  refine ⟨whole ▸ lists.visits, whole ▸ lists, whole ▸ once, fun before n after split => ?_⟩
  rw [whole] at split
  subst split
  have listed : m.Listed n := lists.mem.mp (by simp)
  obtain ⟨node, found⟩ := o.listedStored listed
  obtain ⟨above, climbs, few, ends, met⟩ := o.climbsUp listed
  have room := storedBelow found
  refine ⟨above, ?_, climbs, ends, fun a inside => ?_⟩
  · have fetched : m.node n = .ok node := fetchEqOk.mpr found
    simp [ancestors, lineage, fetched, climbs.cut found (Nat.le_trans few (Nat.le_of_lt room)),
      Lineage.all]
  · obtain ⟨different, there, leads⟩ := met a inside
    have somewhere : a ∈ before ++ n :: after := lists.mem.mpr there
    rcases List.mem_append.mp somewhere with early | late
    · exact early
    · have back := (List.pairwise_cons.mp (List.pairwise_append.mp forward).2.1).1
      exact absurd leads (back a (List.mem_of_ne_of_mem different late))

end Owned

theorem Linked.owned {nodes : Array Node} {tops : List NodeId} (l : Linked nodes tops) :
    Owned nodes tops where
  children := by
    intro p above found c listed
    obtain ⟨n, there, up⟩ := (l.children found c).mp listed
    exact ⟨Nat.le_of_lt (l.parents there up), n, there, up⟩
  childrenSorted := l.childrenSorted
  roots := fun c top => (l.roots c).mp top
  rootsSorted := l.rootsSorted

theorem Linked.allListed {m : FeatureModel} (l : Linked m.nodes m.roots) {n : NodeId} {node : Node}
    (found : m.nodes[n.index]? = some node) : m.Listed n := by
  obtain ⟨i⟩ := n
  induction i using Nat.strongRecOn generalizing node with
  | ind i earlier =>
    cases up : node.parent with
    | none => exact ⟨⟨i⟩, (l.roots _).mpr ⟨node, found, up⟩, .refl⟩
    | some p =>
      have before := l.parents found up
      have there := Array.getElem?_eq_getElem (Nat.lt_trans before (storedBelow found))
      have child := (l.children there ⟨i⟩).mpr ⟨node, found, up⟩
      have held : m.Holds p ⟨i⟩ := ⟨_, FeatureModel.childrenEqOk.mpr ⟨_, there, rfl⟩, child⟩
      exact Owned.listedFrom (earlier p.index before there) (.single held)

/-- Whatever calls were made, traversing the model is safe; after an orderly session it misses no
node. -/
theorem sessionTraversed (cs : List Call) : (Session.start.run cs).model.Traversed ∧
    (Session.start.orderly cs = true → ∀ n node, (Session.start.run cs).model.node n = .ok node →
      n ∈ (Session.start.run cs).model.preorder) := by
  have safe := (Session.owned cs).traversed
  refine ⟨safe, fun orderly n node found => ?_⟩
  exact safe.lists.mem.mpr ((Session.linked orderly).allListed (fetchEqOk.mp found))

namespace Example

def strayCalls : List Call :=
  [.addRootFeature "Hub", .addChildFeature ⟨4⟩ "Lost", .addChildFeature ⟨0⟩ "Port",
    .addChildFeature ⟨2⟩ "Plug", .addChildFeature ⟨4⟩ "Loop", .addRootFeature "Spare"]

theorem strayTraversed : Session.start.orderly rackCalls = true ∧
    ⟨2⟩ ∈ (Session.start.run rackCalls).model.preorder ∧
    (Session.start.run strayCalls).model.preorder = [⟨0⟩, ⟨2⟩, ⟨3⟩, ⟨5⟩] ∧
    (Session.start.run strayCalls).model.Traversed := by
  have orderly : Session.start.orderly rackCalls = true := rfl
  exact ⟨orderly, (sessionTraversed rackCalls).2 orderly ⟨2⟩ _ rfl, rfl,
    (sessionTraversed strayCalls).1⟩

end Example
end ProductLine
