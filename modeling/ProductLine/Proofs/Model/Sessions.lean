import ProductLine.Proofs.Model.Failures
import ProductLine.Proofs.Model.WellFormed

/-!
Sessions: calls of every kind on handles of every kind, one after another from the empty model, with
all that the failing ones leave behind. The lists of nodes stay true to the parent links throughout;
the parent links stay true to the lists as long as children are placed below nodes that are there.
-/
namespace ProductLine

structure Session where
  model : FeatureModel
  given : List Answer

namespace Session

def start : Session := ⟨.empty, []⟩

def make (s : Session) (c : Call) : Session :=
  match c.perform.apply s.model with
  | (.ok answer, m) => ⟨m, answer :: s.given⟩
  | (.error _, m) => ⟨m, s.given⟩

def run (s : Session) (cs : List Call) : Session := cs.foldl make s

def misuses (s : Session) (c : Call) : Bool :=
  match (c.perform.apply s.model).1 with
  | .error (.misused _) => true
  | _ => false

/-- No call is misused, and children are placed only below nodes that earlier calls answered. -/
def orderly : Session → List Call → Bool
  | _, [] => true
  | s, c :: cs =>
    c.parent?.all (fun p => s.given.contains (.node p)) && !s.misuses c && orderly (s.make c) cs

theorem makeCases (s : Session) (c : Call) :
    (∃ answer m, c.perform.apply s.model = (.ok answer, m) ∧ s.make c = ⟨m, answer :: s.given⟩) ∨
      ∃ failure m, c.perform.apply s.model = (.error failure, m) ∧ s.make c = ⟨m, s.given⟩ := by
  unfold make
  split
  · rename_i answer m done
    exact .inl ⟨answer, m, done, rfl⟩
  · rename_i failure m failed
    exact .inr ⟨failure, m, failed, rfl⟩

theorem runInvariant {P : Session → Prop} (step : ∀ s c, P s → P (s.make c)) {s : Session}
    (holds : P s) (cs : List Call) : P (s.run cs) := by
  induction cs generalizing s with
  | nil => exact holds
  | cons c cs ih => exact ih (step s c holds)

theorem orderlyInvariant {P : Session → Prop}
    (step : ∀ s c, (∀ p, c.parent? = some p → .node p ∈ s.given) → s.misuses c = false → P s →
      P (s.make c)) {s : Session} {cs : List Call} (holds : P s) (orderly : s.orderly cs = true) :
    P (s.run cs) := by
  induction cs generalizing s with
  | nil => exact holds
  | cons c cs ih =>
    simp only [Session.orderly, Bool.and_eq_true, Bool.not_eq_true', Option.all_eq_true,
      List.contains_iff_mem] at orderly
    obtain ⟨⟨given, used⟩, later⟩ := orderly
    exact ih (step s c given used holds) later

end Session

inductive Turns (m : FeatureModel) (q : Option NodeId) (m' : FeatureModel) : Prop
  | beside (nodes : m'.nodes = m.nodes) (roots : m'.roots = m.roots)
  | adjust {n : NodeId} {old new : Node} (found : m.nodes[n.index]? = some old)
      (adjusts : m.Adjusts old new) (nodes : m'.nodes = m.nodes.setIfInBounds n.index new)
      (roots : m'.roots = m.roots)
  | top {f : FeatureId} (nodes : m'.nodes = (m.withNode f none).nodes)
      (roots : m'.roots = m.roots ++ [⟨m.nodes.size⟩])
  | below {f : FeatureId} {p : NodeId} {above : Node} (named : q = some p)
      (found : (m.withNode f (some p)).nodes[p.index]? = some above)
      (nodes : m'.nodes = ((m.withNode f (some p)).setNode p
        { above with children := above.children ++ [⟨m.nodes.size⟩] }).nodes)
      (roots : m'.roots = m.roots)
  | astray {f : FeatureId} {p : NodeId} (named : q = some p) (missing : m.nodes.size < p.index)
      (nodes : m'.nodes = (m.withNode f (some p)).nodes) (roots : m'.roots = m.roots)

namespace Turns
variable {m m' : FeatureModel} {q : Option NodeId} {c : Call}

theorem ofEdit (edit : Edit m m') : Turns m q m' := by
  obtain ⟨change, size⟩ := edit
  cases change with
  | declare | describe | constrain => exact .beside rfl rfl
  | adjust found adjusts => exact .adjust found adjusts rfl rfl
  | addRoot | addChild =>
    simp [FeatureModel.withNode, FeatureModel.setNode] at size

theorem ofSuccess {answer : Answer} (done : c.perform.apply m = (.ok answer, m')) :
    Turns m c.parent? m' := by
  cases c with
  | addRoot f =>
    obtain ⟨n, done, -⟩ := Build.applyReturnOk.mp done
    obtain ⟨-, rfl⟩ := Build.addRootOk.mp done
    exact .top rfl rfl
  | addChild p f =>
    obtain ⟨n, done, -⟩ := Build.applyReturnOk.mp done
    obtain ⟨above, found, -, rfl⟩ := Build.addChildOk.mp done
    exact .below rfl found rfl rfl
  | addRootFeature name =>
    obtain ⟨n, done, -⟩ := Build.applyReturnOk.mp done
    obtain ⟨f, middle, declared, placed⟩ := Build.applyBindOk.mp done
    obtain ⟨-, -, rfl⟩ := Build.declareOk.mp declared
    obtain ⟨-, rfl⟩ := Build.addRootOk.mp placed
    exact .top rfl rfl
  | addChildFeature p name =>
    obtain ⟨n, done, -⟩ := Build.applyReturnOk.mp done
    obtain ⟨f, middle, declared, placed⟩ := Build.applyBindOk.mp done
    obtain ⟨-, -, rfl⟩ := Build.declareOk.mp declared
    obtain ⟨above, found, -, rfl⟩ := Build.addChildOk.mp placed
    exact .below rfl found rfl rfl
  | _ => exact ofEdit (Call.edits rfl done)

theorem ofFailure {failure : Failure} (failed : c.perform.apply m = (.error failure, m')) :
    Turns m c.parent? m' := by
  cases Call.failed failed with
  | nothing => exact .beside rfl rfl
  | child missing => exact .astray rfl missing rfl rfl
  | childFeature _ missing => exact .astray rfl missing rfl rfl

theorem make (s : Session) (c : Call) : Turns s.model c.parent? (s.make c).model := by
  rcases s.makeCases c with ⟨answer, m, done, made⟩ | ⟨failure, m, failed, made⟩
  · rw [made]
    exact ofSuccess done
  · rw [made]
    exact ofFailure failed

theorem noneLost (turns : Turns m q m') : m.nodes.size ≤ m'.nodes.size := by
  cases turns <;> simp_all [FeatureModel.withNode, FeatureModel.setNode]

end Turns

/-- Every node in a list of children has the owner of the list as its parent and does not come
before it; roots have no parent. Parents that are not there, and nodes outside of all lists, are
allowed. -/
structure Owned (nodes : Array Node) (tops : List NodeId) : Prop where
  children : ∀ {p : Nat} {above : Node}, nodes[p]? = some above → ∀ c ∈ above.children,
    p ≤ c.index ∧ ∃ n, nodes[c.index]? = some n ∧ n.parent = some ⟨p⟩
  childrenSorted : ∀ {p : Nat} {above : Node}, nodes[p]? = some above →
    above.children.Pairwise (·.index < ·.index)
  roots : ∀ c ∈ tops, ∃ n, nodes[c.index]? = some n ∧ n.parent = none
  rootsSorted : tops.Pairwise (·.index < ·.index)

namespace Owned
variable {nodes : Array Node} {tops : List NodeId}

theorem empty : Owned #[] [] := by
  constructor <;> simp

theorem pushedStill {c : NodeId} {up : Option NodeId} {new : Node}
    (there : ∃ n, nodes[c.index]? = some n ∧ n.parent = up) :
    ∃ n, (nodes.push new)[c.index]? = some n ∧ n.parent = up := by
  obtain ⟨n, found, same⟩ := there
  exact ⟨n, pushEqSome.mpr (.inl found), same⟩

theorem push (o : Owned nodes tops) {new : Node} (childless : new.children = []) :
    Owned (nodes.push new) tops where
  children := by
    intro p above found c inside
    rcases pushEqSome.mp found with old | ⟨-, rfl⟩
    · obtain ⟨late, there⟩ := o.children old c inside
      exact ⟨late, pushedStill there⟩
    · rw [childless] at inside
      cases inside
  childrenSorted := by
    intro p above found
    rcases pushEqSome.mp found with old | ⟨-, rfl⟩
    · exact o.childrenSorted old
    · exact childless ▸ .nil
  roots c inside := pushedStill (o.roots c inside)
  rootsSorted := o.rootsSorted

theorem replace (o : Owned nodes tops) {k : Nat} {old new : Node} (found : nodes[k]? = some old)
    (parent : new.parent = old.parent)
    (children : ∀ c ∈ new.children,
      k ≤ c.index ∧ ∃ n, nodes[c.index]? = some n ∧ n.parent = some ⟨k⟩)
    (sorted : new.children.Pairwise (·.index < ·.index)) :
    Owned (nodes.setIfInBounds k new) tops := by
  have still : ∀ {c : NodeId} {up : Option NodeId},
      (∃ n, nodes[c.index]? = some n ∧ n.parent = up) →
      ∃ n, (nodes.setIfInBounds k new)[c.index]? = some n ∧ n.parent = up := by
    intro c up there
    obtain ⟨n, stored, same⟩ := there
    by_cases here : c.index = k
    · subst here
      cases found.symm.trans stored
      exact ⟨new, setEqSome.mpr (.inr ⟨rfl, storedBelow found, rfl⟩), parent.trans same⟩
    · exact ⟨n, setEqSome.mpr (.inl ⟨here, stored⟩), same⟩
  constructor
  case children =>
    intro p above stored c inside
    rcases setEqSome.mp stored with ⟨-, before⟩ | ⟨rfl, -, rfl⟩
    · exact (o.children before c inside).imp_right still
    · exact (children c inside).imp_right still
  case childrenSorted =>
    intro p above stored
    rcases setEqSome.mp stored with ⟨-, before⟩ | ⟨rfl, -, rfl⟩
    · exact o.childrenSorted before
    · exact sorted
  case roots => exact fun c inside => still (o.roots c inside)
  case rootsSorted => exact o.rootsSorted

theorem rootBelow (o : Owned nodes tops) {c : NodeId} (inside : c ∈ tops) :
    c.index < nodes.size := by
  obtain ⟨n, found, -⟩ := o.roots c inside
  exact storedBelow found

variable {m m' : FeatureModel}

theorem top (o : Owned m.nodes m.roots) {f : FeatureId} :
    Owned (m.withNode f none).nodes (m.roots ++ [⟨m.nodes.size⟩]) where
  children := (o.push rfl).children
  childrenSorted := (o.push rfl).childrenSorted
  roots := by
    intro c inside
    rcases List.mem_append.mp inside with old | last
    · exact (o.push rfl).roots c old
    · cases List.mem_singleton.mp last
      exact ⟨_, pushEqSome.mpr (.inr ⟨rfl, rfl⟩), rfl⟩
  rootsSorted := Linked.sortedSnoc o.rootsSorted fun c => o.rootBelow

theorem below (o : Owned m.nodes tops) {f : FeatureId} {p : NodeId} {above : Node}
    (found : (m.withNode f (some p)).nodes[p.index]? = some above) :
    Owned ((m.withNode f (some p)).setNode p
      { above with children := above.children ++ [⟨m.nodes.size⟩] }).nodes tops := by
  have grown : Owned (m.withNode f (some p)).nodes tops := o.push rfl
  -- the parent may be the new node itself, which has no children yet
  have early : ∀ c ∈ above.children, c.index < m.nodes.size := by
    intro c inside
    rcases pushEqSome.mp found with old | ⟨-, rfl⟩
    · obtain ⟨-, n, stored, -⟩ := o.children old c inside
      exact storedBelow stored
    · cases inside
  refine grown.replace found rfl ?_ (Linked.sortedSnoc (grown.childrenSorted found) early)
  intro c inside
  rcases List.mem_append.mp inside with old | last
  · exact grown.children found c old
  · cases List.mem_singleton.mp last
    have room := storedBelow found
    simp only [FeatureModel.withNode, Array.size_push] at room
    exact ⟨Nat.le_of_lt_succ room, _, pushEqSome.mpr (.inr ⟨rfl, rfl⟩), rfl⟩

theorem turn {q : Option NodeId} (o : Owned m.nodes m.roots) (turns : Turns m q m') :
    Owned m'.nodes m'.roots := by
  cases turns with
  | beside nodes roots => exact nodes ▸ roots ▸ o
  | adjust found adjusts nodes roots =>
    rw [nodes, roots]
    refine o.replace found adjusts.parent ?_ (adjusts.children ▸ o.childrenSorted found)
    rw [adjusts.children]
    exact o.children found
  | top nodes roots =>
    rw [nodes, roots]
    exact o.top
  | below named found nodes roots =>
    rw [nodes, roots]
    exact o.below found
  | astray named missing nodes roots =>
    rw [nodes, roots]
    exact o.push rfl

end Owned

namespace Linked
variable {m m' : FeatureModel} {q : Option NodeId}

theorem turn (l : Linked m.nodes m.roots) (there : ∀ p, q = some p → p.index < m.nodes.size)
    (turns : Turns m q m') : Linked m'.nodes m'.roots := by
  cases turns with
  | beside nodes roots => exact nodes ▸ roots ▸ l
  | adjust found adjusts nodes roots =>
    rw [nodes, roots]
    exact l.adjust found adjusts
  | top nodes roots =>
    rw [nodes, roots]
    exact l.grow (by simp) FeatureModel.rootGrown
  | @below f p above named found nodes roots =>
    have inside := there p named
    rw [nodes, roots]
    exact l.grow (by simp [inside]) (l.childGrown (FeatureModel.withNodeOld inside ▸ found))
  | astray named missing => exact absurd (there _ named) (Nat.not_lt_of_gt missing)

end Linked

namespace Session
variable {s : Session} {c : Call}

def Kept (s : Session) : Prop := ∀ p, .node p ∈ s.given → p.index < s.model.nodes.size

theorem Kept.make (kept : s.Kept) : (s.make c).Kept := by
  have noneLost := (Turns.make s c).noneLost
  rcases s.makeCases c with ⟨answer, m, done, made⟩ | ⟨failure, m, failed, made⟩
  all_goals
    rw [made] at noneLost ⊢
    intro p inside
  · rcases List.mem_cons.mp inside with rfl | old
    · exact Call.answerThere done
    · exact Nat.lt_of_lt_of_le (kept p old) noneLost
  · exact Nat.lt_of_lt_of_le (kept p inside) noneLost

theorem owned (cs : List Call) : Owned (start.run cs).model.nodes (start.run cs).model.roots :=
  runInvariant (P := fun s => Owned s.model.nodes s.model.roots)
    (fun s c owned => owned.turn (Turns.make s c)) .empty cs

theorem linked {cs : List Call} (orderly : start.orderly cs = true) :
    Linked (start.run cs).model.nodes (start.run cs).model.roots := by
  refine (orderlyInvariant (P := fun s => s.Kept ∧ Linked s.model.nodes s.model.roots) ?_ ?_
    orderly).2
  · intro s c given _ holds
    obtain ⟨kept, linked⟩ := holds
    exact ⟨kept.make, linked.turn (fun p named => kept p (given p named)) (Turns.make s c)⟩
  · exact ⟨fun p inside => (nomatch inside), WellFormed.empty.linked⟩

end Session
end ProductLine
