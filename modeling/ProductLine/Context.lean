import ProductLine.Model.Navigation
import ProductLine.SortedSet

/-!
Contexts. A node belongs to the nearest repeated node, itself first and then upwards, and to the
root context if there is none. Constraints are sorted into buckets by the set of contexts of the
features that they refer to; a feature without a place belongs to the root context.
-/
namespace ProductLine

inductive Context where
  | root
  | within (repeated : NodeId)
  deriving DecidableEq, Repr

namespace Context

def node? : Context → Option NodeId
  | root => none
  | within n => some n

def ofNode? : Option NodeId → Context
  | none => root
  | some n => within n

def render : Context → String
  | root => "root"
  | within n => n.render

instance : Ord Context := ⟨compareOn node?⟩
instance : Std.TransOrd Context := inferInstanceAs (Std.TransCmp (compareOn node?))

instance : Std.LawfulEqOrd Context where
  compare_self {c} := @Std.ReflCmp.compare_self _ compare _ c.node?
  eq_of_compare {c d} h := by
    have same := Std.LawfulEqCmp.eq_of_compare (show compare c.node? d.node? = .eq from h)
    cases c <;> cases d <;> simp_all [node?]

end Context

abbrev ContextSet := SortedSet Context

namespace ContextSet

def nodes (contexts : ContextSet) : List NodeId := contexts.toList.filterMap Context.node?

end ContextSet

inductive Scope where
  /-- No repeated node is concerned. -/
  | plain
  /-- One repeated node and nothing else. -/
  | inside (repeated : NodeId)
  /-- A repeated node, and something that does not belong to it. -/
  | across
  deriving DecidableEq, Repr

def ContextSet.scope (contexts : ContextSet) : Scope :=
  match contexts.nodes with
  | [] => .plain
  | n :: _ => if contexts.toList.length = 1 then .inside n else .across

namespace FeatureModel

def repeatedAt (m : FeatureModel) (n : NodeId) : Except Failure (Option NodeId) := do
  if ← m.isRepeated n then return some n
  (m.lineage n).nearest m.repeats

def context (m : FeatureModel) (f : FeatureId) : Except Failure Context :=
  match m.placement f with
  | none => .ok .root
  | some n => Context.ofNode? <$> m.repeatedAt n

def contexts (m : FeatureModel) (c : Constraint) : Except Failure ContextSet :=
  SortedSet.ofList <$> c.referenced.mapM m.context

end FeatureModel

structure Buckets where
  plain : List Nat := []
  byContexts : SortedMap ContextSet (List Nat) := .empty
  deriving DecidableEq, Repr

namespace Buckets

def add (b : Buckets) (contexts : ContextSet) (position : Nat) : Buckets :=
  match contexts.scope with
  | .plain => { b with plain := b.plain ++ [position] }
  | _ => { b with byContexts := b.byContexts.update contexts (·.getD [] ++ [position]) }

def ofContexts (all : List ContextSet) : Buckets :=
  all.zipIdx.foldl (fun b entry => b.add entry.1 entry.2) {}

end Buckets

def FeatureModel.buckets (m : FeatureModel) : Except Failure Buckets :=
  Buckets.ofContexts <$> m.constraints.toList.mapM m.contexts

end ProductLine
