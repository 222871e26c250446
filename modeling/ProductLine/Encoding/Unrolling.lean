import ProductLine.Encoding.Spread
import ProductLine.Roster

/-!
The full encoding: each clone of a repeated node has a subtree of its own. Below a clone, every
identifier ends in that of the parent, so an occurrence is named by its way up to the topmost clone.
The conjuncts and the roster list the same occurrences in the same order.
-/
namespace ProductLine

structure Unrolling where
  conjuncts : List Formula
  roster : Roster

namespace Tree

mutual

def unrolled (o : Occurrence) : Tree → List Formula
  | mk p ts => p.groupConjuncts o.term o.suffix? (ts.map place) ++ unrolledBelow o ts

def unrolledBelow (o : Occurrence) : List Tree → List Formula
  | [] => []
  | t :: ts =>
    let spread := t.place.spread o.suffix?
    spread.steps.flatMap (fun step => step.2.conditions o.term step.1 ++ t.unrolled step.2) ++
      spread.lowerBound o.term t.place.node.cardinality.lower ++ unrolledBelow o ts

end

mutual

def enter (parent : Option InstanceId) (o : Occurrence) : Tree → Roster → Roster
  | mk p ts, r =>
    enterBelow r.nextId o ts
      (r.enter ⟨p.node.id, p.feature.id, parent, o.symbol.name, o.index, o.term⟩)

def enterBelow (parent : InstanceId) (o : Occurrence) : List Tree → Roster → Roster
  | [], r => r
  | t :: ts, r =>
    enterBelow parent o ts
      ((t.place.spread o.suffix?).occurrences.foldl (fun r x => t.enter (some parent) x r) r)

end

def occurrence (t : Tree) : Occurrence := t.place.occurrence none none

end Tree

namespace Unrolling

def ofForest (trees : List Tree) : Unrolling where
  conjuncts := trees.flatMap fun t => t.place.rootConjuncts ++ t.unrolled t.occurrence
  roster := trees.foldl (fun r t => t.enter none t.occurrence r) .empty

def symbols (u : Unrolling) : SortedSet Variable :=
  .ofList (u.roster.instances.toList.flatMap fun i => i.term.ownSymbols)

end Unrolling

def FeatureModel.unroll (m : FeatureModel) : Except Failure Unrolling :=
  Unrolling.ofForest <$> m.forest

end ProductLine
