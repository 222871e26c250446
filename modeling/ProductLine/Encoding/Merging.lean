import ProductLine.Encoding.Spread
import ProductLine.Formula.Substitution

/-!
The simple encoding: the clones of a repeated node share what lies below it. Wherever such a node
is spoken of, any of its clones stands for it; its own value is then that of no single variable, so
a constraint that asks for the value is rejected.
-/
namespace ProductLine

structure Merging where
  conjuncts : List Formula
  symbols : SortedSet Variable

namespace Placed

def merged (p : Placed) : Formula := (p.spread none).term

def mergedConditions (p : Placed) (parent : Formula) : List Formula :=
  (p.spread none).steps.flatMap (fun step => step.2.conditions parent step.1) ++
    (p.spread none).lowerBound parent p.node.cardinality.lower

def replacement (p : Placed) : Formula × Formula :=
  ((Variable.mk p.feature.name p.sort).selected, p.merged)

end Placed

namespace Tree

mutual

def mergedBody : Tree → List Formula
  | mk p ts => p.groupConjuncts p.merged none (ts.map place) ++ mergedBelow p.merged ts

def mergedBelow (parent : Formula) : List Tree → List Formula
  | [] => []
  | t :: ts => t.place.mergedConditions parent ++ t.mergedBody ++ mergedBelow parent ts

end

end Tree

namespace Merging

def restate (repeated : List Placed) (c : Constraint) : Except Failure Formula :=
  let restated := c.formula.substitute (Formula.firstReplacement (repeated.map Placed.replacement))
  match repeated.find? fun p => restated.mentionsVariable p.feature.name with
  | some p => .error (.rejected (.ambiguousFeatureValue p.feature.name "model"))
  | none => .ok restated

end Merging

def FeatureModel.merge (m : FeatureModel) : Except Failure Merging := do
  let trees ← m.forest
  let places := trees.flatMap Tree.places
  let restated ← m.constraints.toList.mapM
    (Merging.restate (places.filter fun p => p.node.isRepeated))
  return {
    conjuncts := trees.flatMap (fun t => t.place.rootConjuncts ++ t.mergedBody) ++ restated
    symbols := .ofList
      (places.flatMap fun p => (p.spread none).occurrences.map Occurrence.symbol) }

end ProductLine
