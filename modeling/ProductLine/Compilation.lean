import ProductLine.Encoding.Unrolling
import ProductLine.Encoding.Merging
import ProductLine.Copy
import ProductLine.Formula.Evaluation

/-!
Compiling a feature model into a conjunction. Either encoding of the forest is followed by the
constraints: the full one takes the plain constraints as they are and copies the others, the simple
one restates them all. Models that no encoding can handle are rejected before either starts.
-/
namespace ProductLine

inductive Encoding where
  /-- Clones have subtrees of their own. -/
  | full
  /-- Clones share what lies below them. -/
  | simple
  deriving DecidableEq, Repr

def Encoding.render : Encoding → String
  | full => "full"
  | simple => "simple"

structure Settings where
  encoding : Encoding := .full
  missing : MissingPolicy := .fail
  deriving DecidableEq, Repr

structure Compiled where
  conjuncts : List Formula
  symbols : SortedSet Variable

namespace Compiled

def formula (c : Compiled) : Formula := .and c.conjuncts

def hasConjunct (c : Compiled) (f : Formula) : Bool := c.conjuncts.any (·.same f)

def booleans (c : Compiled) : List String :=
  (c.symbols.toList.filter (·.sort == .boolean)).map Variable.name

def chosen (names : List String) (mask : Nat) : List String :=
  (names.zipIdx.filter fun entry => mask.testBit entry.2).map Prod.fst

def truthTable (c : Compiled) : List (Option Bool) :=
  (List.range (1 <<< c.booleans.length)).map fun mask =>
    c.formula.evaluate (.selecting c.booleans (chosen c.booleans mask))

def ofConjuncts (given : SortedSet Variable) (conjuncts : List Formula) : Compiled where
  conjuncts := conjuncts
  symbols := given.insertMany (conjuncts.flatMap fun f => f.symbols.toList)

end Compiled

namespace FeatureModel

def checkConstraint (m : FeatureModel) (c : Constraint) : Except Failure Unit := do
  if m.hasRepeatedNode && c.formula.containsAggregate then
    throw (.rejected (.aggregateCardinalityConflict c.formula))
  c.referenced.forM fun f => do
    let feature ← m.feature f
    let _ ← feature.sort

def check (m : FeatureModel) : Except Failure Unit := do
  if m.roots.isEmpty then throw (.rejected .noRoot)
  m.constraints.toList.forM m.checkConstraint

def compileFull (m : FeatureModel) (policy : MissingPolicy) : Except Failure Compiled := do
  let unrolled ← m.unroll
  let buckets ← m.buckets
  let plain ← buckets.plain.mapM fun i => Constraint.formula <$> m.constraint i
  let copies ← (CopySource.mk m unrolled.roster policy).copies buckets
  return .ofConjuncts unrolled.symbols (unrolled.conjuncts ++ plain ++ copies)

def compileSimple (m : FeatureModel) : Except Failure Compiled := do
  let merged ← m.merge
  return .ofConjuncts merged.symbols merged.conjuncts

def compile (m : FeatureModel) (settings : Settings) : Except Failure Compiled := do
  m.check
  match settings.encoding with
  | .full => m.compileFull settings.missing
  | .simple => m.compileSimple

end FeatureModel
end ProductLine
