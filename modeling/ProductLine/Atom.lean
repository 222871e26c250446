import ProductLine.Failure

/-!
The variable and the atomic formula that stand for a feature under an identifier. A boolean feature
is a literal; a numeric one is selected when its value is not zero.
-/
namespace ProductLine

def Variable.selected (v : Variable) : Formula :=
  match v.sort with
  | .boolean => .literal v.name
  | .integer => .comparison .notEqual (.var v) (.constant (.int 0))
  | .float => .comparison .notEqual (.var v) (.constant (.float .zero))

namespace Feature

def sort (f : Feature) : Except Failure ValueSort :=
  match f.type.sort? with
  | some s => .ok s
  | none => .error (.rejected (.unsupportedFeatureType f.name f.type))

def symbol (f : Feature) (identifier : String) : Except Failure Variable :=
  Variable.mk identifier <$> f.sort

def formula (f : Feature) (identifier : String) : Except Failure Formula :=
  Variable.selected <$> f.symbol identifier

def plainFormula (f : Feature) : Except Failure Formula := f.formula f.name

end Feature
end ProductLine
