import ProductLine.Handle
import ProductLine.Term

/-!
Features: named, typed things that may carry attributes, whether or not they have a place in a
tree.
-/
namespace ProductLine

inductive FeatureType where
  | boolean | integer | float | text
  deriving DecidableEq, Repr

namespace FeatureType

def render : FeatureType → String
  | boolean => "boolean"
  | integer => "integer"
  | float => "float"
  | text => "text"

def isNumeric : FeatureType → Bool
  | integer | float => true
  | boolean | text => false

def sort? : FeatureType → Option ValueSort
  | boolean => some .boolean
  | integer => some .integer
  | float => some .float
  | text => none

end FeatureType

inductive AttributeValue where
  | scalar (v : Value)
  | text (s : String)
  deriving DecidableEq, Repr

structure Feature where
  id : FeatureId
  name : String
  type : FeatureType
  attributes : SortedMap String AttributeValue
  deriving DecidableEq, Repr

end ProductLine
