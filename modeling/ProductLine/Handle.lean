/-!
Handles: positions in the stores of features, tree nodes, groups of one node, and instances. They
are kept apart by type, so one kind never stands for another.
-/
namespace ProductLine

structure FeatureId where
  index : Nat
  deriving DecidableEq, Repr

structure NodeId where
  index : Nat
  deriving DecidableEq, Repr

structure GroupId where
  index : Nat
  deriving DecidableEq, Repr

structure InstanceId where
  index : Nat
  deriving DecidableEq, Repr

def GroupId.first : GroupId := ⟨0⟩

def FeatureId.render (f : FeatureId) : String := "f" ++ toString f.index
def NodeId.render (n : NodeId) : String := "n" ++ toString n.index
def GroupId.render (g : GroupId) : String := "g" ++ toString g.index
def InstanceId.render (i : InstanceId) : String := "i" ++ toString i.index

instance : Ord FeatureId := ⟨compareOn FeatureId.index⟩
instance : Std.TransOrd FeatureId := inferInstanceAs (Std.TransCmp (compareOn FeatureId.index))
instance : Std.LawfulEqOrd FeatureId where
  compare_self {f} := @Std.ReflCmp.compare_self _ compare _ f.index
  eq_of_compare {f g} h := by
    obtain ⟨i⟩ := f
    obtain ⟨j⟩ := g
    exact congrArg FeatureId.mk (Std.LawfulEqCmp.eq_of_compare (show compare i j = .eq from h))

instance : Ord NodeId := ⟨compareOn NodeId.index⟩
instance : Std.TransOrd NodeId := inferInstanceAs (Std.TransCmp (compareOn NodeId.index))
instance : Std.LawfulEqOrd NodeId where
  compare_self {n} := @Std.ReflCmp.compare_self _ compare _ n.index
  eq_of_compare {n m} h := by
    obtain ⟨i⟩ := n
    obtain ⟨j⟩ := m
    exact congrArg NodeId.mk (Std.LawfulEqCmp.eq_of_compare (show compare i j = .eq from h))

end ProductLine
