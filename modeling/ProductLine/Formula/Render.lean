import ProductLine.Formula.Basic

/-!
The text of formulas. Conjunctions and disjunctions are written between their operands, counting
connectives before them; a conjunction of nothing reads as true, a disjunction of nothing as false.
-/
namespace ProductLine

def Connective.head : Connective → String
  | and | or => ""
  | choose k => "choose" ++ toString k.toNat
  | atLeast k => "atleast" ++ toString k.toNat
  | atMost k => "atmost" ++ toString k.toNat
  | between low high => "between" ++ toString low.toNat ++ ".." ++ toString high.toNat

def Connective.separator : Connective → String
  | and => " & "
  | or => " | "
  | _ => ", "

def Connective.render : Connective → List String → String
  | and, [] => "true"
  | or, [] => "false"
  | c, texts => c.head ++ "(" ++ c.separator.intercalate texts ++ ")"

namespace Formula

mutual

def render : Formula → String
  | constant true => "true"
  | constant false => "false"
  | literal name => name
  | comparison op lhs rhs => "(" ++ lhs.render ++ " " ++ op.render ++ " " ++ rhs.render ++ ")"
  | not f => "!" ++ f.render
  | implies f g => "(" ++ f.render ++ " => " ++ g.render ++ ")"
  | iff f g => "(" ++ f.render ++ " <=> " ++ g.render ++ ")"
  | join c fs => c.render (renderAll fs)

def renderAll : List Formula → List String
  | [] => []
  | f :: fs => f.render :: renderAll fs

end

theorem renderAllMap (fs : List Formula) : renderAll fs = fs.map render := by
  induction fs with
  | nil => rfl
  | cons f fs ih => simp [renderAll, ih]

end Formula
end ProductLine
