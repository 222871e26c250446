import Mathlib.Data.List.Nodup
import ProductLine.Formula.Render

/-!
The words and signs in the text of a formula. Names and constants are words that can be told apart,
and an operator can be told from the word before the bracket and from what stands between the
operands.
-/
namespace ProductLine

def Identifier (name : String) : Prop :=
  name.toList.head?.any Char.isAlpha = true ∧
  name.toList.all (fun c => c.isAlphanum || c == '_' || c == '.') = true ∧
  name ≠ "true" ∧ name ≠ "false"

instance (name : String) : Decidable (Identifier name) := by
  unfold Identifier
  infer_instance

def Value.isFloat : Value → Bool
  | float _ => true
  | _ => false

inductive Operator where
  | sum | average
  | compare (op : Comparison)
  | implies | iff
  | join (c : Connective)

inductive Leaf where
  | name (text : String)
  | constant (c : Value)

namespace Operator

def head : Operator → String
  | sum => "sum"
  | average => "avg"
  | join c => c.head
  | compare _ | implies | iff => ""

def separator : Operator → String
  | compare op => " " ++ op.render ++ " "
  | implies => " => "
  | iff => " <=> "
  | join c => c.separator
  | sum | average => ", "

/-- How many operands can stand in the brackets. Fewer than two are never joined by `or`: their
text would be that of a truth value or of a conjunction. -/
def Takes (n : Nat) : Operator → Prop
  | sum | average => n = 1
  | compare _ | implies | iff => n = 2
  | join .and => 1 ≤ n
  | join .or => 2 ≤ n
  | join _ => True

end Operator

section Stretches
variable {α : Type} {p : α → Bool} {u v x y : List α}

theorem stretchOnce (left : u.all p = true) (right : v.all p = true)
    (ends : ∀ c ∈ x.head?, p c = false) (ends' : ∀ c ∈ y.head?, p c = false)
    (same : u ++ x = v ++ y) : u = v ∧ x = y := by
  have none : ∀ {z : List α}, (∀ c ∈ z.head?, p c = false) → z.takeWhile p = [] := by
    intro z ends
    cases z with
    | nil => rfl
    | cons c z => rw [List.takeWhile_cons, ends c rfl, if_neg Bool.false_ne_true]
  have stretches := congrArg (List.takeWhile p) same
  rw [List.takeWhile_append_of_pos (List.all_eq_true.mp left),
    List.takeWhile_append_of_pos (List.all_eq_true.mp right), none ends, none ends',
    List.append_nil, List.append_nil] at stretches
  subst stretches
  exact ⟨rfl, List.append_cancel_left same⟩

theorem separatedOnce [DecidableEq α] {c : α} (left : c ∉ u) (right : c ∉ v)
    (same : u ++ c :: x = v ++ c :: y) : u = v ∧ x = y := by
  have free : ∀ {z : List α}, c ∉ z → z.all (· != c) = true := by
    intro z absent
    refine List.all_eq_true.mpr fun d inside => bne_iff_ne.mpr ?_
    rintro rfl
    exact absent inside
  obtain ⟨stretches, tails⟩ := stretchOnce (free left) (free right) (by simp) (by simp) same
  exact ⟨stretches, List.tail_eq_of_cons_eq tails⟩

end Stretches

section Words
variable {x y : List Char}

def inWord (c : Char) : Bool := c.isAlphanum || c == '_' || c == '.' || c == '-'

def Unbroken (s : String) : Prop := s.toList.all inWord = true

instance (s : String) : Decidable (Unbroken s) := by
  unfold Unbroken
  infer_instance

theorem Unbroken.append {s t : String} (left : Unbroken s) (right : Unbroken t) :
    Unbroken (s ++ t) := by
  unfold Unbroken
  rw [String.toList_append, List.all_append, Bool.and_eq_true]
  exact ⟨left, right⟩

/-- Nothing is written here that could belong to a phrase before it. -/
def Stops (rest : List Char) : Prop := ∀ c ∈ rest.head?, c ∈ [' ', ',', ')']

theorem Stops.nil : Stops [] := by simp [Stops]

theorem Stops.ends (stops : Stops x) : ∀ c ∈ x.head?, inWord c = false := by
  intro c first
  have listed := stops c first
  simp only [List.mem_cons, List.not_mem_nil, or_false] at listed
  rcases listed with rfl | rfl | rfl <;> rfl

theorem Stops.apart {c : Char} (stops : Stops x) (other : c ∉ [' ', ',', ')']) : x ≠ c :: y := by
  rintro rfl
  exact other (stops c rfl)

end Words

section Numerals
variable {i j : Nat} {m n : Int}

theorem digitsOnce (same : Nat.toDigits 10 i = Nat.toDigits 10 j) : i = j := by
  have values := congrArg (fun ds => Nat.ofDigitChars 10 ds 0) same
  simpa using values

theorem digitsNumeric : (Nat.toDigits 10 i).all Char.isDigit = true :=
  List.all_eq_true.mpr fun _ => Nat.isDigit_of_mem_toDigits (by decide) (by decide)

theorem digitsLack {c : Char} (other : c.isDigit = false) : c ∉ Nat.toDigits 10 i := by
  intro inside
  rw [List.all_eq_true.mp digitsNumeric c inside] at other
  cases other

theorem integerDigits (n : Int) : (toString n).toList =
    if 0 ≤ n then Nat.toDigits 10 n.toNat else '-' :: Nat.toDigits 10 (-n).toNat := by
  rw [Int.toString_eq_repr, Int.repr_eq_if]
  split <;> simp [String.toList_append]

theorem integerWord : ∀ c ∈ (toString n).toList, c.isDigit = true ∨ c = '-' := by
  intro c inside
  rw [integerDigits] at inside
  split at inside
  · exact .inl (List.all_eq_true.mp digitsNumeric c inside)
  · exact (List.mem_cons.mp inside).symm.imp_left (List.all_eq_true.mp digitsNumeric c)

theorem integerOnce (same : (toString m).toList = (toString n).toList) : m = n := by
  rw [integerDigits, integerDigits] at same
  split at same <;> split at same
  · have := digitsOnce same
    omega
  · exact absurd (same ▸ List.mem_cons_self) (digitsLack rfl)
  · exact absurd (same ▸ List.mem_cons_self) (digitsLack rfl)
  · have := digitsOnce (List.tail_eq_of_cons_eq same)
    omega

theorem integerUnbroken (n : Int) : Unbroken (toString n) := by
  refine List.all_eq_true.mpr fun c inside => ?_
  rcases integerWord c inside with digit | rfl
  · simp [inWord, Char.isAlphanum, digit]
  · decide

theorem digitLetterless {c : Char} (digit : c.isDigit = true) : c.isAlpha = false := by
  refine Bool.eq_false_iff.mpr fun letter => ?_
  have low : c.val ≤ '9'.val := of_decide_eq_true (Bool.and_eq_true_iff.mp digit).2
  have high : 'A'.val ≤ c.val := by
    rcases Bool.or_eq_true_iff.mp letter with upper | lower
    · exact (of_decide_eq_true upper).1
    · have above : 'a'.val ≤ c.val := of_decide_eq_true (Bool.and_eq_true_iff.mp lower).1
      exact UInt32.le_trans (by decide) above
  exact absurd (UInt32.le_trans high low) (by decide)

theorem integerLetterless (n : Int) : (toString n).toList.any Char.isAlpha = false := by
  refine List.any_eq_false.mpr fun c inside => Bool.not_eq_true _ ▸ ?_
  rcases integerWord c inside with digit | rfl
  · exact digitLetterless digit
  · rfl

theorem countOnce {k l : UInt32}
    (same : Nat.toDigits 10 k.toNat = Nat.toDigits 10 l.toNat) : k = l :=
  UInt32.toNat_inj.mp (digitsOnce same)

end Numerals

theorem Connective.headOnce {c d : Connective} (present : c.head ≠ "") (same : c.head = d.head) :
    c = d := by
  have chars := congrArg String.toList same
  cases c with
  | and | or => exact absurd rfl present
  | choose k =>
    cases d with
    | choose l =>
      have counts : Nat.toDigits 10 k.toNat = Nat.toDigits 10 l.toNat := by
        simpa [head, String.toList_append] using chars
      rw [countOnce counts]
    | _ => simp [head, String.toList_append] at chars
  | atLeast k =>
    cases d with
    | atLeast l =>
      have counts : Nat.toDigits 10 k.toNat = Nat.toDigits 10 l.toNat := by
        simpa [head, String.toList_append] using chars
      rw [countOnce counts]
    | _ => simp [head, String.toList_append] at chars
  | atMost k =>
    cases d with
    | atMost l =>
      have counts : Nat.toDigits 10 k.toNat = Nat.toDigits 10 l.toNat := by
        simpa [head, String.toList_append] using chars
      rw [countOnce counts]
    | _ => simp [head, String.toList_append] at chars
  | between low high =>
    cases d with
    | between low' high' =>
      have counts : Nat.toDigits 10 low.toNat ++ '.' :: '.' :: Nat.toDigits 10 high.toNat =
          Nat.toDigits 10 low'.toNat ++ '.' :: '.' :: Nat.toDigits 10 high'.toNat := by
        simpa [head, String.toList_append] using chars
      obtain ⟨lows, dotted⟩ := separatedOnce (digitsLack rfl) (digitsLack rfl) counts
      rw [countOnce lows, countOnce (List.tail_eq_of_cons_eq dotted)]
    | _ => simp [head, String.toList_append] at chars

namespace Operator
variable {o o' : Operator} {n : Nat}

theorem headOnce (present : o.head ≠ "") (same : o.head = o'.head) : o = o' := by
  have chars := congrArg String.toList same
  cases o with
  | compare | implies | iff => exact absurd rfl present
  | sum | average =>
    cases o' with
    | join d => cases d <;> simp [head, Connective.head, String.toList_append] at chars
    | _ => simp_all [head]
  | join c =>
    cases o' with
    | join d => rw [Connective.headOnce present same]
    | compare | implies | iff => exact absurd same present
    | _ => cases c <;> simp [head, Connective.head, String.toList_append] at chars

def bare : List Operator :=
  [compare .equal, compare .notEqual, compare .less, compare .lessEqual, compare .greater,
    compare .greaterEqual, implies, iff, join .and, join .or]

theorem memBare (headless : o.head = "") : o ∈ bare := by
  cases o with
  | compare op => cases op <;> simp [bare]
  | implies | iff => simp [bare]
  | join c => cases c <;> simp_all [bare, head, Connective.head]
  | _ => exact absurd headless (by decide)

theorem bareSeparators : (bare.map separator).Nodup := by decide

theorem bareSingle (few : n < 2) (takes : o.Takes n) (headless : o.head = "") :
    o = join .and := by
  cases o with
  | sum | average => exact absurd headless (by decide)
  | compare | implies | iff =>
    have two : n = 2 := takes
    omega
  | join c =>
    cases c with
    | and => rfl
    | or => exact absurd takes (Nat.not_le_of_lt few)
    | _ => simp [head, Connective.head] at headless

theorem once (takes : o.Takes n) (takes' : o'.Takes n) (heads : o.head = o'.head)
    (separators : 2 ≤ n → o.separator = o'.separator) : o = o' := by
  by_cases headless : o.head = ""
  · by_cases few : n < 2
    · rw [bareSingle few takes headless, bareSingle few takes' (heads ▸ headless)]
    · exact List.inj_on_of_nodup_map bareSeparators (memBare headless)
        (memBare (heads ▸ headless)) (separators (Nat.le_of_not_lt few))
  · exact headOnce headless heads

theorem separatorShape (o : Operator) : ∃ first body,
    o.separator.toList = first :: body ++ [' '] ∧ first ∈ [' ', ','] ∧ ' ' ∉ body := by
  cases o with
  | sum | average => exact ⟨',', [], by decide⟩
  | compare op =>
    refine ⟨' ', op.render.toList, by simp [separator], by decide, ?_⟩
    cases op <;> decide
  | implies => exact ⟨' ', ['=', '>'], by decide⟩
  | iff => exact ⟨' ', ['<', '=', '>'], by decide⟩
  | join c =>
    cases c with
    | and => exact ⟨' ', ['&'], by decide⟩
    | or => exact ⟨' ', ['|'], by decide⟩
    | _ => exact ⟨',', [], by simp [separator, Connective.separator], by decide, by decide⟩

theorem headUnbroken (o : Operator) : Unbroken o.head := by
  have number : ∀ k : UInt32, Unbroken (toString k.toNat) := fun k => integerUnbroken k.toNat
  cases o with
  | sum | average => decide
  | compare | implies | iff => rfl
  | join c =>
    cases c with
    | and | or => decide
    | choose k => exact .append (by decide) (number k)
    | atLeast k => exact .append (by decide) (number k)
    | atMost k => exact .append (by decide) (number k)
    | between low high =>
      exact .append (.append (.append (by decide) (number low)) (by decide)) (number high)

end Operator

namespace Leaf
variable {l l' : Leaf}

def render : Leaf → String
  | name text => text
  | constant c => c.render

def Legible : Leaf → Prop
  | name text => Identifier text
  | constant c => c.isFloat = false

theorem unbroken (legible : l.Legible) : Unbroken l.render := by
  cases l with
  | name text =>
    refine List.all_eq_true.mpr fun c inside => ?_
    have listed := List.all_eq_true.mp legible.2.1 c inside
    rw [inWord, listed, Bool.true_or]
  | constant c =>
    cases c with
    | bool b => cases b <;> decide
    | int n => exact integerUnbroken n.toInt
    | float x => cases legible

theorem present (legible : l.Legible) : l.render.toList ≠ [] := by
  intro empty
  cases l with
  | name text =>
    have first := legible.1
    rw [show text.toList = [] from empty] at first
    cases first
  | constant c =>
    cases c with
    | bool b => cases b <;> exact absurd empty (by decide)
    | int n =>
      rw [render, Value.render, integerDigits] at empty
      split at empty
      · exact Nat.toDigits_ne_nil empty
      · cases empty
    | float x => cases legible

theorem nameApart {text : String} {c : Value} (identifier : Identifier text)
    (whole : c.isFloat = false) : c.render ≠ text := by
  rintro rfl
  obtain ⟨first, -, notTrue, notFalse⟩ := identifier
  cases c with
  | bool b =>
    cases b
    · exact notFalse rfl
    · exact notTrue rfl
  | int n =>
    obtain ⟨c, head, letter⟩ := (Option.any_eq_true ..).mp first
    exact List.any_eq_false.mp (integerLetterless n.toInt) c (List.mem_of_mem_head? head) letter
  | float x => cases whole

theorem constantOnce {c d : Value} (whole : c.isFloat = false) (whole' : d.isFloat = false)
    (same : c.render = d.render) : c = d := by
  have apart : ∀ (b : Bool) (n : Int64), (Value.bool b).render ≠ (Value.int n).render := by
    intro b n same
    have letterless := integerLetterless n.toInt
    rw [show toString n.toInt = (Value.bool b).render from same.symm] at letterless
    cases b <;> exact absurd letterless (by decide)
  cases c with
  | bool b =>
    cases d with
    | bool b' => cases b <;> cases b' <;> first | rfl | exact absurd same (by decide)
    | int n => exact absurd same (apart b n)
    | float x => cases whole'
  | int m =>
    cases d with
    | bool b => exact absurd same.symm (apart b m)
    | int n =>
      have numbers := integerOnce (congrArg String.toList same)
      exact congrArg Value.int (Int64.toInt_inj.mp numbers)
    | float x => cases whole'
  | float x => cases whole

theorem once (legible : l.Legible) (legible' : l'.Legible) (same : l.render = l'.render) :
    l = l' := by
  cases l with
  | name text =>
    cases l' with
    | name text' => exact congrArg name same
    | constant d => exact absurd same.symm (nameApart legible legible')
  | constant c =>
    cases l' with
    | name text' => exact absurd same (nameApart legible' legible)
    | constant d => exact congrArg constant (constantOnce legible legible' same)

end Leaf

end ProductLine
