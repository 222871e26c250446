/-!
Binary64 numbers as their words. Order and equality are read off the word: without its sign bit a
word grows with the number it stands for, so numbers compare as signed magnitudes (`key`), both
zeros have key 0, and a NaN has no place in the order. No run-time float is used.
-/
namespace ProductLine

structure Binary64 where
  bits : UInt64
  deriving DecidableEq, Repr

namespace Binary64

def zero : Binary64 := ⟨0⟩
def nan : Binary64 := ⟨0x7ff8000000000000⟩

def signBit : Nat := 0x8000000000000000

def hiddenBit : Nat := 0x10000000000000

def infinite : Nat := 0x7ff0000000000000

def negative (x : Binary64) : Bool := decide (signBit ≤ x.bits.toNat)
def magnitude (x : Binary64) : Nat := x.bits.toNat % signBit
def exponentField (x : Binary64) : Nat := x.magnitude / hiddenBit
def fractionField (x : Binary64) : Nat := x.magnitude % hiddenBit

def isNaN (x : Binary64) : Bool := decide (infinite < x.magnitude)
def isInfinite (x : Binary64) : Bool := decide (x.magnitude = infinite)

def key (x : Binary64) : Int := if x.negative then -(x.magnitude : Int) else x.magnitude

def compare? (x y : Binary64) : Option Ordering :=
  if x.isNaN || y.isNaN then none else some (compare x.key y.key)

def same (x y : Binary64) : Bool := x.compare? y == some .eq

theorem sameEqTrue {x y : Binary64} :
    x.same y = true ↔ x.isNaN = false ∧ y.isNaN = false ∧ x.key = y.key := by
  unfold same compare?
  cases x.isNaN <;> cases y.isNaN <;> simp [Std.LawfulEqCmp.compare_eq_iff_eq]

def roundQuotient (n unit : Nat) : Nat :=
  let q := n / unit
  let r := n % unit
  if unit < 2 * r ∨ (2 * r = unit ∧ q % 2 = 1) then q + 1 else q

/-- The nearest multiple of `unit`, and of two that are as near the even one. -/
theorem roundQuotientNearest {n unit : Nat} (positive : 0 < unit) :
    let q := roundQuotient n unit
    2 * (q * unit) ≤ 2 * n + unit ∧ 2 * n ≤ 2 * (q * unit) + unit ∧
      (2 * (q * unit) = 2 * n + unit ∨ 2 * n = 2 * (q * unit) + unit → q % 2 = 0) := by
  have whole : n / unit * unit + n % unit = n := Nat.div_add_mod' n unit
  have part : n % unit < unit := Nat.mod_lt n positive
  have next : (n / unit + 1) * unit = n / unit * unit + unit := Nat.succ_mul ..
  simp only [roundQuotient]
  split <;> omega

example : roundQuotient 9007199254740993 2 = 4503599627370496 := rfl

/-- The word nearest to `n`. A significand that rounds up past its last bit carries into the
exponent. -/
def magnitudeOf (n : Nat) : Nat :=
  if n = 0 then 0
  else if n.log2 ≤ 52 then (n.log2 + 1022) * hiddenBit + n * (1 <<< (52 - n.log2))
  else (n.log2 + 1022) * hiddenBit + roundQuotient n (1 <<< (n.log2 - 52))

def ofInt64 (n : Int64) : Binary64 :=
  ⟨UInt64.ofNat ((if n < 0 then signBit else 0) + magnitudeOf n.toInt.natAbs)⟩

end Binary64
end ProductLine
