import ProductLine.Binary64

/-!
The text of a binary64 number: the fewest decimal digits that read back to it, of those the
nearest, of two equally near ones the larger. Grids of powers of ten are tried from coarse to
fine; on each, only the two neighbours of the number can read back best. All arithmetic is exact.
-/
namespace ProductLine

structure Decimal where
  digits : Nat
  exponent : Int
  deriving DecidableEq, Repr

/-- The positive number `significand * 2 ^ exponent` among its binary64 neighbours. -/
structure Dyadic where
  significand : Nat
  exponent : Int
  /-- The neighbour below is half as far away as the one above. -/
  powerOfTwo : Bool
  deriving DecidableEq, Repr

def Binary64.dyadic (x : Binary64) : Dyadic :=
  if x.exponentField = 0 then ⟨x.fractionField, -1074, false⟩
  else ⟨Binary64.hiddenBit + x.fractionField, x.exponentField - 1075,
    x.fractionField = 0 && 1 < x.exponentField⟩

namespace Dyadic

/-- Counted on the grid `10 ^ g`, the number is `significand * up / down` steps. -/
def up (x : Dyadic) (g : Int) : Nat := (1 <<< x.exponent.toNat) * Nat.pow 10 (-g).toNat
def down (x : Dyadic) (g : Int) : Nat := (1 <<< (-x.exponent).toNat) * Nat.pow 10 g.toNat

/-- Whether `c * 10 ^ g` is read as `x`: it lies between the halfway points to the two neighbours,
which themselves are read as the neighbour with the even significand. -/
def readsBack (x : Dyadic) (g : Int) (c : Nat) : Bool :=
  let low := (4 * x.significand - if x.powerOfTwo then 1 else 2) * x.up g
  let high := (4 * x.significand + 2) * x.up g
  let at4 := 4 * c * x.down g
  if x.significand % 2 = 0 then low ≤ at4 && at4 ≤ high else low < at4 && at4 < high

def onGrid (x : Dyadic) (g : Int) : Option Decimal :=
  let c := x.significand * x.up g / x.down g
  let below := 2 * (x.significand * x.up g) < (2 * c + 1) * x.down g
  let nearer := if below then [c, c + 1] else [c + 1, c]
  (nearer.find? (x.readsBack g)).map (⟨·, g⟩)

/-- A grid coarser than the number: `10 ^ topGrid` exceeds it. -/
def topGrid (x : Dyadic) : Int :=
  ((x.significand.log2 + 1 + x.exponent) * 30103).fdiv 100000 + 2

/-- Twenty grids reach seventeen digits, which always read back; past them the exact value. -/
def shortest (x : Dyadic) : Decimal :=
  ((List.range 20).findSome? fun (i : Nat) => x.onGrid (x.topGrid - i)).getD
    (if 0 ≤ x.exponent then ⟨x.significand * (1 <<< x.exponent.toNat), 0⟩
      else ⟨x.significand * Nat.pow 5 (-x.exponent).toNat, x.exponent⟩)

end Dyadic

structure DecimalLayout where
  /-- Powers of the leading digit from here on are written positionally, -/
  positionalFrom : Int
  /-- and below here. -/
  positionalBelow : Int
  point : String
  exponentMark : String
  infinity : String
  notANumber : String
  deriving Repr

def DecimalLayout.constant : DecimalLayout := ⟨-4, 16, ".", "e", "inf", "NaN"⟩

namespace Decimal

def zeros (n : Nat) : String := String.ofList (List.replicate n '0')

def positional (layout : DecimalLayout) (digits : List Char) (exponent : Int) : String :=
  let whole := (digits.length + exponent).toNat
  if 0 ≤ exponent then String.ofList digits ++ zeros exponent.toNat ++ layout.point ++ "0"
  else if 0 < digits.length + exponent then
    String.ofList (digits.take whole) ++ layout.point ++ String.ofList (digits.drop whole)
  else "0" ++ layout.point ++ zeros (-(digits.length + exponent)).toNat ++ String.ofList digits

def scientific (layout : DecimalLayout) (digits : List Char) (power : Int) : String :=
  let fraction := digits.drop 1
  String.ofList (digits.take 1) ++
    (if fraction.isEmpty then "" else layout.point ++ String.ofList fraction) ++
    layout.exponentMark ++ toString power

def render (layout : DecimalLayout) (d : Decimal) : String :=
  let digits := Nat.toDigits 10 d.digits
  let power := digits.length - 1 + d.exponent
  if layout.positionalFrom ≤ power ∧ power < layout.positionalBelow then
    positional layout digits d.exponent
  else scientific layout digits power

end Decimal

def Binary64.render (layout : DecimalLayout) (x : Binary64) : String :=
  let unsigned :=
    if x.magnitude = 0 then Decimal.positional layout ['0'] 0
    else if x.isInfinite then layout.infinity
    else x.dyadic.shortest.render layout
  if x.isNaN then layout.notANumber else if x.negative then "-" ++ unsigned else unsigned

end ProductLine
