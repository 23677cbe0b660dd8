/-
CilMachine/Decimal/Shortest.lean

The shortest decimal text of a binary floating-point number, always positional.  Among the decimal
numbers that round to the given one, those on the coarsest grid `n * 10 ^ g` have the fewest digits;
of the two neighbours on that grid the nearer is taken, and of two equally near ones the larger.
All arithmetic is exact, on natural numbers.
-/
import CilMachine.Decimal.Binary

namespace CilMachine.Decimal

/-- A power of ten. -/
def tenPow (n : Nat) : Nat := Nat.pow 10 n

/-! ### The interval of numbers that round to a magnitude -/

/-- The rationals `low / scale`, `centre / scale` and `high / scale`: a number and the ends of the
interval that rounds to it.  `closed` says that the ends round to it too. -/
structure Interval where
  low : Nat
  centre : Nat
  high : Nat
  scale : Nat
  closed : Bool
deriving DecidableEq

/-- The interval of a magnitude reaches half way to its two neighbours; the ends belong to it when
its significand is even. -/
def Magnitude.interval (m : Magnitude) : Interval :=
  let up := twoPow (m.exponent - 2).toNat
  { low := (4 * m.significand - if m.narrowBelow then 1 else 2) * up
    centre := 4 * m.significand * up
    high := (4 * m.significand + 2) * up
    scale := twoPow (2 - m.exponent).toNat
    closed := m.significand % 2 == 0 }

/-- The same interval with every number divided by `10 ^ g`. -/
def Interval.onGrid (i : Interval) (g : Int) : Interval :=
  let up := tenPow (-g).toNat
  { i with
    low := i.low * up
    centre := i.centre * up
    high := i.high * up
    scale := i.scale * tenPow g.toNat }

/-- Whether the whole number `n` lies in the interval. -/
def Interval.admits (i : Interval) (n : Nat) : Bool :=
  if i.closed then i.low ≤ n * i.scale && n * i.scale ≤ i.high
  else i.low < n * i.scale && n * i.scale < i.high

/-- The whole number of the interval nearest to its centre, if it holds one of the two neighbours
of the centre. -/
def Interval.nearest? (i : Interval) : Option Nat :=
  let below := i.centre / i.scale
  let above := below + 1
  match i.admits below, i.admits above with
  | true, true =>
    if above * i.scale - i.centre ≤ i.centre - below * i.scale then some above else some below
  | true, false => some below
  | false, true => some above
  | false, false => none

/-! ### Digits -/

/-- The decimal number `digits * 10 ^ exponent`. -/
structure Digits where
  digits : Nat
  exponent : Int
deriving DecidableEq

/-- The number of grids that are finer than the units and may have to be tried: the finest
subnormal number of the 64-bit format needs fewer. -/
def finestGrid : Nat := 400

/-- Tries the grids `10 ^ g`, `10 ^ (g - 1)`, ... in turn. -/
def Interval.search (i : Interval) : Nat → Int → Digits
  | 0, g => ⟨(i.onGrid g).centre / (i.onGrid g).scale, g⟩
  | n + 1, g =>
    match (i.onGrid g).nearest? with
    | some d => ⟨d, g⟩
    | none => i.search n (g - 1)

/-- The shortest digits of a positive magnitude.  The search starts above it, since
`significand * 2 ^ exponent < 10 ^ top`. -/
def Magnitude.shortest (m : Magnitude) : Digits :=
  let top := ((m.significand.log2 : Int) + 1 + m.exponent).toNat
  m.interval.search (top + finestGrid) top

/-! ### Positional text -/

/-- Writes a decimal number without an exponent and without needless zeros. -/
def Digits.positional (d : Digits) : String :=
  let ds := Nat.toDigits 10 d.digits
  let places := (-d.exponent).toNat
  if places = 0 then String.ofList (ds ++ List.replicate d.exponent.toNat '0')
  else
    let padded := List.replicate (places + 1 - ds.length) '0' ++ ds
    let whole := padded.length - places
    String.ofList (padded.take whole ++ '.' :: padded.drop whole)

/-- The text of a bit pattern.  The sign of zero is shown, that of a pattern which is no number is
not. -/
def Reading.text : Reading → String
  | .nan => "NaN"
  | .infinite negative => if negative then "-inf" else "inf"
  | .finite negative m =>
    (if negative then "-" else "") ++
      if m.significand = 0 then "0" else m.shortest.positional

/-- The text of a 32-bit pattern. -/
def singleText (bits : UInt32) : String :=
  (single.read bits.toNat).text

/-- The text of a 64-bit pattern. -/
def doubleText (bits : UInt64) : String :=
  (double.read bits.toNat).text

/-! ### Samples -/

example : doubleText 0x3fb999999999999a = "0.1" := by decide +kernel

example : doubleText 0x8000000000000000 = "-0" := by decide +kernel

example : doubleText 0x444b1ae4d6e2ef50 = "1000000000000000000000" := by decide +kernel

/-- Half way between two decimals of the same length, the larger is written. -/
example : doubleText 0x431999def3797079 = "1801514316094494.3" := by decide +kernel

/-- The least positive number of the 32-bit format has one digit. -/
example : singleText 1 = "0.000000000000000000000000000000000000000000001" := by decide +kernel

end CilMachine.Decimal
