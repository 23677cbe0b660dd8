/-
CilMachine/Decimal/Binary.lean

What the bits of a binary floating-point number say: a sign and infinity, not a number, or
`m * 2 ^ q` with a sign.  One layout per width gives the two interchange formats.
-/

namespace CilMachine.Decimal

/-- A power of two. -/
def twoPow (n : Nat) : Nat := Nat.pow 2 n

/-- The field widths of a binary interchange format. -/
structure Layout where
  exponentBits : Nat
  fractionBits : Nat
deriving DecidableEq

/-- The 32-bit format. -/
def single : Layout := ⟨8, 23⟩

/-- The 64-bit format. -/
def double : Layout := ⟨11, 52⟩

/-- A finite magnitude `significand * 2 ^ exponent`.  `narrowBelow` says that the numbers below it
are twice as dense as those above: it is then the least of its binade. -/
structure Magnitude where
  significand : Nat
  exponent : Int
  narrowBelow : Bool
deriving DecidableEq

/-- What a bit pattern stands for. -/
inductive Reading
  | nan
  | infinite (negative : Bool)
  | finite (negative : Bool) (magnitude : Magnitude)
deriving DecidableEq

namespace Layout

/-- Distance between the stored exponent and the exponent of the last bit of the significand. -/
def bias (l : Layout) : Nat :=
  twoPow (l.exponentBits - 1) - 1 + l.fractionBits

/-- Reads a bit pattern.  Exponent zero is shared by zero and the subnormal numbers, the highest
exponent by infinity and the patterns that are not numbers. -/
def read (l : Layout) (bits : Nat) : Reading :=
  let fraction := bits % twoPow l.fractionBits
  let stored := bits / twoPow l.fractionBits % twoPow l.exponentBits
  let negative := bits / twoPow (l.fractionBits + l.exponentBits) % 2 == 1
  if stored = twoPow l.exponentBits - 1 then
    if fraction = 0 then .infinite negative else .nan
  else if stored = 0 then
    .finite negative ⟨fraction, 1 - (l.bias : Int), false⟩
  else
    .finite negative
      ⟨twoPow l.fractionBits + fraction, (stored : Int) - l.bias, fraction == 0 && stored != 1⟩

end Layout

end CilMachine.Decimal
