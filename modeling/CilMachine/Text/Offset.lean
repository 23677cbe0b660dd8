/-
CilMachine/Text/Offset.lean

The written form of a byte offset inside a method body, `IL_` and at least four upper-case
hexadecimal digits, and the columns of a listing.
-/

namespace CilMachine.Text

/-- `n` in upper-case hexadecimal, filled with zeros on the left up to `width` digits. -/
def upperHex (width n : Nat) : String :=
  let digits := (Nat.toDigits 16 n).map Char.toUpper
  String.ofList (List.replicate (width - digits.length) '0' ++ digits)

/-- The label of the instruction at a byte offset. -/
def offsetLabel (offset : Nat) : String :=
  "IL_" ++ upperHex 4 offset

/-- The text, filled with blanks on the right up to `width` characters. -/
def padRight (width : Nat) (s : String) : String :=
  s ++ String.ofList (List.replicate (width - s.length) ' ')

example : offsetLabel 0x1f = "IL_001F" := by decide +kernel

example : offsetLabel 0x12345 = "IL_12345" := by decide +kernel

end CilMachine.Text
