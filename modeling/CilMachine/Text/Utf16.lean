/-
CilMachine/Text/Utf16.lean

UTF-16: the code units of a text, and the text that a sequence of code units stands for.  Decoding
accepts every sequence; a surrogate without its partner reads as U+FFFD.
-/

namespace CilMachine.Text.Utf16

/-- The character that stands for a surrogate without its partner. -/
def replacement : Char := '\ufffd'

/-- A code unit that opens a surrogate pair. -/
def IsHigh (u : UInt16) : Prop := 0xD800 ≤ u ∧ u < 0xDC00
deriving Decidable

/-- A code unit that closes a surrogate pair. -/
def IsLow (u : UInt16) : Prop := 0xDC00 ≤ u ∧ u < 0xE000
deriving Decidable

/-- The code point of a surrogate pair. -/
def pairCode (high low : UInt16) : Nat :=
  0x10000 + (high.toNat - 0xD800) * 0x400 + (low.toNat - 0xDC00)

/-- The one or two code units of a character. -/
def encodeChar (c : Char) : List UInt16 :=
  let n := c.toNat
  if n < 0x10000 then [n.toUInt16]
  else [(0xD800 + (n - 0x10000) / 0x400).toUInt16, (0xDC00 + (n - 0x10000) % 0x400).toUInt16]

/-- The code units of a text. -/
def encode (cs : List Char) : List UInt16 :=
  cs.flatMap encodeChar

/-- The character of a code unit that is not half of a pair. -/
def decodeUnit (u : UInt16) : Char :=
  if IsHigh u ∨ IsLow u then replacement else Char.ofNat u.toNat

/-- The text of a sequence of code units. -/
def decode : List UInt16 → List Char
  | [] => []
  | [u] => [decodeUnit u]
  | u :: v :: rest =>
    if IsHigh u ∧ IsLow v then Char.ofNat (pairCode u v) :: decode rest
    else decodeUnit u :: decode (v :: rest)

/-- The length of a text in code units. -/
def length (s : String) : Nat :=
  (encode s.toList).length

/-- Only the second and the third unit form a pair. -/
example : decode [0xD83D, 0xD83D, 0xDE00, 0xDC00] = [replacement, '😀', replacement] := by
  decide +kernel

end CilMachine.Text.Utf16
