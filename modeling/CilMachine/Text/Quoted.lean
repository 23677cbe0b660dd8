/-
CilMachine/Text/Quoted.lean

Quoted text: the double-quoted form in which string literals and text payloads are shown.  A quote
and a backslash are preceded by a backslash, four control characters have letters of their own, the
other control characters are written by their code point in hexadecimal, and everything else stands
for itself.
-/

namespace CilMachine.Text

/-- The code point of `c` in lower-case hexadecimal, without padding. -/
def hexCode (c : Char) : String :=
  String.ofList (Nat.toDigits 16 c.toNat)

/-- One character as it appears between the quotes. -/
def quoteChar (c : Char) : String :=
  if c = '\"' then "\\\""
  else if c = '\\' then "\\\\"
  else if c = '\t' then "\\t"
  else if c = '\n' then "\\n"
  else if c = '\r' then "\\r"
  else if c = '\x00' then "\\0"
  else if c.toNat < 0x20 ∨ c.toNat = 0x7f then "\\u\x7b" ++ hexCode c ++ "\x7d"
  else c.toString

/-- The text between double quotes, with the characters that need it escaped. -/
def quoted (s : String) : String :=
  "\"" ++ String.join (s.toList.map quoteChar) ++ "\""

example : quoted "say \"hi\"\n" = "\"say \\\"hi\\\"\\n\"" := by decide +kernel

example : quoted "\x00\x1b" = "\"\\0\\u\x7b1b\x7d\"" := by decide +kernel

end CilMachine.Text
