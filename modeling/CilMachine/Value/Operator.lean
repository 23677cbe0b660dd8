/-
CilMachine/Value/Operator.lean

The operators on values, each known by the mnemonic of its instruction.
-/

namespace CilMachine

/-- The arithmetic operators. -/
inductive Arithmetic
  | add | sub | div
deriving DecidableEq, Inhabited

/-- The mnemonic of an arithmetic operator. -/
def Arithmetic.mnemonic : Arithmetic → String
  | add => "add"
  | sub => "sub"
  | div => "div"

/-- The comparisons. -/
inductive Comparison
  | eq | gt | lt
deriving DecidableEq, Inhabited

/-- The mnemonic of a comparison. -/
def Comparison.mnemonic : Comparison → String
  | eq => "ceq"
  | gt => "cgt"
  | lt => "clt"

/-- The numeric conversions, named for the type they yield. -/
inductive Conversion
  | i1 | i2 | i4 | i8 | u1 | u2 | u4 | u8 | r4 | r8
deriving DecidableEq, Inhabited

namespace Conversion

/-- All conversions. -/
def all : List Conversion := [i1, i2, i4, i8, u1, u2, u4, u8, r4, r8]

/-- The mnemonic of a conversion. -/
def mnemonic : Conversion → String
  | i1 => "conv.i1"
  | i2 => "conv.i2"
  | i4 => "conv.i4"
  | i8 => "conv.i8"
  | u1 => "conv.u1"
  | u2 => "conv.u2"
  | u4 => "conv.u4"
  | u8 => "conv.u8"
  | r4 => "conv.r4"
  | r8 => "conv.r8"

/-- The conversion that a mnemonic names. -/
def ofMnemonic? (s : String) : Option Conversion :=
  all.find? (·.mnemonic == s)

end Conversion

end CilMachine
