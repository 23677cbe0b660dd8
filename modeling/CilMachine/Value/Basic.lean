/-
CilMachine/Value/Basic.lean

Runtime values.  Integers come in two widths, floating-point numbers are kept by their bits (so two
patterns that are not numbers can be told apart), references are handles or null, and a string
object carries a text.
-/
import CilMachine.Flavor
import CilMachine.Text.Quoted
import CilMachine.Decimal.Shortest

namespace CilMachine

/-- The name of an object on the heap. -/
structure Handle where
  number : Nat
deriving DecidableEq, Hashable, Inhabited

/-- The written form of a handle. -/
def Handle.text (h : Handle) : String := "#" ++ toString h.number

/-- A value on an operand stack, in a slot or in a field. -/
inductive Value
  | int32 (n : Int32)
  | int64 (n : Int64)
  | float32 (bits : UInt32)
  | float64 (bits : UInt64)
  | object (h : Handle)
  | null
  | text (s : String)
deriving DecidableEq, Inhabited

/-- The kinds of values that errors speak of. -/
inductive ValueKind
  | int32 | int64 | float32 | float64 | object | null | text
deriving DecidableEq, Inhabited

/-- The written form of a kind. -/
def ValueKind.name : ValueKind → String
  | int32 => "int32"
  | int64 => "int64"
  | float32 => "float32"
  | float64 => "float64"
  | object => "object"
  | null => "null"
  | text => "text"

namespace Value

/-- The kind of a value. -/
def kind : Value → ValueKind
  | int32 _ => .int32
  | int64 _ => .int64
  | float32 _ => .float32
  | float64 _ => .float64
  | object _ => .object
  | null => .null
  | text _ => .text

/-- The value a comparison yields. -/
def ofBool (b : Bool) : Value := int32 (if b then 1 else 0)

/-- A float32 value from a machine number. -/
def ofFloat32 (x : Float32) : Value := float32 x.toBits

/-- A float64 value from a machine number. -/
def ofFloat (x : Float) : Value := float64 x.toBits

/-- The content of a fresh slot of a flavor. -/
def default : Flavor → Value
  | .i8 | .u8 => int64 0
  | .r4 => float32 0
  | .r8 => float64 0
  | .boolean | .char | .i1 | .u1 | .i2 | .u2 | .i4 | .u4 | .valueType => int32 0
  | .void | .object | .string | .classType | .array => null

/-- Whether a slot of a flavor may hold the value. -/
def fits (f : Flavor) : Value → Bool
  | int32 _ => f.isValueType && !f.isInt64 && !f.isFloat
  | int64 _ => f.isInt64
  | float32 _ | float64 _ => f.isFloat
  | object _ | null => f.isReferenceType
  | text _ => false

/-- Whether the value is null. -/
def isNull : Value → Bool
  | null => true
  | _ => false

/-- Whether the value is a handle or null. -/
def isReference : Value → Bool
  | object _ | null => true
  | _ => false

/-- The handle, if the value is one. -/
def handle? : Value → Option Handle
  | object h => some h
  | _ => none

/-- The number of a 32-bit integer. -/
def int32? : Value → Option Int32
  | int32 n => some n
  | _ => none

/-- The number of an integer of either width. -/
def integer? : Value → Option Int64
  | int32 n => some n.toInt64
  | int64 n => some n
  | _ => none

/-- The number of a floating-point value of either width. -/
def float? : Value → Option Float
  | float32 bits => some (Float32.ofBits bits).toFloat
  | float64 bits => some (Float.ofBits bits)
  | _ => none

/-- The text payload. -/
def text? : Value → Option String
  | text s => some s
  | _ => none

/-- The truth value of a branch condition: integers are true unless zero, handles are true and null
is false. -/
def condition? : Value → Option Bool
  | int32 n => some (n != 0)
  | int64 n => some (n != 0)
  | object _ => some true
  | null => some false
  | float32 _ | float64 _ | text _ => none

/-- The written form of a value. -/
def render : Value → String
  | int32 n => toString n.toInt
  | int64 n => toString n.toInt ++ "L"
  | float32 bits => Decimal.singleText bits ++ "f"
  | float64 bits => Decimal.doubleText bits
  | object h => "ref@" ++ toString h.number
  | null => "null"
  | text s => Text.quoted s

/-- A fresh slot holds a value that fits it. -/
theorem fits_default {f : Flavor} (h : f ≠ .void) : (default f).fits f = true := by
  cases f with
  | void => exact absurd rfl h
  | _ => rfl

end Value

end CilMachine
