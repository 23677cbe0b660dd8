/-
CilMachine/Value/Conversion.lean

Numeric conversions.  Integers are cut to the target width and extended again by the target's sign;
floating-point numbers are rounded toward zero and held to the target's range, and what is no number
becomes zero.
-/
import CilMachine.Error

namespace CilMachine

namespace Conversion

/-- Converts a 32-bit integer. -/
def ofInt32 (n : Int32) : Conversion → Value
  | i1 => .int32 n.toInt8.toInt32
  | i2 => .int32 n.toInt16.toInt32
  | i4 => .int32 n
  | i8 => .int64 n.toInt64
  | u1 => .int32 n.toUInt32.toUInt8.toUInt32.toInt32
  | u2 => .int32 n.toUInt32.toUInt16.toUInt32.toInt32
  | u4 => .int32 n
  | u8 => .int64 n.toUInt32.toUInt64.toInt64
  | r4 => .ofFloat32 n.toFloat32
  | r8 => .ofFloat n.toFloat

/-- Converts a 64-bit integer. -/
def ofInt64 (n : Int64) : Conversion → Value
  | i1 => .int32 n.toInt8.toInt32
  | i2 => .int32 n.toInt16.toInt32
  | i4 => .int32 n.toInt32
  | i8 => .int64 n
  | u1 => .int32 n.toUInt64.toUInt8.toUInt32.toInt32
  | u2 => .int32 n.toUInt64.toUInt16.toUInt32.toInt32
  | u4 => .int32 n.toUInt64.toUInt32.toInt32
  | u8 => .int64 n
  | r4 => .ofFloat32 n.toFloat32
  | r8 => .ofFloat n.toFloat

/-- Converts a floating-point number. -/
def ofFloat (x : Float) : Conversion → Value
  | i1 => .int32 x.toInt8.toInt32
  | i2 => .int32 x.toInt16.toInt32
  | i4 => .int32 x.toInt32
  | i8 => .int64 x.toInt64
  | u1 => .int32 x.toUInt8.toUInt32.toInt32
  | u2 => .int32 x.toUInt16.toUInt32.toInt32
  | u4 => .int32 x.toUInt32.toInt32
  | u8 => .int64 x.toUInt64.toInt64
  | r4 => .ofFloat32 x.toFloat32
  | r8 => .ofFloat x

end Conversion

/-- Applies a conversion; values that are no numbers are rejected. -/
def Value.convert (op : Conversion) (v : Value) : Except ExecError Value :=
  match v with
  | int32 n => .ok (op.ofInt32 n)
  | int64 n => .ok (op.ofInt64 n)
  | v =>
    match v.float? with
    | some x => .ok (op.ofFloat x)
    | none => .error (.invalidOperationTypes (.conversion op) [v.kind])

end CilMachine
