/-
CilMachine/Value/Arithmetic.lean

Arithmetic and comparison.  Two integers are brought to the wider width of the two and two
floating-point numbers likewise; every other pair is rejected, except that references can be
compared for equality.  Integer arithmetic wraps, and division rounds toward zero.
-/
import CilMachine.Error

namespace CilMachine

namespace Value

/-- Two numbers brought to one width. -/
inductive Pair
  | int32 (a b : Int32)
  | int64 (a b : Int64)
  | float32 (a b : Float32)
  | float64 (a b : Float)

/-- Brings two numbers to one width. -/
def widen? : Value → Value → Option Pair
  | int32 a, int32 b => some (.int32 a b)
  | int64 a, int64 b => some (.int64 a b)
  | int32 a, int64 b => some (.int64 a.toInt64 b)
  | int64 a, int32 b => some (.int64 a b.toInt64)
  | float32 a, float32 b => some (.float32 (.ofBits a) (.ofBits b))
  | float64 a, float64 b => some (.float64 (.ofBits a) (.ofBits b))
  | float32 a, float64 b => some (.float64 (Float32.ofBits a).toFloat (.ofBits b))
  | float64 a, float32 b => some (.float64 (.ofBits a) (Float32.ofBits b).toFloat)
  | _, _ => none

end Value

/-- Applies an arithmetic operator to two numbers of one width. -/
def Arithmetic.apply : Arithmetic → Value.Pair → Except ExecError Value
  | add, .int32 a b => .ok (.int32 (a + b))
  | add, .int64 a b => .ok (.int64 (a + b))
  | add, .float32 a b => .ok (.ofFloat32 (a + b))
  | add, .float64 a b => .ok (.ofFloat (a + b))
  | sub, .int32 a b => .ok (.int32 (a - b))
  | sub, .int64 a b => .ok (.int64 (a - b))
  | sub, .float32 a b => .ok (.ofFloat32 (a - b))
  | sub, .float64 a b => .ok (.ofFloat (a - b))
  | div, .int32 a b => if b = 0 then .error .divideByZero else .ok (.int32 (a / b))
  | div, .int64 a b => if b = 0 then .error .divideByZero else .ok (.int64 (a / b))
  | div, .float32 a b => .ok (.ofFloat32 (a / b))
  | div, .float64 a b => .ok (.ofFloat (a / b))

/-- Whether a comparison holds of two numbers of one width. -/
def Comparison.holds : Comparison → Value.Pair → Bool
  | eq, .int32 a b => a == b
  | eq, .int64 a b => a == b
  | eq, .float32 a b => a == b
  | eq, .float64 a b => a == b
  | gt, .int32 a b => a > b
  | gt, .int64 a b => a > b
  | gt, .float32 a b => a > b
  | gt, .float64 a b => a > b
  | lt, .int32 a b => a < b
  | lt, .int64 a b => a < b
  | lt, .float32 a b => a < b
  | lt, .float64 a b => a < b

namespace Value

/-- Applies an arithmetic operator; `left` was pushed first. -/
def arithmetic (op : Arithmetic) (left right : Value) : Except ExecError Value :=
  match widen? left right with
  | some pair => op.apply pair
  | none => .error (.invalidOperationTypes (.arithmetic op) [left.kind, right.kind])

/-- Whether two references are the same, for any two of them. -/
def sameReference? : Value → Value → Option Bool
  | object a, object b => some (a == b)
  | null, null => some true
  | object _, null => some false
  | null, object _ => some false
  | _, _ => none

/-- Applies a comparison; `left` was pushed first. -/
def compare (op : Comparison) (left right : Value) : Except ExecError Value :=
  match widen? left right with
  | some pair => .ok (.ofBool (op.holds pair))
  | none =>
    match op, sameReference? left right with
    | .eq, some same => .ok (.ofBool same)
    | _, _ => .error (.invalidOperationTypes (.comparison op) [left.kind, right.kind])

end Value

end CilMachine
