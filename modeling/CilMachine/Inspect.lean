/-
CilMachine/Inspect.lean

Structural texts: types, native routines and frames spelled out part by part, for a reader who is
looking into a machine.
-/
import CilMachine.Frame
import CilMachine.Catalog.Basic

namespace CilMachine

namespace Inspect

/-- A record with its parts. -/
def parts (name : String) (ps : List (String × String)) : String :=
  name ++ " \x7b " ++ ", ".intercalate (ps.map fun (label, s) => label ++ ": " ++ s) ++ " \x7d"

/-- A list of texts. -/
def items (xs : List String) : String := "[" ++ ", ".intercalate xs ++ "]"

/-- A part that may be absent. -/
def option : Option String → String
  | some s => "Some(" ++ s ++ ")"
  | none => "None"

/-- A type reference. -/
def typeRef (t : TypeRef) : String :=
  parts "TypeRef" [("module", Text.quoted t.module), ("name", Text.quoted t.name)]

/-- A type; its members are only counted. -/
def type (t : TypeDef) : String :=
  parts "DomainType"
    [("type_ref", typeRef t.ref), ("flavor", t.flavor.text),
      ("base", option (t.base.map typeRef)), ("fields", toString t.fields.length),
      ("methods", toString t.methods.length)]

/-- A native routine; only its name can be shown. -/
def native (n : Native) : String :=
  "NativeMethod \x7b name: " ++ Text.quoted n.name ++ ", .. \x7d"

/-- The registered routines, counted. -/
def natives (r : NativeRegistry) : String :=
  parts "NativeRegistry" [("methods", toString r.length)]

/-- A value with its kind. -/
def value : Value → String
  | .int32 n => "I32(" ++ toString n.toInt ++ ")"
  | .int64 n => "I64(" ++ toString n.toInt ++ ")"
  | .float32 bits => "F32(" ++ Decimal.singleText bits ++ ")"
  | .float64 bits => "F64(" ++ Decimal.doubleText bits ++ ")"
  | .object h => "ObjectRef(HeapRef(" ++ toString h.number ++ "))"
  | .null => "Null"
  | .text s => "Text(" ++ Text.quoted s ++ ")"

/-- A list of values. -/
def values (vs : List Value) : String := items (vs.map value)

/-- A frame; its operand stack is shown bottom first. -/
def frame (f : Frame) : String :=
  parts "StackFrame"
    [("method", Text.quoted f.label), ("arguments", values f.arguments),
      ("locals", parts "LocalVariables"
        [("values", values (f.locals.map Slot.value)),
          ("flavors", items (f.locals.map fun s => s.flavor.text))]),
      ("stack", parts "EvaluationStack" [("values", values f.stack.reverse)])]

end Inspect

end CilMachine
