/-
CilMachine/Native/Strings.lean

The routines of string objects: construction from an array of characters, concatenation, and the
length in UTF-16 code units.
-/
import CilMachine.Native.Basic
import CilMachine.Text.Utf16

namespace CilMachine

namespace Native

/-- The code unit that an element of an array of characters holds: the low half of a 32-bit
integer. -/
def codeUnit : Value → Except ExecError UInt16
  | .int32 n => .ok n.toUInt32.toUInt16
  | v => .error (.heapTypeMismatch .char (.value v.kind))

/-- The array of characters among the arguments of the constructor. -/
def charArrayArgument (args : List Value) : Except ExecError Handle :=
  match (args[1]? : Option Value) with
  | some (.object r) => .ok r
  | some .null => .error .nullReference
  | some v => .error (.invalidOperationTypes .stringConstruction [v.kind])
  | none => .error (.invalidOperationTypes .stringConstruction [])

/-- The code units of an array of characters. -/
def charArrayUnits (h : Heap) (r : Handle) : Except ExecError (List UInt16) := do
  match ← h.get r with
  | .array _ (.values items) => items.toList.mapM codeUnit
  | o => .error (o.mismatch .charArray)

/-- Decodes an array of characters into the receiver's text. -/
def stringConstructor : Native where
  name := "System.String::.ctor"
  run _ args := do
    let this ← receiver args
    let chars ← charArrayArgument args
    let units ← charArrayUnits (← get) chars
    let s := String.ofList (Text.Utf16.decode units)
    set (← (← get).setField this textField (.text s))
    return none

/-- The text that an argument adds to a concatenation; null adds none. -/
def concatPart (h : Heap) (v : Value) : Except ExecError String :=
  if v.isNull then .ok "" else h.readString v

/-- The texts of all arguments, one behind the other. -/
def concatText (h : Heap) (args : List Value) : Except ExecError String :=
  return String.join (← args.mapM (concatPart h))

/-- Adds a string object with the texts of all arguments, one behind the other. -/
def stringConcat : Native where
  name := "System.String::Concat"
  run headers args := do
    let s ← concatText (← get) args
    let r ← allocString headers s
    return some (.object r)

/-- The length of a text, held to the range of a 32-bit integer. -/
def lengthValue (s : String) : Int32 :=
  Int32.ofNat (min (Text.Utf16.length s) 0x7fffffff)

/-- The length of the receiver's text in code units. -/
def stringLength : Native where
  name := "System.String::get_Length"
  run _ args := do
    let this ← receiver args
    let s ← (← get).getString this
    return some (.int32 (lengthValue s))

end Native

end CilMachine
