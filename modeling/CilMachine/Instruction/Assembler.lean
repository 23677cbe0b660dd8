/-
CilMachine/Instruction/Assembler.lean

The assembler.  It places instructions one behind the other by the sizes of the opcode table and
resolves named labels when the body is finished.  Positions are 64-bit numbers, and wrap around
unnoticed.  An operation can fail; the state it leaves is kept, so a caller may go on.
-/
import CilMachine.Instruction.Body

namespace CilMachine

/-- What a body is assembled from. -/
inductive Item
  | emit (mnemonic : String) (operand : Operand)
  | raw (i : Instruction)
  | constant (n : Int32)
  | loadArgument (index : UInt16)
  | loadLocal (index : UInt16)
  | storeLocal (index : UInt16)
  | branch (mnemonic : String) (label : String)
  | label (name : String)
deriving DecidableEq, Inhabited

namespace Item

/-- An instruction without operand. -/
def plain (mnemonic : String) : Item := emit mnemonic .none

/-- A string literal. -/
def loadString (s : String) : Item := emit "ldstr" (.string s)

/-- A call of exactly the named method. -/
def call (m : MethodRef) : Item := emit "call" (.method m)

/-- A call through the receiver's runtime type. -/
def callVirtual (m : MethodRef) : Item := emit "callvirt" (.method m)

/-- The creation of an object. -/
def newObject (ctor : MethodRef) : Item := emit "newobj" (.method ctor)

/-- The creation of an array. -/
def newArray (element : TypeRef) : Item := emit "newarr" (.type element)

/-- A type test. -/
def typeTest (target : TypeRef) : Item := emit "isinst" (.type target)

/-- A read of a field. -/
def loadField (f : FieldRef) : Item := emit "ldfld" (.field f)

/-- A write of a field. -/
def storeField (f : FieldRef) : Item := emit "stfld" (.field f)

end Item

/-! ### Shortest forms -/

/-- The constants that have an opcode of their own. -/
def smallConstants : List (Int32 × String) :=
  [(-1, "ldc.i4.m1"), (0, "ldc.i4.0"), (1, "ldc.i4.1"), (2, "ldc.i4.2"), (3, "ldc.i4.3"),
    (4, "ldc.i4.4"), (5, "ldc.i4.5"), (6, "ldc.i4.6"), (7, "ldc.i4.7"), (8, "ldc.i4.8")]

/-- The shortest instruction that pushes a constant: an opcode of its own, a signed byte, or the
full width. -/
def constantForm (n : Int32) : String × Operand :=
  match smallConstants.lookup n with
  | some mnemonic => (mnemonic, .none)
  | none =>
    if n.toInt8.toInt32 = n then ("ldc.i4.s", .immediate (.int8 n.toInt8))
    else ("ldc.i4", .immediate (.int32 n))

/-- The shortest instruction of a family for a slot: the first four slots have opcodes of their own,
the other slots below 256 take one byte. -/
def slotForm (family : String) (operand : UInt16 → Operand) (index : UInt16) : String × Operand :=
  if index < 4 then (family ++ "." ++ toString index.toNat, .none)
  else if index ≤ 255 then (family ++ ".s", operand index)
  else (family, operand index)

/-! ### The assembler -/

/-- A jump whose target is not known yet: the position of the instruction and the label. -/
structure Fixup where
  index : Nat
  label : String
deriving DecidableEq, Inhabited

/-- The state of the assembler.  A label may occur twice among `labels`; the first occurrence
counts. -/
structure Assembler where
  code : Array Instruction := #[]
  labels : List (String × Nat) := []
  fixups : List Fixup := []
  position : Nat := 0
deriving DecidableEq, Inhabited

namespace Assembler

/-- An operation of the assembler. -/
abbrev Op (α : Type) := ExceptT Failure (StateM Assembler) α

/-- Appends a table instruction at the current position. -/
def emit (mnemonic : String) (operand : Operand) : Op Unit := do
  match Opcode.lookup mnemonic with
  | none => throw (.unsupported (.mnemonic mnemonic))
  | some opcode =>
    if opcode.operand.accepts operand then
      modify fun s =>
        { s with
          code := s.code.push ⟨s.position, opcode.size, opcode.mnemonic, opcode.flow, operand⟩
          position := advance s.position opcode.size }
    else throw (.malformed (.operandMismatch operand mnemonic opcode.operand))

/-- Appends the table instruction of a mnemonic with its operand. -/
def emitForm (form : String × Operand) : Op Unit := emit form.1 form.2

/-- Appends an instruction as it is.  Later instructions are placed behind it, if it ends before the
offsets do. -/
def emitRaw (i : Instruction) : Op Unit :=
  modify fun s => { s with code := s.code.push i, position := max s.position i.nextOffset }

/-- Appends a jump to a label. -/
def branch (mnemonic : String) (label : String) : Op Unit := do
  match Opcode.lookup mnemonic with
  | some opcode =>
    if opcode.flow.isBranch then
      modify fun s => { s with fixups := s.fixups ++ [⟨s.code.size, label⟩] }
      emit mnemonic (.target 0)
    else throw (.malformed (.notABranch mnemonic))
  | none => throw (.malformed (.notABranch mnemonic))

/-- Gives the current position a name.  A name that is taken moves here all the same, but the
operation fails. -/
def label (name : String) : Op Unit := do
  let taken := ((← get).labels.lookup name).isSome
  modify fun s => { s with labels := (name, s.position) :: s.labels }
  if taken then throw (.malformed (.labelDefinedTwice name))

/-- Appends one item. -/
def add : Item → Op Unit
  | .emit mnemonic operand => emit mnemonic operand
  | .raw i => emitRaw i
  | .constant n => emitForm (constantForm n)
  | .loadArgument index => emitForm (slotForm "ldarg" .argument index)
  | .loadLocal index => emitForm (slotForm "ldloc" .localSlot index)
  | .storeLocal index => emitForm (slotForm "stloc" .localSlot index)
  | .branch mnemonic label => branch mnemonic label
  | .label name => label name

/-- Writes the position of each label into the jumps to it. -/
def resolve (labels : List (String × Nat)) :
    List Fixup → Array Instruction → Except Failure (Array Instruction)
  | [], code => .ok code
  | f :: rest, code =>
    match labels.lookup f.label with
    | none => .error (.malformed (.undefinedLabel f.label))
    | some target =>
      resolve labels rest (code.modify f.index fun i => { i with operand := .target target })

/-- The finished body. -/
def finish (s : Assembler) : Except Failure Body := do
  let code ← resolve s.labels s.fixups s.code
  Body.ofList? code.toList

end Assembler

/-- Assembles a body; the first failure is the result. -/
def assemble (items : List Item) : Except Failure Body :=
  match (items.forM Assembler.add).run.run {} with
  | (.error e, _) => .error e
  | (.ok _, s) => s.finish

end CilMachine
