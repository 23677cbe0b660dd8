/-
CilMachine/Instruction/Opcode.lean

The opcode table: for each mnemonic its encoded size, its flow category and the kind of operand it
takes.  The assembler lays out bodies by it.  `break` and `throw` are listed so that bodies can
contain them; executing them fails.
-/
import CilMachine.Instruction.Basic

namespace CilMachine

/-- The kinds of operands that an opcode can take. -/
inductive OperandKind
  | none | int8 | uint8 | uint16 | int32 | target | string | field | type | method
deriving DecidableEq, Inhabited

namespace OperandKind

/-- All kinds. -/
def all : List OperandKind :=
  [none, int8, uint8, uint16, int32, target, string, field, type, method]

/-- The written form. -/
def text : OperandKind → String
  | none => "None"
  | int8 => "Int8"
  | uint8 => "UInt8"
  | uint16 => "UInt16"
  | int32 => "Int32"
  | target => "Target"
  | string => "String"
  | field => "Field"
  | type => "Type"
  | method => "Method"

/-- Reads the written form. -/
def ofText? (s : String) : Option OperandKind :=
  all.find? (·.text == s)

/-- Whether an operand can be encoded as the kind.  A slot index below 256 fits one byte. -/
def accepts : OperandKind → Operand → Bool
  | none, .none => true
  | target, .target _ => true
  | string, .string _ => true
  | field, .field _ => true
  | type, .type _ => true
  | method, .method _ => true
  | int8, .immediate (.int8 _) => true
  | int8, .immediate (.uint8 _) => true
  | int32, .immediate (.int32 _) => true
  | uint8, .localSlot index => index ≤ 255
  | uint8, .argument index => index ≤ 255
  | uint8, .immediate (.uint16 n) => n ≤ 255
  | uint8, .immediate (.uint8 _) => true
  | uint16, .localSlot _ => true
  | uint16, .argument _ => true
  | uint16, .immediate (.uint8 _) => true
  | uint16, .immediate (.uint16 _) => true
  | _, _ => false

end OperandKind

/-- An entry of the opcode table. -/
structure Opcode where
  mnemonic : String
  size : Nat
  flow : FlowType
  operand : OperandKind
deriving DecidableEq, Inhabited

namespace Opcode

/-- The opcode table. -/
def table : List Opcode :=
  [
    -- Stack
    ⟨"nop", 1, .sequential, .none⟩,
    ⟨"break", 1, .debugBreak, .none⟩,
    ⟨"dup", 1, .sequential, .none⟩,
    ⟨"pop", 1, .sequential, .none⟩,
    -- Arguments
    ⟨"ldarg.0", 1, .sequential, .none⟩,
    ⟨"ldarg.1", 1, .sequential, .none⟩,
    ⟨"ldarg.2", 1, .sequential, .none⟩,
    ⟨"ldarg.3", 1, .sequential, .none⟩,
    ⟨"ldarg.s", 2, .sequential, .uint8⟩,
    ⟨"ldarg", 4, .sequential, .uint16⟩,
    -- Locals
    ⟨"ldloc.0", 1, .sequential, .none⟩,
    ⟨"ldloc.1", 1, .sequential, .none⟩,
    ⟨"ldloc.2", 1, .sequential, .none⟩,
    ⟨"ldloc.3", 1, .sequential, .none⟩,
    ⟨"ldloc.s", 2, .sequential, .uint8⟩,
    ⟨"ldloc", 4, .sequential, .uint16⟩,
    ⟨"stloc.0", 1, .sequential, .none⟩,
    ⟨"stloc.1", 1, .sequential, .none⟩,
    ⟨"stloc.2", 1, .sequential, .none⟩,
    ⟨"stloc.3", 1, .sequential, .none⟩,
    ⟨"stloc.s", 2, .sequential, .uint8⟩,
    ⟨"stloc", 4, .sequential, .uint16⟩,
    -- Constants
    ⟨"ldc.i4.m1", 1, .sequential, .none⟩,
    ⟨"ldc.i4.0", 1, .sequential, .none⟩,
    ⟨"ldc.i4.1", 1, .sequential, .none⟩,
    ⟨"ldc.i4.2", 1, .sequential, .none⟩,
    ⟨"ldc.i4.3", 1, .sequential, .none⟩,
    ⟨"ldc.i4.4", 1, .sequential, .none⟩,
    ⟨"ldc.i4.5", 1, .sequential, .none⟩,
    ⟨"ldc.i4.6", 1, .sequential, .none⟩,
    ⟨"ldc.i4.7", 1, .sequential, .none⟩,
    ⟨"ldc.i4.8", 1, .sequential, .none⟩,
    ⟨"ldc.i4.s", 2, .sequential, .int8⟩,
    ⟨"ldc.i4", 5, .sequential, .int32⟩,
    ⟨"ldstr", 5, .sequential, .string⟩,
    -- Arithmetic and comparison
    ⟨"add", 1, .sequential, .none⟩,
    ⟨"sub", 1, .sequential, .none⟩,
    ⟨"div", 1, .sequential, .none⟩,
    ⟨"ceq", 2, .sequential, .none⟩,
    ⟨"cgt", 2, .sequential, .none⟩,
    ⟨"clt", 2, .sequential, .none⟩,
    -- Conversion
    ⟨"conv.i1", 1, .sequential, .none⟩,
    ⟨"conv.i2", 1, .sequential, .none⟩,
    ⟨"conv.i4", 1, .sequential, .none⟩,
    ⟨"conv.i8", 1, .sequential, .none⟩,
    ⟨"conv.u1", 1, .sequential, .none⟩,
    ⟨"conv.u2", 1, .sequential, .none⟩,
    ⟨"conv.u4", 1, .sequential, .none⟩,
    ⟨"conv.u8", 1, .sequential, .none⟩,
    ⟨"conv.r4", 1, .sequential, .none⟩,
    ⟨"conv.r8", 1, .sequential, .none⟩,
    -- Objects
    ⟨"isinst", 5, .sequential, .type⟩,
    ⟨"ldfld", 5, .sequential, .field⟩,
    ⟨"stfld", 5, .sequential, .field⟩,
    ⟨"stind.ref", 1, .sequential, .none⟩,
    -- Arrays
    ⟨"newarr", 5, .sequential, .type⟩,
    ⟨"ldlen", 1, .sequential, .none⟩,
    ⟨"ldelem.i1", 1, .sequential, .none⟩,
    ⟨"ldelem.i2", 1, .sequential, .none⟩,
    ⟨"ldelem.i4", 1, .sequential, .none⟩,
    ⟨"ldelem.ref", 1, .sequential, .none⟩,
    ⟨"ldelema", 5, .sequential, .type⟩,
    ⟨"stelem.i1", 1, .sequential, .none⟩,
    ⟨"stelem.i2", 1, .sequential, .none⟩,
    ⟨"stelem.i4", 1, .sequential, .none⟩,
    ⟨"stelem.ref", 1, .sequential, .none⟩,
    -- Calls
    ⟨"call", 5, .call, .method⟩,
    ⟨"callvirt", 5, .call, .method⟩,
    ⟨"newobj", 5, .call, .method⟩,
    -- Branches
    ⟨"br.s", 2, .unconditionalBranch, .target⟩,
    ⟨"br", 5, .unconditionalBranch, .target⟩,
    ⟨"brfalse.s", 2, .conditionalBranch, .target⟩,
    ⟨"brfalse", 5, .conditionalBranch, .target⟩,
    ⟨"brtrue.s", 2, .conditionalBranch, .target⟩,
    ⟨"brtrue", 5, .conditionalBranch, .target⟩,
    -- Return and exceptions
    ⟨"ret", 1, .ret, .none⟩,
    ⟨"throw", 1, .throw, .none⟩]

/-- The entry of a mnemonic. -/
def lookup (mnemonic : String) : Option Opcode :=
  table.find? (·.mnemonic == mnemonic)

end Opcode

end CilMachine
