/-
CilMachine/Instruction/Action.lean

What instructions ask the machine to do.  `Instruction.action?` reads an action off the flow
category, the mnemonic and the operand; it touches no state, so an instruction that cannot be read
fails before it has any effect.
-/
import CilMachine.Error

namespace CilMachine

/-- The part of an array element that an instruction accesses. -/
inductive ElementWidth
  | w8 | w16 | w32
deriving DecidableEq, Inhabited

/-- The element as an access of a width sees it, extended by its sign. -/
def ElementWidth.cut (n : Int64) : ElementWidth → Int32
  | w8 => n.toInt8.toInt32
  | w16 => n.toInt16.toInt32
  | w32 => n.toInt32

/-- What an instruction does. -/
inductive Action
  | nop
  | pop
  | dup
  | loadConstant (n : Int32)
  | loadString (s : String)
  | loadArgument (index : UInt16)
  | loadLocal (index : UInt16)
  | storeLocal (index : UInt16)
  | arithmetic (op : Arithmetic)
  | compare (op : Comparison)
  | convert (op : Conversion)
  | typeTest (target : TypeRef)
  | loadField (f : FieldRef)
  | storeField (f : FieldRef)
  | storeIndirect
  | newArray (element : TypeRef)
  | arrayLength
  | loadElement (width : ElementWidth)
  | storeElement (width : ElementWidth)
  | loadElementRef
  | storeElementRef
  | jump (target : Nat)
  | branch (onTrue : Bool) (target : Nat)
  | leave
  | call (m : MethodRef)
  | callVirtual (m : MethodRef)
  | newObject (ctor : MethodRef)
deriving DecidableEq, Inhabited

/-- How a mnemonic becomes an action: at once, or with an operand. -/
inductive ActionForm
  | plain (a : Action)
  | constant
  | string
  | loadArgument
  | loadLocal
  | storeLocal
  | typeTest
  | loadField
  | storeField
  | newArray
deriving DecidableEq, Inhabited

/-- The mnemonics of the sequential category. -/
def sequentialForms : List (String × ActionForm) :=
  [("nop", .plain .nop),
    ("pop", .plain .pop),
    ("dup", .plain .dup),
    ("ldc.i4.m1", .plain (.loadConstant (-1))),
    ("ldc.i4.0", .plain (.loadConstant 0)),
    ("ldc.i4.1", .plain (.loadConstant 1)),
    ("ldc.i4.2", .plain (.loadConstant 2)),
    ("ldc.i4.3", .plain (.loadConstant 3)),
    ("ldc.i4.4", .plain (.loadConstant 4)),
    ("ldc.i4.5", .plain (.loadConstant 5)),
    ("ldc.i4.6", .plain (.loadConstant 6)),
    ("ldc.i4.7", .plain (.loadConstant 7)),
    ("ldc.i4.8", .plain (.loadConstant 8)),
    ("ldc.i4.s", .constant),
    ("ldc.i4", .constant),
    ("ldstr", .string),
    ("ldarg.0", .plain (.loadArgument 0)),
    ("ldarg.1", .plain (.loadArgument 1)),
    ("ldarg.2", .plain (.loadArgument 2)),
    ("ldarg.3", .plain (.loadArgument 3)),
    ("ldarg.s", .loadArgument),
    ("ldarg", .loadArgument),
    ("ldloc.0", .plain (.loadLocal 0)),
    ("ldloc.1", .plain (.loadLocal 1)),
    ("ldloc.2", .plain (.loadLocal 2)),
    ("ldloc.3", .plain (.loadLocal 3)),
    ("ldloc.s", .loadLocal),
    ("ldloc", .loadLocal),
    ("stloc.0", .plain (.storeLocal 0)),
    ("stloc.1", .plain (.storeLocal 1)),
    ("stloc.2", .plain (.storeLocal 2)),
    ("stloc.3", .plain (.storeLocal 3)),
    ("stloc.s", .storeLocal),
    ("stloc", .storeLocal),
    ("add", .plain (.arithmetic .add)),
    ("sub", .plain (.arithmetic .sub)),
    ("div", .plain (.arithmetic .div)),
    ("ceq", .plain (.compare .eq)),
    ("cgt", .plain (.compare .gt)),
    ("clt", .plain (.compare .lt)),
    ("conv.i1", .plain (.convert .i1)),
    ("conv.i2", .plain (.convert .i2)),
    ("conv.i4", .plain (.convert .i4)),
    ("conv.i8", .plain (.convert .i8)),
    ("conv.u1", .plain (.convert .u1)),
    ("conv.u2", .plain (.convert .u2)),
    ("conv.u4", .plain (.convert .u4)),
    ("conv.u8", .plain (.convert .u8)),
    ("conv.r4", .plain (.convert .r4)),
    ("conv.r8", .plain (.convert .r8)),
    ("isinst", .typeTest),
    ("ldfld", .loadField),
    ("stfld", .storeField),
    ("stind.ref", .plain .storeIndirect),
    ("newarr", .newArray),
    ("ldlen", .plain .arrayLength),
    ("ldelem.i1", .plain (.loadElement .w8)),
    ("ldelem.i2", .plain (.loadElement .w16)),
    ("ldelem.i4", .plain (.loadElement .w32)),
    ("stelem.i1", .plain (.storeElement .w8)),
    ("stelem.i2", .plain (.storeElement .w16)),
    ("stelem.i4", .plain (.storeElement .w32)),
    ("ldelem.ref", .plain .loadElementRef),
    ("ldelema", .plain .loadElementRef),
    ("stelem.ref", .plain .storeElementRef)]

/-- The mnemonics of the branch categories, with the action each makes of a target. -/
def branchAction? (target : Nat) : String → Option Action
  | "br" | "br.s" => some (.jump target)
  | "brtrue" | "brtrue.s" => some (.branch true target)
  | "brfalse" | "brfalse.s" => some (.branch false target)
  | _ => none

/-- The mnemonics of the call category, with the action each makes of a method. -/
def callAction? (m : MethodRef) : String → Option Action
  | "call" => some (.call m)
  | "callvirt" => some (.callVirtual m)
  | "newobj" => some (.newObject m)
  | _ => none

namespace Instruction

/-- The error of an instruction that nothing executes. -/
def unsupported (i : Instruction) : ExecError :=
  .unsupportedInstruction i.mnemonic i.flow

/-- Part of the operand, or the error that it is missing. -/
def need {α : Type} (i : Instruction) (role : OperandRole) (part : Operand → Option α) :
    Except ExecError α :=
  match part i.operand with
  | some a => .ok a
  | none => .error (.invalidOperand i.mnemonic role)

/-- The action of a form, with the instruction's operand. -/
def formAction (i : Instruction) : ActionForm → Except ExecError Action
  | .plain a => .ok a
  | .constant => (i.need .int32 Operand.int32?).map .loadConstant
  | .string => (i.need .string Operand.string?).map .loadString
  | .loadArgument => (i.need .argumentIndex Operand.index?).map .loadArgument
  | .loadLocal => (i.need .localIndex Operand.index?).map .loadLocal
  | .storeLocal => (i.need .localIndex Operand.index?).map .storeLocal
  | .typeTest => (i.need .type Operand.type?).map .typeTest
  | .loadField => (i.need .field Operand.field?).map .loadField
  | .storeField => (i.need .field Operand.field?).map .storeField
  | .newArray => (i.need .type Operand.type?).map .newArray

/-- The action of an instruction.  Branches and calls are asked for their operand first, all others
for their mnemonic. -/
def action? (i : Instruction) : Except ExecError Action :=
  match i.flow with
  | .sequential =>
    match sequentialForms.lookup i.mnemonic with
    | some form => i.formAction form
    | none => .error i.unsupported
  | .call => do
    let m ← i.need .method Operand.method?
    match callAction? m i.mnemonic with
    | some a => .ok a
    | none => .error i.unsupported
  | .conditionalBranch | .unconditionalBranch => do
    let target ← i.need .branchTarget Operand.target?
    match branchAction? target i.mnemonic with
    | some a => .ok a
    | none => .error i.unsupported
  | .ret => if i.mnemonic = "ret" then .ok .leave else .error i.unsupported
  | .throw | .debugBreak | .metadata | .unsupported => .error i.unsupported

end Instruction

end CilMachine
