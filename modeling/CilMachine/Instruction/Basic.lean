/-
CilMachine/Instruction/Basic.lean

Instructions as a decoder hands them over: a byte offset, an encoded size, a mnemonic, a flow
category and a symbolic operand.  Nothing is assumed about how these fit together; the machine
checks when an instruction is executed.
-/
import CilMachine.Reference
import CilMachine.Text.Offset
import CilMachine.Text.Quoted
import CilMachine.Decimal.Shortest

namespace CilMachine

/-- How an instruction passes control on. -/
inductive FlowType
  | sequential | conditionalBranch | unconditionalBranch | call | ret
  | throw | debugBreak | metadata | unsupported
deriving DecidableEq, Inhabited

namespace FlowType

/-- All categories. -/
def all : List FlowType :=
  [sequential, conditionalBranch, unconditionalBranch, call, ret, throw, debugBreak, metadata,
    unsupported]

/-- The written form. -/
def text : FlowType → String
  | sequential => "Sequential"
  | conditionalBranch => "ConditionalBranch"
  | unconditionalBranch => "UnconditionalBranch"
  | call => "Call"
  | ret => "Return"
  | throw => "Throw"
  | debugBreak => "Break"
  | metadata => "Meta"
  | unsupported => "Unsupported"

/-- Reads the written form. -/
def ofText? (s : String) : Option FlowType :=
  all.find? (·.text == s)

/-- Whether an instruction of the category may jump. -/
def isBranch : FlowType → Bool
  | conditionalBranch | unconditionalBranch => true
  | _ => false

/-- Whether no instruction of the category can be executed. -/
def isUnsupported : FlowType → Bool
  | throw | debugBreak | metadata | unsupported => true
  | _ => false

end FlowType

/-- An immediate constant with its encoded width. -/
inductive Immediate
  | int8 (n : Int8)
  | uint8 (n : UInt8)
  | uint16 (n : UInt16)
  | int32 (n : Int32)
  | int64 (n : Int64)
  | float32 (bits : UInt32)
  | float64 (bits : UInt64)
deriving DecidableEq, Inhabited

/-- The written form of a constant, without a mark of its width. -/
def Immediate.text : Immediate → String
  | int8 n => toString n.toInt
  | uint8 n => toString n.toNat
  | uint16 n => toString n.toNat
  | int32 n => toString n.toInt
  | int64 n => toString n.toInt
  | float32 bits => Decimal.singleText bits
  | float64 bits => Decimal.doubleText bits

/-- What an instruction works on beside the operand stack. -/
inductive Operand
  | none
  | immediate (c : Immediate)
  | string (s : String)
  | target (offset : Nat)
  | localSlot (index : UInt16)
  | argument (index : UInt16)
  | field (f : FieldRef)
  | type (t : TypeRef)
  | method (m : MethodRef)
deriving DecidableEq, Inhabited

namespace Operand

/-- The written form. -/
def text : Operand → String
  | none => ""
  | immediate c => c.text
  | string s => Text.quoted s
  | target offset => Text.offsetLabel offset
  | localSlot index => "V_" ++ toString index.toNat
  | argument index => "A_" ++ toString index.toNat
  | field f => f.text
  | type t => t.text
  | method m => m.text

/-- The slot index that an operand gives: a slot, or an integer constant that is one. -/
def index? : Operand → Option UInt16
  | localSlot index | argument index => some index
  | immediate (.uint8 n) => some n.toUInt16
  | immediate (.uint16 n) => some n
  | immediate (.int8 n) => ofInt? n.toInt
  | immediate (.int32 n) => ofInt? n.toInt
  | immediate (.int64 n) => ofInt? n.toInt
  | _ => Option.none
where
  ofInt? (n : Int) : Option UInt16 :=
    if 0 ≤ n ∧ n < 0x10000 then some n.toNat.toUInt16 else Option.none

/-- The 32-bit constant that an operand gives.  An unsigned byte counts as the signed byte with the
same bits. -/
def int32? : Operand → Option Int32
  | immediate (.int32 n) => some n
  | immediate (.int8 n) => some n.toInt32
  | immediate (.uint8 n) => some n.toInt8.toInt32
  | immediate (.uint16 n) => some (Int32.ofNat n.toNat)
  | immediate (.int64 n) =>
    if -0x80000000 ≤ n.toInt ∧ n.toInt < 0x80000000 then some n.toInt32 else Option.none
  | _ => Option.none

/-- The jump target. -/
def target? : Operand → Option Nat
  | target offset => some offset
  | _ => Option.none

/-- The string literal. -/
def string? : Operand → Option String
  | string s => some s
  | _ => Option.none

/-- The field reference. -/
def field? : Operand → Option FieldRef
  | field f => some f
  | _ => Option.none

/-- The type reference. -/
def type? : Operand → Option TypeRef
  | type t => some t
  | _ => Option.none

/-- The method reference. -/
def method? : Operand → Option MethodRef
  | method m => some m
  | _ => Option.none

end Operand

/-- The offset a number of bytes behind another one.  Offsets are 64-bit numbers, so behind the last
of them comes zero again. -/
def advance (offset size : Nat) : Nat := (offset + size) % UInt64.size

theorem advance_of_lt {offset size : Nat} (h : offset + size < UInt64.size) :
    advance offset size = offset + size :=
  Nat.mod_eq_of_lt h

/-- One instruction of a method body. -/
structure Instruction where
  offset : Nat
  size : Nat
  mnemonic : String
  flow : FlowType
  operand : Operand
deriving DecidableEq, Inhabited

namespace Instruction

/-- The offset just behind the instruction. -/
def nextOffset (i : Instruction) : Nat := advance i.offset i.size

/-- A blank and the operand, or nothing where there is no operand. -/
def operandSuffix (i : Instruction) : String :=
  if i.operand = .none then "" else " " ++ i.operand.text

/-- The written form: label, mnemonic and operand. -/
def text (i : Instruction) : String :=
  Text.offsetLabel i.offset ++ ": " ++ i.mnemonic ++ i.operandSuffix

/-- The form for listings: the mnemonic fills a column of twelve characters and the flow category
follows the operand. -/
def listing (i : Instruction) : String :=
  Text.offsetLabel i.offset ++ ": " ++ Text.padRight 12 i.mnemonic ++ i.operandSuffix ++
    " [" ++ i.flow.text ++ "]"

end Instruction

end CilMachine
