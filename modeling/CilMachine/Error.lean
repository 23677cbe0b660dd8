/-
CilMachine/Error.lean

Everything that can go wrong, by cause.  A program can be malformed, it can ask for something that
is not supported, and its execution can fail.  An execution error that an instruction raised is
wrapped once in a `fault` that says where; `cause` looks through that wrapping.  The wording of all
errors is in this module and nowhere else.
-/
import CilMachine.Flavor
import CilMachine.Instruction.Opcode
import CilMachine.Value.Basic
import CilMachine.Value.Operator

namespace CilMachine

/-! ### Errors of programs -/

/-- Ways in which a body, a type or a call is not well formed. -/
inductive Malformed
  | duplicateOffset (offset : Nat)
  | operandMismatch (operand : Operand) (mnemonic : String) (expected : OperandKind)
  | notABranch (mnemonic : String)
  | labelDefinedTwice (label : String)
  | undefinedLabel (label : String)
  | typeRegistered (type : TypeRef)
  | fieldDeclaredTwice (field : FieldRef)
  | methodDeclaredTwice (method : MethodRef)
  | constructorArguments (ctor : MethodRef) (expected given : Nat)
  | methodArguments (method : MethodRef) (expected given : Nat)
deriving DecidableEq, Inhabited

/-- The wording. -/
def Malformed.message : Malformed → String
  | duplicateOffset offset => "Duplicate instruction offset " ++ Text.offsetLabel offset
  | operandMismatch operand mnemonic expected =>
    "Operand '" ++ operand.text ++ "' does not fit " ++ mnemonic ++ " (expected " ++
      expected.text ++ ")"
  | notABranch mnemonic => "'" ++ mnemonic ++ "' is not a branch instruction"
  | labelDefinedTwice label => "Label '" ++ label ++ "' defined twice"
  | undefinedLabel label => "Undefined label '" ++ label ++ "'"
  | typeRegistered type => "Type " ++ type.text ++ " is already registered"
  | fieldDeclaredTwice field =>
    "Field " ++ field.name ++ " declared twice on " ++ field.declaring.text
  | methodDeclaredTwice method =>
    "Method " ++ method.text ++ " declared twice on " ++ method.declaring.text
  | constructorArguments ctor expected given =>
    "Constructor " ++ ctor.text ++ " expects " ++ toString expected ++ " arguments, got " ++
      toString given
  | methodArguments method expected given =>
    method.text ++ " takes " ++ toString expected ++ " arguments, got " ++ toString given

/-- Things that a program may ask for in vain. -/
inductive Unsupported
  | mnemonic (name : String)
  | builtIn (method : MethodRef)
deriving DecidableEq, Inhabited

/-- The wording. -/
def Unsupported.message : Unsupported → String
  | mnemonic name => "mnemonic '" ++ name ++ "'"
  | builtIn method => "built-in method " ++ method.text ++ " has no native implementation"

/-! ### Errors of execution -/

/-- Things that were looked up and not found. -/
inductive Missing
  | type (type : TypeRef)
  | method (method : MethodRef)
  | constructor (ctor : MethodRef)
  | field (field : FieldRef)
  | virtualOverride (method : MethodRef) (on : TypeRef)
  | body (method : MethodRef)
  | heapObject (handle : Handle)
  | instanceField (type : TypeRef) (name : String)
deriving DecidableEq, Inhabited

/-- What kind of thing is missing, and its name. -/
def Missing.text : Missing → String
  | type t => "type: " ++ t.text
  | method m => "method: " ++ m.text
  | constructor c => "constructor: " ++ c.text
  | field f => "field: " ++ f.text
  | virtualOverride m on => "virtual override: " ++ m.text ++ " on " ++ on.text
  | body m => "method body: " ++ m.text
  | heapObject handle => "heap object: " ++ handle.text
  | instanceField t name => "field: " ++ t.name ++ "::" ++ name

/-- The ways in which a frame can be left with the wrong number of values. -/
inductive ReturnFault
  | noValue
  | leftOver (count : Nat)
deriving DecidableEq, Inhabited

/-- The wording. -/
def ReturnFault.text : ReturnFault → String
  | noValue => "returned without a value"
  | leftOver count => "left " ++ toString count ++ " values on its stack"

/-- The operands that an instruction can turn out not to have. -/
inductive OperandRole
  | int32 | string | argumentIndex | localIndex | branchTarget | method | field | type
deriving DecidableEq, Inhabited

/-- The wording. -/
def OperandRole.text : OperandRole → String
  | int32 => "int32"
  | string => "string"
  | argumentIndex => "argument index"
  | localIndex => "local index"
  | branchTarget => "branch target"
  | method => "method"
  | field => "field"
  | type => "type"

/-- The operations that reject values of the wrong kind. -/
inductive Operation
  | arithmetic (op : Arithmetic)
  | comparison (op : Comparison)
  | conversion (op : Conversion)
  | branch (onTrue : Bool)
  | callVirtual
  | typeTest
  | loadField
  | storeField
  | storeFieldAs (flavor : Flavor) (name : String)
  | storeIndirect
  | newArray
  | arrayLength
  | loadElement
  | storeElement
  | loadElementRef
  | storeElementRef
  | storeLocal (flavor : Flavor) (index : Nat)
  | stringConstruction
deriving DecidableEq, Inhabited

/-- The wording. -/
def Operation.text : Operation → String
  | arithmetic op => op.mnemonic
  | comparison op => op.mnemonic
  | conversion op => op.mnemonic
  | branch onTrue => if onTrue then "brtrue" else "brfalse"
  | callVirtual => "callvirt"
  | typeTest => "isinst"
  | loadField => "ldfld"
  | storeField => "stfld"
  | storeFieldAs flavor name => "stfld " ++ flavor.text ++ " " ++ name
  | storeIndirect => "stind.ref"
  | newArray => "newarr"
  | arrayLength => "ldlen"
  | loadElement => "ldelem"
  | storeElement => "stelem"
  | loadElementRef => "ldelem.ref"
  | storeElementRef => "stelem.ref"
  | storeLocal flavor index => "store to " ++ flavor.text ++ " local " ++ toString index
  | stringConstruction => "System.String::.ctor"

/-- What a heap access expects or finds. -/
inductive Shape
  | record
  | array
  | valueArray
  | referenceArray
  | charArray
  | char
  | string
  | objectReference
  | value (kind : ValueKind)
deriving DecidableEq, Inhabited

/-- The wording. -/
def Shape.text : Shape → String
  | record => "instance"
  | array => "array"
  | valueArray => "value array"
  | referenceArray => "reference array"
  | charArray => "char array"
  | char => "char"
  | string => "string"
  | objectReference => "object reference"
  | value kind => kind.name

/-- Where an instruction failed: the method's full name, and the instruction. -/
structure Site where
  method : String
  offset : Nat
  mnemonic : String
deriving DecidableEq, Inhabited

/-- The ways in which execution fails.  Every failure is fatal for the invocation it occurs in. -/
inductive ExecError
  | unsupportedInstruction (mnemonic : String) (flow : FlowType)
  | unresolved (missing : Missing)
  | stackDepthExceeded (depth limit : Nat)
  | inconsistentReturn (method : String) (how : ReturnFault)
  | stackUnderflow
  | noActiveFrame
  | localOutOfBounds (index count : Nat)
  | argumentOutOfBounds (index count : Nat)
  | invalidBranchTarget (target : Nat)
  | invalidOperand (mnemonic : String) (expected : OperandRole)
  | invalidOperationTypes (operation : Operation) (operands : List ValueKind)
  | nullReference
  | arrayIndexOutOfBounds (index : Int) (length : Nat)
  | arrayTooLarge (length : Int)
  | heapTypeMismatch (expected found : Shape)
  | divideByZero
  | fault (site : Site) (source : ExecError)
deriving DecidableEq, Inhabited

/-- The coarse classes of execution errors. -/
inductive ErrorKind
  | unsupportedOperation | resolutionFailure | stackDepthExceeded | inconsistentReturn
  | invalidProgram
deriving DecidableEq, Inhabited

/-- The written form. -/
def ErrorKind.text : ErrorKind → String
  | unsupportedOperation => "UnsupportedOperation"
  | resolutionFailure => "ResolutionFailure"
  | stackDepthExceeded => "StackDepthExceeded"
  | inconsistentReturn => "InconsistentReturn"
  | invalidProgram => "InvalidProgram"

namespace ExecError

/-- The error without the faults that say where it arose. -/
def cause : ExecError → ExecError
  | fault _ source => source.cause
  | e => e

/-- Whether the error says where it arose. -/
def isLocated : ExecError → Bool
  | fault _ _ => true
  | _ => false

/-- The error that a located error wraps. -/
def source? : ExecError → Option ExecError
  | fault _ source => some source
  | _ => none

/-- The class of an error, whether located or not. -/
def kind (e : ExecError) : ErrorKind :=
  match e.cause with
  | unsupportedInstruction _ _ => .unsupportedOperation
  | unresolved _ => .resolutionFailure
  | stackDepthExceeded _ _ => .stackDepthExceeded
  | inconsistentReturn _ _ => .inconsistentReturn
  | _ => .invalidProgram

/-- The kinds of the operands of a rejected operation; an absent operand is called missing. -/
def operandText : List ValueKind → String
  | [] => "missing"
  | kinds => ", ".intercalate (kinds.map ValueKind.name)

/-- The wording. -/
def message : ExecError → String
  | unsupportedInstruction mnemonic flow =>
    "unsupported instruction '" ++ mnemonic ++ "' (" ++ flow.text ++ ")"
  | unresolved missing => "unresolved " ++ missing.text
  | stackDepthExceeded depth limit =>
    "call depth " ++ toString depth ++ " exceeds limit of " ++ toString limit
  | inconsistentReturn method how => "inconsistent return: " ++ method ++ " " ++ how.text
  | stackUnderflow => "evaluation stack underflow"
  | noActiveFrame => "no active frame"
  | localOutOfBounds index count =>
    "local " ++ toString index ++ " out of range (" ++ toString count ++ " locals)"
  | argumentOutOfBounds index count =>
    "argument " ++ toString index ++ " out of range (" ++ toString count ++ " arguments)"
  | invalidBranchTarget target =>
    "branch target " ++ Text.offsetLabel target ++ " is not an instruction offset"
  | invalidOperand mnemonic expected =>
    "'" ++ mnemonic ++ "' expects a " ++ expected.text ++ " operand"
  | invalidOperationTypes operation operands =>
    operation.text ++ " not supported for (" ++ operandText operands ++ ")"
  | nullReference => "null reference"
  | arrayIndexOutOfBounds index length =>
    "array index " ++ toString index ++ " out of range (length " ++ toString length ++ ")"
  | arrayTooLarge length => "cannot allocate an array of " ++ toString length ++ " elements"
  | heapTypeMismatch expected found => "expected " ++ expected.text ++ ", found " ++ found.text
  | divideByZero => "integer division by zero"
  | fault site source =>
    site.method ++ " at " ++ Text.offsetLabel site.offset ++ " (" ++ site.mnemonic ++ "): " ++
      source.message

end ExecError

/-- The ways in which an operation of the library fails. -/
inductive Failure
  | malformed (why : Malformed)
  | unsupported (what : Unsupported)
  | execution (error : ExecError)
deriving DecidableEq, Inhabited

namespace Failure

/-- The wording. -/
def message : Failure → String
  | malformed why => "Malformed - " ++ why.message
  | unsupported what => "Not supported - " ++ what.message
  | execution error => error.message

/-- The failure to find something. -/
def unresolved (missing : Missing) : Failure := execution (.unresolved missing)

/-- Says where a failure arose: an execution error gets the place of the failing instruction,
unless it has one already. -/
def locate (site : Site) : Failure → Failure
  | execution error =>
    if error.isLocated then execution error else execution (.fault site error)
  | f => f

end Failure

end CilMachine
