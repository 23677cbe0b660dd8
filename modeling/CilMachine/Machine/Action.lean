/-
CilMachine/Machine/Action.lean

What each action does to the machine.  An action that calls a method does everything up to the call
and yields the call; running it is left to the engine.  So no action recurses.
-/
import CilMachine.Instruction.Action
import CilMachine.Machine.Basic
import CilMachine.Value.Arithmetic
import CilMachine.Value.Conversion

namespace CilMachine

/-- Where execution goes on after an instruction. -/
inductive Outcome
  | next
  | jump (target : Nat)
  | leave
deriving DecidableEq, Inhabited

/-- A call that is ready to be made.  `created` is the object that a constructor call is for, which
is pushed once the constructor is done. -/
structure Call where
  method : Method
  arguments : List Value
  created : Option Handle := none
deriving Inhabited

/-- What an action asks for: to go on, or to make a call first. -/
inductive Effect
  | outcome (o : Outcome)
  | call (c : Call)
deriving Inhabited

namespace Machine

/-- The action is done, and the next instruction follows. -/
def proceed : Op Effect := return .outcome .next

/-! ### Objects -/

/-- Pushes a new string object. -/
def loadString (ctx : Context) (s : String) : Op Effect := do
  let type ← ctx.catalog.resolveType .string
  let r ← allocate fun h => .ok (h.allocString type.ref s)
  recordIf ctx.tracing.heap (.stringLoaded s r)
  push (.object r)
  proceed

/-- Whether an object is an instance of a type.  Arrays are only instances of the root. -/
def isInstance (ctx : Context) (target : TypeRef) : HeapObject → Except ExecError Bool
  | .record type _ => ctx.catalog.isAssignable type target
  | .array _ _ => .ok (target == .object)

/-- Replaces the top handle by null unless its object is an instance of a type. -/
def typeTest (ctx : Context) (target : TypeRef) : Op Effect := do
  match ← pop with
  | .null => push .null
  | .object r =>
    discard (ctx.catalog.resolveType target)
    let o ← readHeap (·.get r)
    push (if ← isInstance ctx target o then .object r else .null)
  | v => throw (rejected .typeTest v)
  proceed

/-- Pushes a field of an instance. -/
def loadField (ctx : Context) (f : FieldRef) : Op Effect := do
  discard (ctx.catalog.resolveField f)
  let r ← popObject .loadField
  push (← readHeap (·.getField r f.name))
  proceed

/-- Stores a value in a field of an instance.  The value has to fit the declared flavor. -/
def storeField (ctx : Context) (f : FieldRef) : Op Effect := do
  let declared ← ctx.catalog.resolveField f
  let flavor ← ctx.catalog.flavorOf declared.type
  let v ← pop
  let r ← popObject .storeField
  unless v.fits flavor do throw (rejected (.storeFieldAs flavor f.name) v)
  writeHeap (·.setField r f.name v)
  proceed

/-- Copies the text field of one instance to another. -/
def storeIndirect : Op Effect := do
  let source ← popObject .storeIndirect
  let destination ← popObject .storeIndirect
  let v ← readHeap (·.getField source textField)
  writeHeap (·.setField destination textField v)
  proceed

/-! ### Arrays -/

/-- Pushes a new array. -/
def newArray (ctx : Context) (element : TypeRef) : Op Effect := do
  let type ← ctx.catalog.resolveType element
  let n ← popInteger .newArray
  if n.toInt < 0 then throw (.execution (.arrayIndexOutOfBounds n.toInt 0))
  let length := n.toInt.toNat
  let r ← allocate (·.allocArray type.ref type.flavor length)
  recordIf ctx.tracing.heap (.arrayAllocated element length r)
  push (.object r)
  proceed

/-- Pushes the length of an array. -/
def arrayLength : Op Effect := do
  let r ← popObject .arrayLength
  let length ← readHeap (·.arrayLength r)
  push (.int32 (Int32.ofNat length))
  proceed

/-- Pushes an element of a value array as an access of a width sees it. -/
def loadElement (width : ElementWidth) : Op Effect := do
  let index ← popInteger .loadElement
  let r ← popObject .loadElement
  let v ← readHeap (·.getElement r index.toInt)
  match v.int32? with
  | some n => push (.int32 (width.cut n.toInt64))
  | none => throw (rejected .loadElement v)
  proceed

/-- Stores an integer, cut to a width, in a value array. -/
def storeElement (width : ElementWidth) : Op Effect := do
  let v ← pop
  let index ← popInteger .storeElement
  let r ← popObject .storeElement
  match v.integer? with
  | some n => writeHeap (·.setElement r index.toInt (.int32 (width.cut n)))
  | none => throw (rejected .storeElement v)
  proceed

/-- The handle in a slot of a reference array.  An empty slot is filled first, with a new instance
of the element type. -/
def materialize (ctx : Context) (r : Handle) (index : Int) : Op Handle := do
  match ← readHeap (·.getReference r index) with
  | some h => return h
  | none =>
    let element ← readHeap (·.elementType r)
    let h ← allocateObject ctx element
    writeHeap (·.setReference r index (some h))
    return h

/-- Pushes the handle in a slot of a reference array. -/
def loadElementRef (ctx : Context) : Op Effect := do
  let index ← popInteger .loadElementRef
  let r ← popObject .loadElementRef
  push (.object (← materialize ctx r index.toInt))
  proceed

/-- Pops what a slot can hold: a handle, or null for nothing. -/
def popSlot : Op (Option Handle) := do
  match ← pop with
  | .object h => return some h
  | .null => return none
  | v => throw (rejected .storeElementRef v)

/-- Stores a handle in a slot of a reference array. -/
def storeElementRef : Op Effect := do
  let slot ← popSlot
  let index ← popInteger .storeElementRef
  let r ← popObject .storeElementRef
  writeHeap (·.setReference r index.toInt slot)
  proceed

/-! ### Calls -/

/-- The type that decides which override a virtual call reaches. -/
def runtimeType (ctx : Context) (r : Handle) : Op TypeRef := do
  match ← readHeap (·.get r) with
  | .record type _ => return type
  | .array _ _ => return (← ctx.catalog.resolveType .object).ref

/-- Asks the dispatcher, and keeps its answer. -/
def dispatchTo (ctx : Context) (declared : Method) (runtime : TypeRef) : Op Method := do
  let (m, d) ← (← get).dispatch.resolve ctx.catalog declared runtime
  modify fun s => { s with dispatch := d }
  return m

/-- The method that a virtual call on a receiver reaches. -/
def resolveVirtual (ctx : Context) (declared : Method) (receiver : Value) : Op Method := do
  match receiver with
  | .object r =>
    if declared.isVirtual then dispatchTo ctx declared (← runtimeType ctx r)
    else return declared
  | .null => throw (.execution .nullReference)
  | v => throw (rejected .callVirtual v)

/-- Takes the arguments of a call off the operand stack and finds the method to run. -/
def prepareCall (ctx : Context) (m : MethodRef) (throughReceiver : Bool) : Op Call := do
  let declared ← ctx.catalog.resolveMethod m
  let arguments ← popMany declared.paramCount
  if declared.isStatic then return { method := declared, arguments }
  let receiver ← pop
  let target ← if throughReceiver then resolveVirtual ctx declared receiver else pure declared
  return { method := target, arguments := receiver :: arguments }

/-- Makes the call of a constructor ready: the new object is its first argument. -/
def prepareConstruction (ctx : Context) (ctor : MethodRef) (arguments : List Value) :
    Op (Handle × Call) := do
  let m ← ctx.catalog.resolveConstructor ctor
  if arguments.length ≠ m.paramCount then
    throw (.malformed (.constructorArguments ctor m.paramCount arguments.length))
  let r ← allocateObject ctx ctor.declaring
  return (r, { method := m, arguments := .object r :: arguments, created := some r })

/-! ### All actions -/

/-- Performs an action on the top frame. -/
def perform (ctx : Context) : Action → Op Effect
  | .nop => proceed
  | .pop => do
    discard pop
    proceed
  | .dup => do
    dup
    proceed
  | .loadConstant n => do
    push (.int32 n)
    proceed
  | .loadString s => loadString ctx s
  | .loadArgument index => do
    push (← (← frame).argument index.toNat)
    proceed
  | .loadLocal index => do
    push (← (← frame).locals.get index.toNat)
    proceed
  | .storeLocal index => do
    setLocal index.toNat (← pop)
    proceed
  | .arithmetic op => do
    let right ← pop
    let left ← pop
    push (← left.arithmetic op right)
    proceed
  | .compare op => do
    let right ← pop
    let left ← pop
    push (← left.compare op right)
    proceed
  | .convert op => do
    let v ← pop
    push (← v.convert op)
    proceed
  | .typeTest target => typeTest ctx target
  | .loadField f => loadField ctx f
  | .storeField f => storeField ctx f
  | .storeIndirect => storeIndirect
  | .newArray element => newArray ctx element
  | .arrayLength => arrayLength
  | .loadElement width => loadElement width
  | .storeElement width => storeElement width
  | .loadElementRef => loadElementRef ctx
  | .storeElementRef => storeElementRef
  | .jump target => return .outcome (.jump target)
  | .branch onTrue target => do
    let v ← pop
    match v.condition? with
    | some b => return .outcome (if b = onTrue then .jump target else .next)
    | none => throw (rejected (.branch onTrue) v)
  | .leave => return .outcome .leave
  | .call m => return .call (← prepareCall ctx m false)
  | .callVirtual m => return .call (← prepareCall ctx m true)
  | .newObject ctor => do
    let arguments ← popMany ctor.paramCount
    return .call (← prepareConstruction ctx ctor arguments).2

/-- Performs an instruction, up to the call that it may make. -/
def performInstruction (ctx : Context) (i : Instruction) : Op Effect := do
  perform ctx (← i.action?)

end Machine

end CilMachine
