/-
CilMachine/Frame.lean

Frames.  A frame has the arguments, the locals and the operand stack of one activation of a method;
an entry frame belongs to the host and only takes up results.  Operand stacks are lists with the top
first; every frame has its own.
-/
import CilMachine.Catalog.Method

namespace CilMachine

/-! ### Locals -/

/-- A local slot: its declared flavor and what it holds. -/
structure Slot where
  flavor : Flavor
  value : Value
deriving DecidableEq, Inhabited

/-- The local slots of a frame. -/
abbrev Locals := List Slot

namespace Locals

/-- Fresh slots, each with the default of its flavor. -/
def ofFlavors (flavors : List Flavor) : Locals := flavors.map fun f => ⟨f, .default f⟩

/-- Reads a slot. -/
def get (ls : Locals) (index : Nat) : Except ExecError Value :=
  match ls[index]? with
  | some slot => .ok slot.value
  | none => .error (.localOutOfBounds index ls.length)

/-- Writes a slot.  The value has to fit the slot's flavor. -/
def set (ls : Locals) (index : Nat) (v : Value) : Except ExecError Locals :=
  match ls[index]? with
  | some slot =>
    if v.fits slot.flavor then .ok (List.set ls index { slot with value := v })
    else .error (.invalidOperationTypes (.storeLocal slot.flavor index) [v.kind])
  | none => .error (.localOutOfBounds index ls.length)

end Locals

/-! ### Operand stacks -/

/-- An operand stack, top first. -/
abbrev OperandStack := List Value

namespace OperandStack

/-- Takes the top value off. -/
def pop : OperandStack → Except ExecError (Value × OperandStack)
  | [] => .error .stackUnderflow
  | v :: rest => .ok (v, rest)

/-- Reads the top value. -/
def peek : OperandStack → Except ExecError Value
  | [] => .error .stackUnderflow
  | v :: _ => .ok v

/-- Takes so many values off; they come in the order in which they were pushed. -/
def popMany (s : OperandStack) (count : Nat) : Except ExecError (List Value × OperandStack) :=
  if count ≤ s.length then .ok ((s.take count).reverse, s.drop count)
  else .error .stackUnderflow

/-- Repeats the top value. -/
def dup : OperandStack → Except ExecError OperandStack
  | [] => .error .stackUnderflow
  | v :: rest => .ok (v :: v :: rest)

end OperandStack

/-! ### Frames -/

/-- An activation of a method, or an entry frame if there is no method.  The caller is the method of
the frame below. -/
structure Frame where
  caller : Option Method := none
  method : Option Method := none
  arguments : List Value := []
  locals : Locals := []
  stack : OperandStack := []
deriving Inhabited

namespace Frame

/-- A fresh frame for a method. -/
def ofMethod (caller : Option Method) (m : Method) (arguments : List Value) : Frame where
  caller := caller
  method := some m
  arguments := arguments
  locals := .ofFlavors m.locals

/-- A fresh entry frame. -/
def entry : Frame := {}

/-- Whether the frame is an entry frame. -/
def isEntry (f : Frame) : Bool := f.method.isNone

/-- The full name of the method, as listings show it. -/
def label (f : Frame) : String :=
  match f.method with
  | some m => m.fullName
  | none => "<entry>"

/-- Reads an argument. -/
def argument (f : Frame) (index : Nat) : Except ExecError Value :=
  match f.arguments[index]? with
  | some v => .ok v
  | none => .error (.argumentOutOfBounds index f.arguments.length)

/-- Pushes a value. -/
def push (f : Frame) (v : Value) : Frame := { f with stack := v :: f.stack }

end Frame

end CilMachine
