/-
CilMachine/Machine/Basic.lean

The state of the machine and the small operations that all instructions are made of: values are
pushed and popped on the top frame, the heap is read, written and extended, and the counters and the
log are kept.  An operation may fail; what it did before it failed stays done.
-/
import CilMachine.CallStack
import CilMachine.Config
import CilMachine.Dispatch
import CilMachine.Event
import CilMachine.Stats

namespace CilMachine

/-- What does not change while code runs: the known types and the tracing switches. -/
structure Context where
  catalog : Catalog
  tracing : Tracing := {}
deriving Inhabited

/-- Everything that an execution touches. -/
structure Machine where
  heap : Heap := {}
  calls : CallStack
  dispatch : Dispatch := {}
  stats : Stats := {}
  log : Array Event := #[]
deriving Inhabited

namespace Machine

/-- The machine before anything has run. -/
def ofConfig (config : Config) : Machine := { calls := .ofLimit config.maxCallDepth }

/-- Operations that change the machine and may fail. -/
abbrev Op (α : Type) := ExceptT Failure (StateM Machine) α

/-! ### Log and counters -/

/-- Records an event. -/
def record (e : Event) : Op Unit := modify fun s => { s with log := s.log.push e }

/-- Records an event if its kind is traced. -/
def recordIf (traced : Bool) (e : Event) : Op Unit := if traced then record e else pure ()

/-- Changes the counters. -/
def count (f : Stats → Stats) : Op Unit := modify fun s => { s with stats := f s.stats }

/-! ### Frames -/

/-- The top frame. -/
def frame : Op Frame := do (← get).calls.current

/-- Changes the top frame by an operation that may fail; if it fails, the frame stays as it is. -/
def onFrame {α : Type} (f : Frame → Except ExecError (α × Frame)) : Op α := do
  let (a, changed) ← f (← frame)
  modify fun s => { s with calls := s.calls.setCurrent changed }
  return a

/-- Changes the operand stack of the top frame by an operation that may fail. -/
def onStack {α : Type} (f : OperandStack → Except ExecError (α × OperandStack)) : Op α :=
  onFrame fun fr => (f fr.stack).map fun (a, stack) => (a, { fr with stack })

/-- Pushes a value. -/
def push (v : Value) : Op Unit := onStack fun s => .ok ((), v :: s)

/-- Pops a value. -/
def pop : Op Value := onStack OperandStack.pop

/-- Pops so many values, in the order in which they were pushed. -/
def popMany (n : Nat) : Op (List Value) := onStack (·.popMany n)

/-- Repeats the top value. -/
def dup : Op Unit := onStack fun s => (OperandStack.dup s).map fun s => ((), s)

/-- Takes all values off the operand stack. -/
def clearStack : Op Unit := onStack fun _ => .ok ((), [])

/-- Writes a local slot of the top frame. -/
def setLocal (index : Nat) (v : Value) : Op Unit :=
  onFrame fun fr => (fr.locals.set index v).map fun locals => ((), { fr with locals })

/-- Takes the top frame off, if there is one. -/
def discardFrame : Op (Option Frame) :=
  modifyGet fun s => (s.calls.discard.1, { s with calls := s.calls.discard.2 })

/-- Takes the top frame off and hands its value on. -/
def unwind : Op (Option Value) := do
  let outcome ← modifyGet fun s => (s.calls.unwind.1, { s with calls := s.calls.unwind.2 })
  outcome

/-! ### Popping operands of a kind -/

/-- The error of an operation that rejects a value. -/
def rejected (op : Operation) (v : Value) : Failure :=
  .execution (.invalidOperationTypes op [v.kind])

/-- Pops an integer that is used as an index or a length. -/
def popInteger (op : Operation) : Op Int64 := do
  let v ← pop
  match v.integer? with
  | some n => return n
  | none => throw (rejected op v)

/-- Pops a handle; null is an error of its own. -/
def popObject (op : Operation) : Op Handle := do
  match ← pop with
  | .object r => return r
  | .null => throw (.execution .nullReference)
  | v => throw (rejected op v)

/-! ### The heap -/

/-- Reads the heap. -/
def readHeap {α : Type} (f : Heap → Except ExecError α) : Op α := do f (← get).heap

/-- Changes the heap by an operation that may fail; if it fails, the heap stays as it is. -/
def writeHeap (f : Heap → Except ExecError Heap) : Op Unit := do
  let h ← f (← get).heap
  modify fun s => { s with heap := h }

/-- Adds an object to the heap and counts it. -/
def allocate (f : Heap → Except ExecError (Handle × Heap)) : Op Handle := do
  let (r, h) ← f (← get).heap
  modify fun s => { s with heap := h }
  count fun st => { st with allocations := st.allocations + 1 }
  return r

/-- Runs a routine on the heap.  What it did to the heap stays, also if it fails. -/
def onHeap {α : Type} (x : Heap.Op α) : Op α := do
  let outcome ← modifyGet fun s =>
    let (r, h) := x.run.run s.heap
    (r, { s with heap := h })
  match outcome with
  | .ok a => return a
  | .error e => throw e

/-- Adds an instance of a type with every field, inherited or not, at its default. -/
def allocateObject (ctx : Context) (type : TypeRef) : Op Handle := do
  let layout ← ctx.catalog.instanceFields type
  let fields := layout.map fun (name, flavor) => (name, Value.default flavor)
  let r ← allocate fun h => .ok (h.allocRecord type fields)
  recordIf ctx.tracing.heap (.allocated type.name r)
  return r

end Machine

end CilMachine
