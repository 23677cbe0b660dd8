/-
CilMachine/Host.lean

The host's way into the machine.  Calls are checked before anything runs, an entry frame takes up
their results, and a failure restores the frames and is logged once.
-/
import CilMachine.Machine.Run

namespace CilMachine

namespace Host

open Machine

/-- Makes sure that there is a frame to take up a result. -/
def ensureEntry : Op Unit :=
  modify fun s => if s.calls.isEmpty then { s with calls := s.calls.pushEntry } else s

/-- Takes frames off until at most `size` are left. -/
def restore (size : Nat) : Op Unit :=
  modify fun s => { s with calls := s.calls.truncate size }

/-- Runs on behalf of the host: a failure takes off the frames that were added, and is logged under
a name. -/
def guarded {α : Type} (name : String) (x : Run α) : Run α := do
  let size := (← (get : Op Machine)).calls.size
  tryCatch x fun e => do
    restore size
    record (.failed name e)
    throw e

/-- Calls a method; the result is not left on the entry frame. -/
def invoke (ctx : Context) (fuel : Nat) (ref : MethodRef) (arguments : List Value) :
    Run (Option Value) := do
  let m ← (ctx.catalog.resolveMethod ref : Op Method)
  if arguments.length ≠ m.argCount then
    throw (.malformed (.methodArguments ref m.argCount arguments.length))
  ensureEntry
  let v ← guarded m.fullName (Machine.invoke ctx fuel m arguments)
  if v.isSome then discard (pop : Op Value)
  return v

/-- Creates an object and runs its constructor. -/
def construct (ctx : Context) (fuel : Nat) (ctor : MethodRef) (arguments : List Value) :
    Run Handle := do
  ensureEntry
  guarded ctor.text (Machine.construct ctx fuel ctor arguments)

/-- Adds a string object. -/
def allocString (ctx : Context) (s : String) : Op Value := do
  let r ← onHeap (Native.allocString ctx.catalog.headers s)
  count fun st => { st with allocations := st.allocations + 1 }
  return .object r

/-- The text of a string object. -/
def readString (v : Value) : Op String := readHeap (·.readString v)

end Host

end CilMachine
