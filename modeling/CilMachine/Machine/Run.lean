/-
CilMachine/Machine/Run.lean

The engine.  `invoke` pushes a frame for a method, runs the method in it and unwinds that frame; a
call instruction invokes in turn.  Code may run for ever, so a run is given a number of steps and is
`none` if they do not suffice; a run that ends does not depend on that number.  Every failure ends
the invocation it occurs in: the frame is discarded, and the innermost failing instruction is noted
in the error.
-/
import CilMachine.Machine.Action

namespace CilMachine

/-- Runs of code: they change the machine, may fail, and may not end within the given steps. -/
abbrev Run (α : Type) := ExceptT Failure (StateT Machine Option) α

namespace Run

/-- The steps do not suffice. -/
def exhausted {α : Type} : Run α := fun _ => none

/-- An operation as a run. -/
def ofOp {α : Type} (x : Machine.Op α) : Run α := fun s => some (x s)

instance : MonadLift Machine.Op Run where
  monadLift := ofOp

end Run

namespace Machine

/-! ### Instructions and bodies -/

/-- What becomes of the machine's effect: a call is made, and the object that it created is
pushed. -/
def settle (invoke : Method → List Value → Run (Option Value)) : Effect → Run Outcome
  | .outcome o => return o
  | .call c => do
    discard (invoke c.method c.arguments)
    if let some r := c.created then push (.object r)
    return .next

/-- Executes one instruction on the top frame, given how methods are invoked. -/
def stepWith (invoke : Method → List Value → Run (Option Value)) (ctx : Context)
    (i : Instruction) : Run Outcome := do
  settle invoke (← performInstruction ctx i)

/-- Counts an instruction, and logs it if instructions are traced. -/
def beginInstruction (ctx : Context) (m : Method) (i : Instruction) : Op Unit := do
  count fun st => { st with instructions := st.instructions + 1 }
  if ctx.tracing.instructions then
    record (.executing m.fullName i.offset i.mnemonic (← frame).stack.length)

/-- Where an instruction of a method is. -/
def site (m : Method) (i : Instruction) : Site := ⟨m.fullName, i.offset, i.mnemonic⟩

/-- Runs a body from a position on, until it leaves or ends.  The first number bounds the
instructions. -/
def runBody (ctx : Context) (step : Instruction → Run Outcome) (m : Method) (body : Body) :
    Nat → Nat → Run Unit
  | 0, _ => Run.exhausted
  | fuel + 1, index =>
    match body.get? index with
    | none => return ()
    | some i => do
      beginInstruction ctx m i
      match ← (step i).adapt (Failure.locate (site m i)) with
      | .next => runBody ctx step m body fuel (index + 1)
      | .jump target =>
        match body.indexOf? target with
        | some index => runBody ctx step m body fuel index
        | none => throw ((Failure.execution (.invalidBranchTarget target)).locate (site m i))
      | .leave => return ()

/-- Runs a native routine on the arguments of the top frame and pushes what it yields.  What it
allocated is counted if it succeeds. -/
def runNative (ctx : Context) (routine : Native) : Op Unit := do
  count fun st => { st with nativeCalls := st.nativeCalls + 1 }
  let arguments := (← frame).arguments
  let before := (← get).heap.size
  let result ← onHeap (routine.run ctx.catalog.headers arguments)
  let added := (← get).heap.size - before
  count fun st => { st with allocations := st.allocations + added }
  if let some v := result then push v

/-! ### Invocation -/

/-- Runs the body of a method in the top frame, which stays. -/
def runMethod (ctx : Context) (invoke : Method → List Value → Run (Option Value)) (fuel : Nat)
    (m : Method) : Run Unit :=
  match m.body with
  | .native routine => runNative ctx routine
  | .interpreted body => runBody ctx (stepWith invoke ctx) m body fuel 0
  | .abstract => throw (.unresolved (.body m.ref))

/-- Unwinds the top frame, and logs the result if calls are traced. -/
def finish (ctx : Context) (m : Method) : Op (Option Value) := do
  let v ← unwind
  recordIf ctx.tracing.calls (.returned m.fullName v)
  return v

/-- Runs a method in the top frame and takes that frame off, also if the method fails. -/
def executeWith (ctx : Context) (invoke : Method → List Value → Run (Option Value)) (fuel : Nat)
    (m : Method) : Run (Option Value) := do
  tryCatch (runMethod ctx invoke fuel m) fun e => do
    discard (discardFrame : Op _)
    throw e
  finish ctx m

/-- Pushes a frame for a method, counts the call, and logs it if calls are traced. -/
def enter (ctx : Context) (m : Method) (arguments : List Value) : Op Unit := do
  let calls ← (← get).calls.push m arguments
  modify fun s => { s with calls }
  let depth := calls.depth
  count fun st => { st with calls := st.calls + 1, maxDepth := max st.maxDepth depth }
  recordIf ctx.tracing.calls (.called m.fullName depth)

/-- Invokes a method.  The number bounds the nesting of calls and the instructions of each body. -/
def invoke (ctx : Context) : Nat → Method → List Value → Run (Option Value)
  | 0, _, _ => Run.exhausted
  | fuel + 1, m, arguments => do
    enter ctx m arguments
    executeWith ctx (invoke ctx fuel) fuel m

/-- Runs a method in the top frame, which has to be there already. -/
def execute (ctx : Context) (fuel : Nat) (m : Method) : Run (Option Value) :=
  executeWith ctx (invoke ctx fuel) fuel m

/-- Executes one instruction on the top frame. -/
def step (ctx : Context) (fuel : Nat) (i : Instruction) : Run Outcome :=
  stepWith (invoke ctx fuel) ctx i

/-- Creates an object and runs its constructor. -/
def construct (ctx : Context) (fuel : Nat) (ctor : MethodRef) (arguments : List Value) :
    Run Handle := do
  let (r, call) ← prepareConstruction ctx ctor arguments
  discard (invoke ctx fuel call.method call.arguments)
  return r

end Machine

end CilMachine
