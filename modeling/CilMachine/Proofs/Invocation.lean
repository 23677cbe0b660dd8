/-
CilMachine/Proofs/Invocation.lean

What an invocation consists of.  The equations say how a body, a native routine and an invocation
run as functions of the machine they start in; `Ends` lists the ways in which an invocation can end.

`Visits` says which instructions the run of a body gets to, and in which machines; `Executes` says
the same of an invocation.  `Within` is the nesting of invocations: it leads from an invocation to
all those that are made while it runs, however deep.  `GetsTo` collects the machines along the way.
-/
import CilMachine.Proofs.Continues
import CilMachine.Proofs.Outcome
import Mathlib.Logic.Relation

namespace CilMachine

namespace Machine

variable {α β : Type} {ctx : Context} {m : Method} {args : List Value} {s s' : Machine}
  {invoker : Method → List Value → Run (Option Value)} {fuel : Nat}

/-! ### Entering and leaving a method -/

/-- The counters after a call at a depth. -/
def countCall (depth : Nat) (stats : Stats) : Stats :=
  { stats with calls := stats.calls + 1, maxDepth := max stats.maxDepth depth }

/-- The machine in which a method starts, once its frame has been pushed. -/
def entered (ctx : Context) (m : Method) (calls : CallStack) (s : Machine) : Machine :=
  { s with
    calls
    stats := countCall calls.depth s.stats
    log := if ctx.tracing.calls then s.log.push (.called m.fullName calls.depth) else s.log }

theorem frames_entered {calls : CallStack} (hpush : s.calls.push m args = .ok calls)
    (ctx : Context) : ∃ f, (entered ctx m calls s).calls.frames = f :: s.calls.frames := by
  obtain ⟨-, caller, rfl⟩ := CallStack.push_eq_ok hpush
  exact ⟨_, rfl⟩

theorem enter_apply (ctx : Context) (m : Method) (args : List Value) (s : Machine) :
    enter ctx m args s = match s.calls.push m args with
      | .ok calls => (.ok (), entered ctx m calls s)
      | .error e => (.error (.execution e), s) := by
  show (liftM (s.calls.push m args) >>= _ : Op Unit) s = _
  rw [op_bind_apply, lift_apply]
  rcases s.calls.push m args with e | calls
  · rfl
  · unfold entered
    cases htraced : ctx.tracing.calls <;> rfl

theorem finish_apply (ctx : Context) (m : Method) (s : Machine) :
    finish ctx m s = match s.calls.unwind with
      | (.ok v, calls) =>
        (.ok v, { s with
          calls, log := if ctx.tracing.calls then s.log.push (.returned m.fullName v) else s.log })
      | (.error e, calls) => (.error (.execution e), { s with calls }) := by
  have hunwind : unwind s = (s.calls.unwind.1.mapError .execution,
      { s with calls := s.calls.unwind.2 }) := by
    show (liftM s.calls.unwind.1 : Op (Option Value)) _ = _
    rw [lift_apply]
  rw [finish, op_bind_apply, hunwind]
  rcases s.calls.unwind with ⟨e | v, calls⟩
  · rfl
  · cases htraced : ctx.tracing.calls <;> rfl

theorem executeWith_apply (s : Machine) :
    executeWith ctx invoker fuel m s = match runMethod ctx invoker fuel m s with
      | none => none
      | some (.ok (), u) => some (finish ctx m u)
      | some (.error e, u) => some (.error e, { u with calls := u.calls.discard.2 }) := by
  rw [executeWith, Run.bind_apply, Run.tryCatch_apply]
  rcases runMethod ctx invoker fuel m s with - | ⟨e | ⟨⟩, u⟩
  · rfl
  · have hdrop : (discard (liftM (discardFrame : Op _)) >>= fun _ => throw e : Run Unit) u =
        some (.error e, { u with calls := u.calls.discard.2 }) := by
      rw [Run.bind_apply, Run.discard_apply]
      rfl
    dsimp only
    rw [hdrop]
  · rfl

theorem invoke_succ_apply (ctx : Context) (fuel : Nat) (m : Method) (args : List Value)
    (s : Machine) :
    invoke ctx (fuel + 1) m args s = match s.calls.push m args with
      | .ok calls => executeWith ctx (invoke ctx fuel) fuel m (entered ctx m calls s)
      | .error e => some (.error (.execution e), s) := by
  show (liftM (enter ctx m args) >>= fun _ => _ : Run (Option Value)) s = _
  rw [Run.bind_apply, Run.lift_apply, enter_apply]
  rcases s.calls.push m args with e | calls <;> rfl

/-- The ways in which an invocation can end: its frame is refused, its method fails, or its method
comes to an end and its frame is unwound. -/
inductive Ends (ctx : Context) (fuel : Nat) (m : Method) (args : List Value) (s : Machine) :
    Except Failure (Option Value) → Machine → Prop
  | refused {e} : s.calls.push m args = .error e →
      Ends ctx fuel m args s (.error (.execution e)) s
  | failed {calls e u} : s.calls.push m args = .ok calls →
      runMethod ctx (invoke ctx fuel) fuel m (entered ctx m calls s) = some (.error e, u) →
      Ends ctx fuel m args s (.error e) { u with calls := u.calls.discard.2 }
  | ended {calls u r s'} : s.calls.push m args = .ok calls →
      runMethod ctx (invoke ctx fuel) fuel m (entered ctx m calls s) = some (.ok (), u) →
      finish ctx m u = (r, s') → Ends ctx fuel m args s r s'

theorem ends_of_invoke {r : Except Failure (Option Value)}
    (h : invoke ctx (fuel + 1) m args s = some (r, s')) : Ends ctx fuel m args s r s' := by
  rw [invoke_succ_apply] at h
  rcases hpush : s.calls.push m args with e | calls
  · rw [hpush] at h
    cases h
    exact .refused hpush
  · rw [hpush] at h
    change executeWith ctx (invoke ctx fuel) fuel m (entered ctx m calls s) = _ at h
    rw [executeWith_apply] at h
    rcases hrun : runMethod ctx (invoke ctx fuel) fuel m (entered ctx m calls s) with
      - | ⟨e | ⟨⟩, u⟩ <;> rw [hrun] at h
    · cases h
    · cases h
      exact .failed hpush hrun
    · exact .ended hpush hrun (Option.some.inj h)

/-! ### Calls within an instruction -/

theorem settle_call_apply (c : Call) (s : Machine) :
    settle invoker (.call c) s = match invoker c.method c.arguments s with
      | none => none
      | some (.ok _, u) => match c.created with
        | none => some (.ok .next, u)
        | some r => match push (.object r) u with
          | (.ok (), v) => some (.ok .next, v)
          | (.error e, v) => some (.error e, v)
      | some (.error e, u) => some (.error e, u) := by
  show (discard (invoker c.method c.arguments) >>= fun _ => _ : Run Outcome) s = _
  rw [Run.bind_apply, Run.discard_apply]
  rcases invoker c.method c.arguments s with - | ⟨e | a, u⟩
  · rfl
  · rfl
  · rcases hcreated : c.created with - | r
    · rfl
    · show (liftM (push (.object r)) >>= fun _ => _ : Run Outcome) u = _
      rw [Run.bind_apply, Run.lift_apply]
      dsimp only
      rcases push (.object r) u with ⟨e | ⟨⟩, v⟩ <;> rfl

theorem stepWith_apply (i : Instruction) (s : Machine) :
    stepWith invoker ctx i s = match performInstruction ctx i s with
      | (.ok (.outcome o), u) => some (.ok o, u)
      | (.ok (.call c), u) => settle invoker (.call c) u
      | (.error e, u) => some (.error e, u) := by
  rw [stepWith, Run.bind_apply, Run.lift_apply]
  rcases performInstruction ctx i s with ⟨e | o | c, u⟩ <;> rfl

theorem construct_apply (ctx : Context) (fuel : Nat) (ctor : MethodRef) (args : List Value)
    (s : Machine) :
    construct ctx fuel ctor args s = match prepareConstruction ctx ctor args s with
      | (.ok (r, c), u) =>
        (invoke ctx fuel c.method c.arguments u).map fun p => (p.1.map fun _ => r, p.2)
      | (.error e, u) => some (.error e, u) := by
  show (liftM (prepareConstruction ctx ctor args) >>= fun _ => _ : Run Handle) s = _
  rw [Run.bind_apply, Run.lift_apply]
  rcases prepareConstruction ctx ctor args s with ⟨e | ⟨r, c⟩, u⟩
  · rfl
  · show (discard (invoke ctx fuel c.method c.arguments) >>= fun _ => pure r : Run Handle) u = _
    rw [Run.bind_apply, Run.discard_apply]
    dsimp only
    rcases invoke ctx fuel c.method c.arguments u with - | ⟨e | v, u'⟩ <;> rfl

/-! ### Native routines -/

/-- The machine after a native routine that has left the heap as `h`: a routine that succeeds has
its allocations counted and its value pushed. -/
def afterNative (s : Machine) (h : Heap) (r : Except Failure (Option Value)) : Machine :=
  { s with
    heap := h
    calls := s.calls.afterCall r
    stats := { s.stats with
      nativeCalls := s.stats.nativeCalls + 1
      allocations := match r with
        | .ok _ => s.stats.allocations + (h.size - s.heap.size)
        | .error _ => s.stats.allocations } }

theorem push_apply {f : Frame} {rest : List Frame} (hs : s.calls.frames = f :: rest) (v : Value) :
    push v s = (.ok (), { s with calls := s.calls.deliver v }) := by
  obtain ⟨heap, ⟨frames, entries, limit⟩, dispatch, stats, log⟩ := s
  obtain rfl : frames = f :: rest := hs
  rfl

/-- A push concerns the frames only, also if it fails. -/
theorem push_eq (v : Value) (s : Machine) : ∃ r calls, push v s = (r, { s with calls }) := by
  obtain ⟨heap, ⟨frames, entries, limit⟩, dispatch, stats, log⟩ := s
  rcases frames with - | ⟨f, rest⟩
  · exact ⟨_, _, rfl⟩
  · exact ⟨_, _, rfl⟩

theorem runNative_apply {f : Frame} {rest : List Frame} (hs : s.calls.frames = f :: rest)
    (ctx : Context) (routine : Native) :
    runNative ctx routine s =
      let (r, h) := (routine.run ctx.catalog.headers f.arguments).run.run s.heap
      (r.map fun _ => (), afterNative s h r) := by
  have hcurrent : s.calls.current = .ok f := by rw [CallStack.current, hs]
  rw [runNative, op_bind_apply, count_apply]
  dsimp only
  rw [op_bind_apply, frame_apply, hcurrent]
  show (onHeap (routine.run ctx.catalog.headers f.arguments) >>= fun _ => _ : Op Unit) _ = _
  rw [op_bind_apply, onHeap_apply]
  dsimp only
  rcases (routine.run ctx.catalog.headers f.arguments).run.run s.heap with ⟨e | - | v, h⟩
  · rfl
  · rfl
  · exact push_apply (s := s.afterNative h (.ok none)) hs v

/-! ### Bodies -/

/-- The machine in which an instruction is executed, once it has been counted. -/
def begun (ctx : Context) (m : Method) (i : Instruction) (s : Machine) (f : Frame) : Machine :=
  { s with
    stats := { s.stats with instructions := s.stats.instructions + 1 }
    log := if ctx.tracing.instructions then
      s.log.push (.executing m.fullName i.offset i.mnemonic f.stack.length) else s.log }

theorem beginInstruction_apply {f : Frame} {rest : List Frame}
    (hs : s.calls.frames = f :: rest) (ctx : Context) (m : Method) (i : Instruction) :
    beginInstruction ctx m i s = (.ok (), begun ctx m i s f) := by
  have hcurrent : s.calls.current = .ok f := by rw [CallStack.current, hs]
  rw [beginInstruction, begun, op_bind_apply, count_apply]
  dsimp only
  split
  · rw [op_bind_apply, frame_apply, hcurrent]
    rfl
  · rfl

/-- Where the run of a body goes on after an instruction: at another position, or nowhere because
the method is left. -/
def onward (body : Body) (index : Nat) : Outcome → Except Failure (Option Nat)
  | .next => .ok (some (index + 1))
  | .jump target => match body.indexOf? target with
    | some index => .ok (some index)
    | none => .error (.execution (.invalidBranchTarget target))
  | .leave => .ok none

section Bodies

variable {step : Instruction → Run Outcome} {body : Body} {index : Nat} {i : Instruction}
  {u : Machine}

theorem onward_eq_error {o : Outcome} {e : Failure} (h : onward body index o = .error e) :
    ∃ target, o = .jump target ∧ body.indexOf? target = none ∧
      e = .execution (.invalidBranchTarget target) := by
  cases o with
  | next => cases h
  | leave => cases h
  | jump target =>
      rcases hindex : body.indexOf? target with - | j <;> simp only [onward, hindex] at h <;>
        cases h
      exact ⟨target, rfl, hindex, rfl⟩

theorem runBody_of_end (h : body.get? index = none) :
    runBody ctx step m body (fuel + 1) index s = some (.ok (), s) := by
  rw [runBody, h]
  rfl

theorem runBody_of_get (hget : body.get? index = some i)
    (hbegin : beginInstruction ctx m i s = (.ok (), u)) :
    runBody ctx step m body (fuel + 1) index s = match step i u with
      | none => none
      | some (.ok o, v) => match onward body index o with
        | .ok (some j) => runBody ctx step m body fuel j v
        | .ok none => some (.ok (), v)
        | .error e => some (.error (e.locate (site m i)), v)
      | some (.error e, v) => some (.error (e.locate (site m i)), v) := by
  conv_lhs => unfold runBody
  rw [hget]
  show (liftM (beginInstruction ctx m i) >>= fun _ => _ : Run Unit) s = _
  rw [Run.bind_apply, Run.lift_apply, hbegin]
  show (((step i).adapt (Failure.locate (site m i))) >>= _ : Run Unit) u = _
  rw [Run.bind_apply, Run.adapt_apply]
  rcases step i u with - | ⟨e | o, v⟩
  · rfl
  · rfl
  · cases o with
    | next => rfl
    | jump target =>
        simp only [onward, Option.map, Except.mapError]
        rcases body.indexOf? target with - | j <;> rfl
    | leave => rfl

/-- Running the body from a position on gets to the instruction `i`, and executes it in the
machine `u`. -/
inductive Visits (ctx : Context) (step : Instruction → Run Outcome) (m : Method) (body : Body) :
    Nat → Nat → Machine → Instruction → Machine → Prop
  | here {fuel index : Nat} {s u : Machine} {i : Instruction} : body.get? index = some i →
      beginInstruction ctx m i s = (.ok (), u) → Visits ctx step m body (fuel + 1) index s i u
  | onward {fuel index j : Nat} {s u v u' : Machine} {i i' : Instruction} {o : Outcome} :
      body.get? index = some i → beginInstruction ctx m i s = (.ok (), u) →
      step i u = some (.ok o, v) →
      onward body index o = .ok (some j) → Visits ctx step m body fuel j v i' u' →
      Visits ctx step m body (fuel + 1) index s i' u'

end Bodies

theorem Visits.exists_get {step : Instruction → Run Outcome} {body : Body} {index : Nat}
    {i : Instruction} {u : Machine} (h : Visits ctx step m body fuel index s i u) :
    ∃ j, body.get? j = some i := by
  induction h with
  | here hget _ => exact ⟨_, hget⟩
  | onward _ _ _ _ _ ih => exact ih

/-! ### Methods -/

theorem runMethod_native {routine : Native} (hm : m.body = .native routine) (s : Machine) :
    runMethod ctx invoker fuel m s = some (runNative ctx routine s) := by
  rw [runMethod, hm]
  rfl

theorem runMethod_interpreted {body : Body} (hm : m.body = .interpreted body) :
    runMethod ctx invoker fuel m = runBody ctx (stepWith invoker ctx) m body fuel 0 := by
  rw [runMethod, hm]

theorem runMethod_abstract (hm : m.body = .abstract) (s : Machine) :
    runMethod ctx invoker fuel m s = some (.error (.unresolved (.body m.ref)), s) := by
  rw [runMethod, hm]
  rfl

/-- The machine after a method has come to an end, with its frame taken off the call stack `calls`.
-/
def left (ctx : Context) (m : Method) (calls : CallStack) (r : Except ExecError (Option Value))
    (u : Machine) : Machine :=
  { u with
    calls := calls.afterCall r
    log := match r with
      | .ok v => if ctx.tracing.calls then u.log.push (.returned m.fullName v) else u.log
      | .error _ => u.log }

/-- Whatever has become of the frame that was pushed for a method, when the method comes to an end
its frame is unwound: what that frame returns is the result. -/
theorem finish_of_push {calls : CallStack} {u : Machine} (hpush : s.calls.push m args = .ok calls)
    (hu : calls.Continues u.calls) (ctx : Context) :
    ∃ f, u.calls.frames = f :: s.calls.frames ∧
      finish ctx m u = ((CallStack.returned m f.stack).mapError .execution,
        left ctx m s.calls (CallStack.returned m f.stack) u) := by
  obtain ⟨f, hf, -, hunwind⟩ := CallStack.unwind_of_push hpush hu
  refine ⟨f, hf, ?_⟩
  rw [finish_apply, hunwind]
  rcases CallStack.returned m f.stack with e | v <;> rfl

/-! ### Nested invocations -/

/-- An invocation of a method in a machine, with the number of steps that it is given. -/
structure Invocation where
  fuel : Nat
  method : Method
  arguments : List Value
  machine : Machine

namespace Invocation

/-- Runs the invocation. -/
def run (ctx : Context) (v : Invocation) : Option (Except Failure (Option Value) × Machine) :=
  invoke ctx v.fuel v.method v.arguments v.machine

/-- The method of the invocation comes to an end of its own in the machine `u`, in which its frame
is still there. -/
inductive Completes (ctx : Context) : Invocation → Machine → Prop
  | intro {fuel : Nat} {m : Method} {args : List Value} {s u : Machine} {calls : CallStack} :
      s.calls.push m args = .ok calls →
      runMethod ctx (invoke ctx fuel) fuel m (entered ctx m calls s) = some (.ok (), u) →
      Completes ctx ⟨fuel + 1, m, args, s⟩ u

/-- The invocation executes the instruction `i` of its method in the machine `u`. -/
inductive Executes (ctx : Context) : Invocation → Instruction → Machine → Prop
  | intro {fuel : Nat} {m : Method} {args : List Value} {s u : Machine} {calls : CallStack}
      {body : Body} {i : Instruction} : s.calls.push m args = .ok calls →
      m.body = .interpreted body →
      Visits ctx (stepWith (invoke ctx fuel) ctx) m body fuel 0 (entered ctx m calls s) i u →
      Executes ctx ⟨fuel + 1, m, args, s⟩ i u

/-- The invocation `v'` is made by the instruction `i`, which the invocation `v` executes in the
machine `u`. -/
inductive MakesAt (ctx : Context) (i : Instruction) (u : Machine) : Invocation → Invocation → Prop
  | intro {fuel : Nat} {m : Method} {args : List Value} {s u' : Machine} {c : Call} :
      Executes ctx ⟨fuel + 1, m, args, s⟩ i u →
      performInstruction ctx i u = (.ok (.call c), u') →
      MakesAt ctx i u ⟨fuel + 1, m, args, s⟩ ⟨fuel, c.method, c.arguments, u'⟩

/-- The invocation `v'` is made by an instruction that the invocation `v` executes. -/
def Makes (ctx : Context) (v v' : Invocation) : Prop := ∃ i u, MakesAt ctx i u v v'

/-- The invocation `v'` is `v`, or is made while `v` runs. -/
abbrev Within (ctx : Context) (v' v : Invocation) : Prop :=
  Relation.ReflTransGen (Makes ctx) v v'

/-- While the invocation runs the machine is `u`: the invocation, or one that is made while it runs,
starts in `u`, executes an instruction in `u` or has ended in `u`. -/
inductive GetsTo (ctx : Context) (v : Invocation) : Machine → Prop
  | starts {v' : Invocation} : Within ctx v' v → GetsTo ctx v v'.machine
  | executes {v' : Invocation} {i : Instruction} {u : Machine} : Within ctx v' v →
      Executes ctx v' i u → GetsTo ctx v u
  | ends {v' : Invocation} {r : Except Failure (Option Value)} {u : Machine} : Within ctx v' v →
      v'.run ctx = some (r, u) → GetsTo ctx v u

end Invocation

end Machine

end CilMachine
