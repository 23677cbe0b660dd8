/-
CilMachine/Proofs/FrameDiscipline.lean

Calls leave the frames of their callers alone.  Whatever an instruction does, the frames below the
top one stay as they are and the top one stays the same activation; and an invocation takes off
exactly the frame that it has pushed, on every way in which it can end (`invoke_calls`).  So what an
invocation leaves behind is its caller's frames, with the returned value, if there is one, pushed on
the top frame (`invoke_frames`).

That operations continue the call stack is read off the correspondence of a machine to itself.
-/
import CilMachine.Proofs.Abstraction
import CilMachine.Proofs.Dispatch
import CilMachine.Proofs.Invocation

namespace CilMachine

open Correspondence

/-- The failure does not say where it arose. -/
def Failure.Unlocated (f : Failure) : Prop := ∀ e, f = .execution e → e.isLocated = false

theorem Failure.IsOrdinary.unlocated {f : Failure} (h : f.IsOrdinary) : f.Unlocated := by
  rintro e rfl
  cases e with
  | fault => cases h
  | _ => rfl

namespace Machine

variable {α : Type} {ctx : Context} {m : Method} {args : List Value} {i : Instruction}
  {invoker : Method → List Value → Run (Option Value)} {fuel : Nat} {s s' : Machine}

/-! ### One machine by itself -/

/-- The correspondence of machines to themselves, for code that only ever runs the methods in `P`.
-/
def itself (P : Method → Prop) (failure : Failure → Prop) : Correspondence Unit :=
  sameHeap CallStack.SameShape (fun _ _ => True) (fun d e => e = d ∧ d.Keeps P) (fun _ _ => True)
    P failure

theorem itself_lawful {P : Method → Prop} {failure : Failure → Prop}
    (hP : ∀ m, ctx.catalog.Declares m → P m) (hfailure : ∀ f, f.Unlocated → failure f) :
    (itself P failure).Lawful ctx ctx := by
  refine sameHeap_lawful rfl (fun h => hfailure _ h.unlocated) (fun r => hfailure _ ?_)
    CallStack.SameShape.continues (fun _ _ => trivial) (fun _ _ _ => trivial) ?_ fun h => hP _ h
  · rintro _ ⟨⟩
    rfl
  · rintro d _ declared runtime ⟨rfl, hd⟩
    refine (hd.resolve_alike hP declared runtime).mono
      (fun e he => hfailure _ (Failure.IsOrdinary.unlocated he)) ?_
    rintro p _ ⟨rfl, hp, hkeeps⟩
    exact ⟨rfl, hp, rfl, hkeeps⟩

theorem itself_machines {P : Method → Prop} (failure : Failure → Prop) (hs : s.dispatch.Keeps P) :
    (itself P failure).Machines () s s :=
  ⟨rfl, Frame.option_rel_eq _, .refl _, trivial, ⟨rfl, hs⟩, trivial⟩

/-- The laws hold for any machine if nothing is asked of the methods. -/
theorem itself_agrees (ctx : Context) (s : Machine) :
    (itself (fun _ => True) Failure.Unlocated).Lawful ctx ctx ∧
      (itself (fun _ => True) Failure.Unlocated).Machines () s s :=
  ⟨itself_lawful (fun _ _ => trivial) fun _ h => h, itself_machines _ fun _ _ => trivial⟩

theorem performInstruction_continues (ctx : Context) (i : Instruction) (s : Machine) :
    s.calls.Continues (performInstruction ctx i s).2.calls := by
  obtain ⟨hlawful, hs⟩ := itself_agrees ctx s
  obtain ⟨-, -, -, hc, -, -⟩ := agree_performInstruction hlawful i s s hs
  exact hc

/-- An instruction's own failures do not say where they arose. -/
theorem performInstruction_unlocated (ctx : Context) (i : Instruction) (s : Machine) :
    Only Failure.Unlocated (performInstruction ctx i s).1 := by
  obtain ⟨hlawful, hs⟩ := itself_agrees ctx s
  obtain ⟨w, -, -, -, -, ho⟩ := agree_performInstruction hlawful i s s hs
  exact ho.only

/-- If only methods in `P` can be found, then an instruction calls a method in `P`, and goes on to
find such methods only. -/
theorem performInstruction_keeps {P : Method → Prop} (hP : ∀ m, ctx.catalog.Declares m → P m)
    (hs : s.dispatch.Keeps P) {r : Except Failure Effect}
    (h : performInstruction ctx i s = (r, s')) :
    (∀ c, r = .ok (.call c) → P c.method) ∧ s'.dispatch.Keeps P := by
  have hlawful : (itself P fun _ => True).Lawful ctx ctx := itself_lawful hP fun _ _ => trivial
  obtain ⟨w, -, hm, -, -, ho⟩ := agree_performInstruction hlawful i s s (itself_machines _ hs)
  rw [h] at hm ho
  refine ⟨?_, hm.answers.2⟩
  rintro c rfl
  cases ho with
  | ok heffects =>
      cases heffects with
      | call hcalls => exact hcalls.runs

theorem push_continues (v : Value) (s : Machine) : s.calls.Continues (push v s).2.calls := by
  obtain ⟨hlawful, hs⟩ := itself_agrees ⟨{}, {}⟩ s
  obtain ⟨-, -, -, hc, -, -⟩ := agree_push hlawful v.rel_eq s s hs
  exact hc

/-! ### Instructions, bodies and methods -/

/-- Invocations leave the frames of their callers as they were, but for what they return. -/
def RestoresFrames (invoker : Method → List Value → Run (Option Value)) : Prop :=
  ∀ m args s r s', invoker m args s = some (r, s') → s'.calls = s.calls.afterCall r

theorem settle_continues (hinvoker : RestoresFrames invoker) {c : Call}
    {r : Except Failure Outcome} (h : settle invoker (.call c) s = some (r, s')) :
    s.calls.Continues s'.calls := by
  rw [settle_call_apply] at h
  rcases hrun : invoker c.method c.arguments s with - | ⟨e | a, u⟩ <;> rw [hrun] at h
  · cases h
  · have hu := hinvoker _ _ _ _ _ hrun
    cases h
    rw [hu]
    exact .afterCall _ _
  · have hu : s.calls.Continues u.calls := by
      rw [hinvoker _ _ _ _ _ hrun]
      exact .afterCall _ _
    dsimp only at h
    rcases hcreated : c.created with - | q <;> rw [hcreated] at h
    · cases h
      exact hu
    · have hpush := hu.trans (push_continues (.object q) u)
      dsimp only at h
      rcases hv : push (.object q) u with ⟨e | ⟨⟩, v⟩ <;> rw [hv] at h hpush <;> cases h
      · exact hpush
      · exact hpush

theorem stepWith_continues (hinvoker : RestoresFrames invoker) {r : Except Failure Outcome}
    (h : stepWith invoker ctx i s = some (r, s')) : s.calls.Continues s'.calls := by
  have hperform := performInstruction_continues ctx i s
  rw [stepWith_apply] at h
  rcases hp : performInstruction ctx i s with ⟨e | o | c, u⟩ <;> rw [hp] at h hperform
  · cases h
    exact hperform
  · cases h
    exact hperform
  · exact hperform.trans (settle_continues hinvoker h)

theorem runBody_continues {step : Instruction → Run Outcome} {body : Body}
    (hstep : ∀ i s r s', step i s = some (r, s') → s.calls.Continues s'.calls) {f : Frame}
    {rest : List Frame} {index : Nat} {r : Except Failure Unit} (hs : s.calls.frames = f :: rest)
    (h : runBody ctx step m body fuel index s = some (r, s')) : s.calls.Continues s'.calls := by
  induction fuel generalizing index s f with
  | zero => cases h
  | succ fuel ih =>
      rcases hget : body.get? index with - | i
      · rw [runBody_of_end hget] at h
        cases h
        exact .refl _
      · rw [runBody_of_get hget (beginInstruction_apply hs ctx m i)] at h
        rcases hi : step i (begun ctx m i s f) with - | ⟨e | o, v⟩ <;> rw [hi] at h
        · cases h
        · cases h
          exact hstep i (begun ctx m i s f) _ _ hi
        · have hv : s.calls.Continues v.calls := hstep i (begun ctx m i s f) _ _ hi
          rcases ho : onward body index o with e | - | j <;> simp only [ho] at h
          · cases h
            exact hv
          · cases h
            exact hv
          · -- the frame on top is still that of the method, so the body can go on
            obtain ⟨g, hg, -⟩ := hv.exists_cons hs
            exact hv.trans (ih hg h)

theorem runMethod_continues (hinvoker : RestoresFrames invoker) {f : Frame} {rest : List Frame}
    {r : Except Failure Unit} (hs : s.calls.frames = f :: rest)
    (h : runMethod ctx invoker fuel m s = some (r, s')) : s.calls.Continues s'.calls := by
  rcases hm : m.body with body | routine | -
  · rw [runMethod_interpreted hm] at h
    exact runBody_continues (fun i s r s' => stepWith_continues hinvoker) hs h
  · rw [runMethod_native hm, runNative_apply hs] at h
    cases h
    exact .afterCall _ _
  · rw [runMethod_abstract hm] at h
    cases h
    exact .refl _

/-- The frame of a method that has been entered is on top, and stays there. -/
theorem runMethod_continues_entered (hinvoker : RestoresFrames invoker) {calls : CallStack}
    {r : Except Failure Unit} {u : Machine} (hpush : s.calls.push m args = .ok calls)
    (h : runMethod ctx invoker fuel m (entered ctx m calls s) = some (r, u)) :
    calls.Continues u.calls := by
  obtain ⟨-, caller, rfl⟩ := CallStack.push_eq_ok hpush
  exact runMethod_continues (s := entered ctx m _ s) hinvoker rfl h

/-- An invocation takes off exactly the frame that it has pushed. -/
theorem invoke_calls (ctx : Context) (fuel : Nat) : RestoresFrames (invoke ctx fuel) := by
  -- the invocations that a method makes have less fuel than its own
  induction fuel with
  | zero =>
      intro m args s r s' h
      cases h
  | succ fuel ih =>
      intro m args s r s' h
      cases ends_of_invoke h with
      | refused hpush => rfl
      | failed hpush hrun =>
          have hu := runMethod_continues_entered ih hpush hrun
          obtain ⟨f, -, -, hdiscard⟩ := CallStack.discard_of_push hpush hu
          exact congrArg Prod.snd hdiscard
      | @ended calls u _ _ hpush hrun hfinish =>
          have hu := runMethod_continues_entered ih hpush hrun
          obtain ⟨f, -, hf⟩ := finish_of_push hpush hu ctx
          rw [hf] at hfinish
          cases hfinish
          rcases CallStack.returned m f.stack with e | - | v <;> rfl

theorem invoke_continues {r : Except Failure (Option Value)}
    (h : invoke ctx fuel m args s = some (r, s')) : s.calls.Continues s'.calls := by
  rw [invoke_calls ctx fuel m args s r s' h]
  exact .afterCall s.calls r

theorem prepareConstruction_continues (ctx : Context) (ctor : MethodRef) (args : List Value)
    (s : Machine) : s.calls.Continues (prepareConstruction ctx ctor args s).2.calls := by
  obtain ⟨hlawful, hs⟩ := itself_agrees ctx s
  obtain ⟨-, -, -, hc, -, -⟩ := agree_prepareConstruction hlawful ctor (valuesRel_eq args) s s hs
  exact hc

theorem construct_continues {ctor : MethodRef} {r : Except Failure Handle}
    (h : construct ctx fuel ctor args s = some (r, s')) : s.calls.Continues s'.calls := by
  have hc := prepareConstruction_continues ctx ctor args s
  rw [construct_apply] at h
  rcases hp : prepareConstruction ctx ctor args s with ⟨e | ⟨q, c⟩, u⟩ <;> rw [hp] at h hc
  · cases h
    exact hc
  · dsimp only at h
    rcases hrun : invoke ctx fuel c.method c.arguments u with - | ⟨r', u'⟩ <;> rw [hrun] at h <;>
      cases h
    exact hc.trans (invoke_continues hrun)

/-! ### What an invocation returns -/

/-- The frame of a method that has come to its end decides the result. -/
theorem invoke_of_completes {r : Except Failure (Option Value)} {u : Machine}
    (h : invoke ctx fuel m args s = some (r, s'))
    (hu : Invocation.Completes ctx ⟨fuel, m, args, s⟩ u) :
    ∃ f, u.calls.frames = f :: s.calls.frames ∧
      r = (CallStack.returned m f.stack).mapError .execution := by
  obtain ⟨hpush, hrun⟩ := hu
  rename_i fuel calls
  have hcalls := runMethod_continues_entered (invoke_calls ctx fuel) hpush hrun
  obtain ⟨f, hf, hfinish⟩ := finish_of_push hpush hcalls ctx
  refine ⟨f, hf, ?_⟩
  rw [invoke_succ_apply, hpush] at h
  change executeWith ctx (invoke ctx fuel) fuel m (entered ctx m calls s) = _ at h
  rw [executeWith_apply, hrun] at h
  change some (finish ctx m u) = _ at h
  rw [hfinish] at h
  cases h
  rfl

/-- An invocation that succeeds has come to its end. -/
theorem completes_of_invoke {v : Option Value}
    (h : invoke ctx fuel m args s = some (.ok v, s')) :
    ∃ u, Invocation.Completes ctx ⟨fuel, m, args, s⟩ u := by
  rcases fuel with - | fuel
  · cases h
  · cases ends_of_invoke h with
    | ended hpush hrun _ => exact ⟨_, .intro hpush hrun⟩

/-- A method returns a value if and only if it is declared to. -/
theorem invoke_isSome {v : Option Value} (h : invoke ctx fuel m args s = some (.ok v, s')) :
    v.isSome = m.returnsValue := by
  obtain ⟨u, hu⟩ := completes_of_invoke h
  obtain ⟨f, -, hf⟩ := invoke_of_completes h hu
  rcases CallStack.returned_spec m f.stack with ⟨-, hok, hsome⟩ | ⟨-, how, herror⟩
  · rw [hok] at hf
    cases hf
    exact hsome
  · rw [herror] at hf
    cases hf

/-- **Invocations restore the frames of their callers.**  A failing invocation leaves the call stack
as it was, one that returns a value leaves it with that value pushed on the top frame, and a value
is returned if and only if the method declares one.  A method that comes to its end returns what is
on its operand stack, and fails with an inconsistent return unless that is exactly what it declares.
-/
theorem invoke_frames {r : Except Failure (Option Value)}
    (h : invoke ctx fuel m args s = some (r, s')) :
    (match r with
      | .error _ => s'.calls = s.calls
      | .ok none => s'.calls = s.calls ∧ m.returnsValue = false
      | .ok (some v) => s'.calls = s.calls.deliver v ∧ m.returnsValue = true) ∧
    ∀ u, Invocation.Completes ctx ⟨fuel, m, args, s⟩ u →
      ∃ f, u.calls.frames = f :: s.calls.frames ∧
        if f.stack.length = (if m.returnsValue then 1 else 0) then r = .ok f.stack.head?
        else ∃ how, r = .error (.execution (.inconsistentReturn m.fullName how)) := by
  have hcalls := invoke_calls ctx fuel m args s r s' h
  refine ⟨?_, fun u hu => ?_⟩
  · rcases r with e | - | v
    · exact hcalls
    · exact ⟨hcalls, (invoke_isSome h).symm⟩
    · exact ⟨hcalls, (invoke_isSome h).symm⟩
  · obtain ⟨f, hframes, hf⟩ := invoke_of_completes h hu
    refine ⟨f, hframes, ?_⟩
    rcases CallStack.returned_spec m f.stack with ⟨hlength, hok, -⟩ | ⟨hlength, how, herror⟩
    · rw [if_pos hlength, hf, hok]
      rfl
    · rw [if_neg hlength, hf, herror]
      exact ⟨how, rfl⟩

end Machine

/-! ### A sample program -/

namespace Sample

/-- The one type of the program. -/
def type : TypeRef := ⟨"Sample", "Sample"⟩

/-- A static method without parameters that is declared to return an integer. -/
def method (name : String) (body : Body) : Method where
  declaring := type
  name := name
  modifiers := { isStatic := true }
  params := []
  returns := some (.corelib "System.Int32")
  locals := []
  body := .interpreted body

/-- The constructor, whose routine does nothing. -/
def ctor : Method where
  declaring := type
  name := constructorName
  modifiers := {}
  params := []
  returns := none
  locals := []
  body := .native (.nothing constructorName)

/-- Returns 7. -/
def seven : Method := method "Seven"
  ⟨#[⟨0, 1, "ldc.i4.7", .sequential, .none⟩, ⟨1, 1, "ret", .ret, .none⟩], by decide⟩

/-- Divides 7 by 0. -/
def divide : Method := method "Divide"
  ⟨#[⟨0, 1, "ldc.i4.7", .sequential, .none⟩, ⟨1, 1, "ldc.i4.0", .sequential, .none⟩,
    ⟨2, 1, "div", .sequential, .none⟩, ⟨3, 1, "ret", .ret, .none⟩], by decide⟩

/-- Creates an object and then calls a method, whose result is returned. -/
def createThen (name : String) (m : Method) : Method := method name
  ⟨#[⟨0, 5, "newobj", .call, .method ctor.ref⟩, ⟨5, 1, "pop", .sequential, .none⟩,
    ⟨6, 5, "call", .call, .method m.ref⟩, ⟨11, 1, "ret", .ret, .none⟩], by simp⟩

/-- Creates an object and returns 7. -/
def run : Method := createThen "Run" seven

/-- Creates an object and fails. -/
def fail : Method := createThen "Fail" divide

def catalog : Catalog where
  types := [{ ref := type, flavor := .classType, base := none, fields := []
              methods := [ctor, seven, divide, run, fail] }]

/-- The program, without any tracing. -/
def context : Context := { catalog }

/-- A machine with an entry frame that holds a value. -/
def machine : Machine where
  calls := { frames := [{ stack := [.int32 1] }], entries := 1, limit := 2 }

end Sample

namespace Machine

theorem invoke_frames_run :
    ∃ s', invoke Sample.context 9 Sample.run [] Sample.machine =
        some (.ok (some (.int32 7)), s') ∧
      s'.calls = Sample.machine.calls.deliver (.int32 7) ∧ Sample.run.returnsValue = true := by
  have hrun : (invoke Sample.context 9 Sample.run [] Sample.machine).map Prod.fst =
      some (.ok (some (.int32 7))) := by decide +kernel
  obtain ⟨⟨_, s'⟩, hs', rfl⟩ := Option.map_eq_some_iff.1 hrun
  exact ⟨s', hs', (invoke_frames hs').1⟩

end Machine

end CilMachine
