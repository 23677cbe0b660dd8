/-
CilMachine/Proofs/Sequel.lean

What comes afterwards.  From a machine on, instructions are executed and methods are called, one
after the other and within one another, while the catalog grows: `Sequel` collects the machines that
this leads to.  Something may be asked of the instructions that are executed, each in its machine,
and of what native routines do to the heap (`Invocation.Conforms`).

A property of heaps that these keep, and that stays when an object is added, holds throughout
(`Sequel.holds`).  In contrast to an invariant, which every instruction preserves, it may depend on
which instructions are executed.
-/
import CilMachine.Proofs.Course

namespace CilMachine

namespace Machine

variable {ctx ctx' : Context} {E : Instruction → Machine → Prop} {N : Heap → Heap → Prop}
  {Q : Heap → Prop} {fuel n index : Nat} {m : Method} {args : List Value} {i : Instruction}
  {b : Body} {s t u : Machine} {v w : Invocation}

/-! ### What is asked of invocations -/

namespace Invocation

/-- While the invocation runs, every instruction is executed in a machine in which it may be, and
native routines turn a heap only into one that they may turn it into. -/
structure Conforms (ctx : Context) (E : Instruction → Machine → Prop) (N : Heap → Heap → Prop)
    (v : Invocation) : Prop where
  instruction : ∀ (w : Invocation) i u, w.Within ctx v → w.Executes ctx i u → E i u
  routine : ∀ (w : Invocation) (routine : Native), w.Within ctx v → w.Does routine →
    N w.machine.heap ((routine.run ctx.catalog.headers w.arguments).run.run w.machine.heap).2

theorem Conforms.within (hv : v.Conforms ctx E N) (hw : w.Within ctx v) : w.Conforms ctx E N where
  instruction w' i u hw' := hv.instruction w' i u (hw.trans hw')
  routine w' routine hw' := hv.routine w' routine (hw.trans hw')

theorem Conforms.makes (hv : v.Conforms ctx E N) (hw : v.Makes ctx w) :
    w.Conforms ctx E N := hv.within (.single hw)

/-- The invocations that are made run no native routines but those that the catalog and the
dispatcher come with. -/
theorem within_runsOnly {P : Native → Prop} (hs : v.machine.RunsOnly ctx P) (hm : v.method.Runs P)
    (h : w.Within ctx v) : w.method.Runs P ∧ w.machine.RunsOnly ctx P := by
  induction h with
  | refl => exact ⟨hm, hs⟩
  | tail _ hmakes ih =>
      obtain ⟨i, u, ⟨hexecutes, hperform⟩⟩ := hmakes
      obtain ⟨hm, hs⟩ := ih
      have hu := getsTo_keeps (everything_invariant ctx P) hs.keeps hm (.executes .refl hexecutes)
      obtain ⟨hm', hs'⟩ := (Starts.step _ hperform).keeps (everything_invariant ctx P) hu
      exact ⟨hm', hs'.runsOnly⟩

theorem conforms_of_runsOnly {P : Native → Prop} (hs : v.machine.RunsOnly ctx P)
    (hm : v.method.Runs P) (hE : ∀ i u, E i u)
    (hN : ∀ routine : Native, P routine →
      ∀ args h, N h ((routine.run ctx.catalog.headers args).run.run h).2) :
    v.Conforms ctx E N where
  instruction _ i u _ _ := hE i u
  routine w routine hw hdoes := by
    obtain ⟨hm, -⟩ := within_runsOnly hs hm hw
    cases hdoes with
    | intro _ hbody => exact hN routine (hm routine hbody) _ _

end Invocation

/-- What is asked of an invocation that executes the body from the position on. -/
def BodyConforms (ctx : Context) (E : Instruction → Machine → Prop) (N : Heap → Heap → Prop)
    (fuel : Nat) (m : Method) (body : Body) (n index : Nat) (s : Machine) : Prop :=
  ∀ i u, Visits ctx (stepWith (invoke ctx fuel) ctx) m body n index s i u →
    E i u ∧ ∀ c u', performInstruction ctx i u = (.ok (.call c), u') →
      Invocation.Conforms ctx E N ⟨fuel, c.method, c.arguments, u'⟩

theorem Invocation.Conforms.body {calls : CallStack}
    (hv : Conforms ctx E N ⟨fuel + 1, m, args, s⟩) (hpush : s.calls.push m args = .ok calls)
    (hm : m.body = .interpreted b) :
    BodyConforms ctx E N fuel m b fuel 0 (entered ctx m calls s) := by
  intro i u hvisits
  have hexecutes : Executes ctx ⟨fuel + 1, m, args, s⟩ i u := .intro hpush hm hvisits
  exact ⟨hv.instruction _ i u .refl hexecutes,
    fun c u' hperform => hv.makes ⟨i, u, .intro hexecutes hperform⟩⟩

/-! ### Properties that are kept -/

/-- The property stays when an object is added, when an instruction in `E` is performed, and under
what native routines may do. -/
structure Endures (ctx : Context) (E : Instruction → Machine → Prop) (N : Heap → Heap → Prop)
    (Q : Heap → Prop) : Prop where
  add : ∀ h o, Q h → Q (h.alloc o).2
  instruction : ∀ i s, E i s → Q s.heap → Q (performInstruction ctx i s).2.heap
  routine : ∀ h k, N h k → Q h → Q k

theorem heap_of_beginInstruction (h : beginInstruction ctx m i s = (.ok (), u)) :
    u.heap = s.heap := by
  rw [beginInstruction, op_bind_apply, count_apply] at h
  dsimp only at h
  split at h
  · rw [op_bind_apply, frame_apply] at h
    rcases hcurrent : s.calls.current with e | f <;> simp only [hcurrent] at h <;> cases h
    rfl
  · cases h
    rfl

namespace Endures

/-- The property is kept by invocations with so many steps. -/
def Invokes (ctx : Context) (E : Instruction → Machine → Prop) (N : Heap → Heap → Prop)
    (Q : Heap → Prop) (fuel : Nat) : Prop :=
  ∀ m args s r u, Invocation.Conforms ctx E N ⟨fuel, m, args, s⟩ → Q s.heap →
    invoke ctx fuel m args s = some (r, u) → Q u.heap

theorem step (hQ : Endures ctx E N Q) (hfuel : Invokes ctx E N Q fuel) (hi : E i s)
    (hcalls : ∀ c t, performInstruction ctx i s = (.ok (.call c), t) →
      Invocation.Conforms ctx E N ⟨fuel, c.method, c.arguments, t⟩)
    (hs : Q s.heap) {r : Except Failure Outcome}
    (h : stepWith (invoke ctx fuel) ctx i s = some (r, u)) : Q u.heap := by
  have hkept := hQ.instruction i s hi hs
  rw [stepWith_apply] at h
  rcases hp : performInstruction ctx i s with ⟨e | o | c, t⟩ <;> rw [hp] at h hkept
  · cases h
    exact hkept
  · cases h
    exact hkept
  · dsimp only at h
    rw [settle_call_apply] at h
    rcases hrun : invoke ctx fuel c.method c.arguments t with - | ⟨e | a, t'⟩ <;> rw [hrun] at h
    · cases h
    · cases h
      exact hfuel _ _ _ _ _ (hcalls c t hp) hkept hrun
    · have ht' : Q t'.heap := hfuel _ _ _ _ _ (hcalls c t hp) hkept hrun
      rcases hcreated : c.created with - | q <;> simp only [hcreated] at h
      · cases h
        exact ht'
      · -- the push of the created object concerns the frames
        obtain ⟨a', calls, hpush⟩ := push_eq (.object q) t'
        rw [hpush] at h
        rcases a' with e | ⟨⟩ <;> cases h <;> exact ht'

theorem body (hQ : Endures ctx E N Q) (hfuel : Invokes ctx E N Q fuel) {f : Frame}
    {F : List Frame} {r : Except Failure Unit}
    (hbody : BodyConforms ctx E N fuel m b n index s) (hframes : s.calls.frames = f :: F)
    (hs : Q s.heap)
    (h : runBody ctx (stepWith (invoke ctx fuel) ctx) m b n index s = some (r, u)) :
    Q u.heap := by
  induction n generalizing index s f with
  | zero => cases h
  | succ n ih =>
      rcases hget : b.get? index with - | i
      · rw [runBody_of_end hget] at h
        cases h
        exact hs
      have hbegin := beginInstruction_apply hframes ctx m i
      rw [runBody_of_get hget hbegin] at h
      rcases hstep : stepWith (invoke ctx fuel) ctx i (begun ctx m i s f) with - | ⟨a, t⟩ <;>
        rw [hstep] at h
      · cases h
      obtain ⟨hi, hcalls⟩ := hbody i _ (.here hget hbegin)
      have ht : Q t.heap := hQ.step hfuel hi hcalls hs hstep
      rcases a with e | o
      · cases h
        exact ht
      dsimp only at h
      rcases honward : onward b index o with e | - | j <;> simp only [honward] at h
      · cases h
        exact ht
      · cases h
        exact ht
      · obtain ⟨g, hg, -⟩ :=
          (stepWith_continues (invoke_calls ctx fuel) hstep).exists_cons hframes
        exact ih (fun i' u' hvisits => hbody i' u' (.onward hget hbegin hstep honward hvisits))
          hg ht h

/-- The property is kept by invocations. -/
theorem invoke (hQ : Endures ctx E N Q) (fuel : Nat) : Invokes ctx E N Q fuel := by
  -- the invocations that a method makes have less fuel than its own
  induction fuel with
  | zero =>
      intro m args s r u _ _ h
      cases h
  | succ fuel ih =>
      intro m args s r u hv hs h
      have hmethod : ∀ {calls : CallStack} {a : Except Failure Unit} {t : Machine},
          s.calls.push m args = .ok calls →
          runMethod ctx (Machine.invoke ctx fuel) fuel m (entered ctx m calls s) = some (a, t) →
            Q t.heap := by
        intro calls a t hpush hrun
        rcases hm : m.body with body | routine | -
        · rw [runMethod_interpreted hm] at hrun
          obtain ⟨f, hframes⟩ := frames_entered hpush ctx
          exact hQ.body ih (hv.body hpush hm) hframes hs hrun
        · rw [runMethod_native hm, runNative_entered hpush] at hrun
          cases hrun
          exact hQ.routine _ _ (hv.routine _ routine .refl (.intro hpush hm)) hs
        · rw [runMethod_abstract hm] at hrun
          cases hrun
          exact hs
      cases ends_of_invoke h with
      | refused _ => exact hs
      | failed hpush hrun =>
          have ht := hmethod hpush hrun
          exact ht
      | ended hpush hrun hfinish =>
          rw [(notes_of_finish hfinish).heap]
          exact hmethod hpush hrun

theorem visits (hQ : Endures ctx E N Q) (hbody : BodyConforms ctx E N fuel m b n index s)
    (hs : Q s.heap)
    (h : Visits ctx (stepWith (Machine.invoke ctx fuel) ctx) m b n index s i u) :
    Q u.heap := by
  induction h with
  | here _ hbegin =>
      rw [heap_of_beginInstruction hbegin]
      exact hs
  | onward hget hbegin hstep honward _ ih =>
      obtain ⟨hi, hcalls⟩ := hbody _ _ (.here hget hbegin)
      rw [← heap_of_beginInstruction hbegin] at hs
      exact ih (fun i' u' hvisits => hbody i' u' (.onward hget hbegin hstep honward hvisits))
        (hQ.step (hQ.invoke fuel) hi hcalls hs hstep)

theorem executes (hQ : Endures ctx E N Q) (hv : v.Conforms ctx E N) (hs : Q v.machine.heap)
    (h : v.Executes ctx i u) : Q u.heap := by
  cases h with
  | intro hpush hm hvisits => exact hQ.visits (hv.body hpush hm) hs hvisits

theorem within (hQ : Endures ctx E N Q) (hv : v.Conforms ctx E N) (hs : Q v.machine.heap)
    (h : w.Within ctx v) : Q w.machine.heap := by
  induction h with
  | refl => exact hs
  | tail hw hmakes ih =>
      obtain ⟨i, t, ⟨hexecutes, hperform⟩⟩ := hmakes
      have hconforms := hv.within hw
      have hkept := hQ.instruction i t (hconforms.instruction _ i t .refl hexecutes)
        (hQ.executes hconforms ih hexecutes)
      rw [hperform] at hkept
      exact hkept

/-- **The property holds whatever an invocation gets to.** -/
theorem getsTo (hQ : Endures ctx E N Q) (hv : v.Conforms ctx E N) (hs : Q v.machine.heap)
    (h : v.GetsTo ctx u) : Q u.heap := by
  cases h with
  | starts hw => exact hQ.within hv hs hw
  | executes hw hexecutes => exact hQ.executes (hv.within hw) (hQ.within hv hs hw) hexecutes
  | ends hw hrun =>
      exact hQ.invoke _ _ _ _ _ _ (hv.within hw) (hQ.within hv hs hw) hrun

end Endures

/-! ### Sequels -/

/-- From the machine `s` and the context `ctx` on, instructions in `E`, constructions and calls that
conform lead to this context and this machine.  Each of them may succeed or fail.  An instruction is
performed up to the call that it may make, and a construction up to that of the constructor; a call
may be in progress.  What is not on the heap may be anything at any time, and the catalog may
grow. -/
inductive Sequel (E : Instruction → Machine → Prop) (N : Heap → Heap → Prop) (ctx : Context)
    (s : Machine) : Context → Machine → Prop
  | start : Sequel E N ctx s ctx s
  | instruction {c : Context} {t : Machine} {i : Instruction} : Sequel E N ctx s c t → E i t →
      Sequel E N ctx s c (performInstruction c i t).2
  | construction {c : Context} {t : Machine} (ctor : MethodRef) (args : List Value) :
      Sequel E N ctx s c t → Sequel E N ctx s c (prepareConstruction c ctor args t).2
  | call {c : Context} {u : Machine} {v : Invocation} : Sequel E N ctx s c v.machine →
      v.Conforms c E N → v.GetsTo c u → Sequel E N ctx s c u
  | string {c : Context} {t : Machine} (text : String) : Sequel E N ctx s c t →
      Sequel E N ctx s c (Host.allocString c text t).2
  | elsewhere {c : Context} {t u : Machine} : Sequel E N ctx s c t → u.heap = t.heap →
      Sequel E N ctx s c u
  | growth {c c' : Context} {t : Machine} : Sequel E N ctx s c t →
      c.catalog.Extends (fun _ => True) c'.catalog → Sequel E N ctx s c' t

/-- What comes before a constructor adds at most an object. -/
theorem heap_prepareConstruction (ctx : Context) (ctor : MethodRef) (args : List Value)
    (s : Machine) :
    (prepareConstruction ctx ctor args s).2.heap = s.heap ∨
      ∃ o, (prepareConstruction ctx ctor args s).2.heap = (s.heap.alloc o).2 := by
  rw [prepareConstruction, op_bind_apply, lift_apply]
  rcases ctx.catalog.resolveConstructor ctor with e | m
  · exact .inl rfl
  dsimp only [Except.mapError]
  split
  · exact .inl rfl
  rw [op_bind_apply, allocateObject_apply]
  rcases ctx.catalog.instanceFields ctor.declaring with e | layout
  · exact .inl rfl
  · exact .inr ⟨_, rfl⟩

theorem heap_allocString (ctx : Context) (text : String) (s : Machine) :
    (Host.allocString ctx text s).2.heap = s.heap ∨
      (Host.allocString ctx text s).2.heap =
        (s.heap.alloc (.record .string [(textField, .text text)])).2 := by
  rw [(Host.allocString_snd ctx text s).1]
  unfold Native.allocString
  split
  · exact .inr rfl
  · exact .inl rfl

/-- **What endures holds ever after.** -/
theorem Sequel.holds (hQ : ∀ c : Context, Endures c E N Q) (hs : Q s.heap)
    (h : Sequel E N ctx s ctx' u) : Q u.heap := by
  induction h with
  | start => exact hs
  | instruction _ hi ih => exact (hQ _).instruction _ _ hi ih
  | @construction c t ctor args _ ih =>
      rcases heap_prepareConstruction c ctor args t with heq | ⟨o, heq⟩ <;> rw [heq]
      · exact ih
      · exact (hQ c).add _ _ ih
  | call _ hv hgets ih => exact (hQ _).getsTo hv ih hgets
  | @string c t text _ ih =>
      rcases heap_allocString c text t with heq | heq <;> rw [heq]
      · exact ih
      · exact (hQ c).add _ _ ih
  | elsewhere _ heq ih =>
      rw [heq]
      exact ih
  | growth _ _ ih => exact ih

end Machine

end CilMachine
