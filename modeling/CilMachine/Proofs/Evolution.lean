/-
CilMachine/Proofs/Evolution.lean

Invariants of the heap.  A property of heaps is a `Heap.Invariant` if every change that the machine
makes preserves it, and if the native routines that code gets to do.  Then it is preserved by whole
runs, however they end, and it holds at every point along the way (`Occurs.keeps`).

Once more this is a matter of correspondences: a machine corresponds to itself, and the heap is
asked to have the property besides (`Correspondence.tracking`).

Invariants of the call stack are properties that stay when the frame on top gets on and when a frame
is pushed (`Occurs.calls`).  They do not depend on native routines, which do not get at the frames.
-/
import CilMachine.Proofs.Liveness

namespace CilMachine

open Correspondence

/-! ### Invariants -/

/-- Where the heap has the property `Q` before the routine runs, it does afterwards. -/
def Native.Preserves (Q : Heap → Prop) (headers : Headers) (routine : Native) : Prop :=
  ∀ args h, Q h → Q ((routine.run headers args).run.run h).2

/-- The property is preserved by what the machine does to the heap, and by the routines in `P`. -/
structure Heap.Invariant (ctx : Context) (P : Native → Prop) (Q : Heap → Prop) : Prop where
  change : ∀ {h k : Heap}, h.Change ctx.catalog k → Q h → Q k
  routine : ∀ {routine : Native}, P routine → routine.Preserves Q ctx.catalog.headers

/-- The property stays when the frame on top gets on, and when a frame is pushed for a method. -/
structure CallStack.Invariant (C : CallStack → Prop) : Prop where
  continues : ∀ {c d : CallStack}, c.Continues d → C c → C d
  push : ∀ {c d : CallStack} {m : Method} {args : List Value}, c.push m args = .ok d → C c → C d

namespace Correspondence

variable {W : Type} {R : Correspondence W} {ctx ctx' : Context} {Q : Heap → Prop}

/-- The machines correspond, and the first one's heap has the property. -/
def tracking (R : Correspondence W) (Q : Heap → Prop) : Correspondence W :=
  { R with heap := fun w h k => R.heap w h k ∧ Q h }

theorem Lawful.tracking (hR : R.Lawful ctx ctx')
    (hQ : ∀ {h k : Heap}, h.Change ctx.catalog k → Q h → Q k) :
    (R.tracking Q).Lawful ctx ctx' where
  catalog := hR.catalog
  refl := hR.refl
  trans := hR.trans
  mono := hR.mono
  biUnique := hR.biUnique
  ordinary := hR.ordinary
  size hh := hR.size hh.1
  object hh hr := hR.object hh.1 hr
  setField hh hr ho hp hv hname hstores :=
    ⟨hR.setField hh.1 hr ho hp hv hname hstores, hQ (.setField ho hname hstores) hh.2⟩
  setElement hh hr ho hp hi := ⟨hR.setElement hh.1 hr ho hp hi, hQ (.setElement _ ho hi) hh.2⟩
  setReference hh hr ho hp hab hi :=
    ⟨hR.setReference hh.1 hr ho hp hab hi, hQ (.setReference _ ho hi) hh.2⟩
  alloc hh ho := by
    obtain ⟨w', hle, hheap, hnext⟩ := hR.alloc hh.1 ho
    exact ⟨w', hle, ⟨hheap, hQ (.alloc ho) hh.2⟩, hnext⟩
  continues := hR.continues
  count := hR.count
  record := hR.record
  dispatch := hR.dispatch
  declared := hR.declared

end Correspondence

namespace Machine

variable {ctx : Context} {P : Native → Prop} {Q : Heap → Prop} {fuel : Nat} {m : Method}
  {args : List Value} {i : Instruction} {s s' u : Machine}

/-- A machine by itself, whose heap has the property. -/
def keeping (P : Native → Prop) (Q : Heap → Prop) : Correspondence Unit :=
  (itself (Method.Runs P) fun _ => True).tracking Q

theorem keeping_lawful (hdeclared : ∀ m, ctx.catalog.Declares m → m.Runs P)
    (hQ : ∀ {h k : Heap}, h.Change ctx.catalog k → Q h → Q k) : (keeping P Q).Lawful ctx ctx :=
  (itself_lawful hdeclared fun _ _ => trivial).tracking hQ

/-- A routine comes out alike on one heap with the property if and only if it preserves that. -/
theorem keeping_routine {headers : Headers} {routine : Native} :
    (keeping P Q).Routine headers routine ↔ routine.Preserves Q headers := by
  constructor
  · intro hroutine args h hh
    obtain ⟨_, -, hk, -⟩ := hroutine (w := ()) ⟨rfl, hh⟩ (valuesRel_eq args)
    exact hk.2
  · intro hpreserves _ h _ args _ hh hargs
    have hitself : (itself (Method.Runs P) fun _ => True).Routine headers routine :=
      sameHeap_routine fun _ _ _ _ => trivial
    obtain ⟨_, hle, hk, hr⟩ := hitself hh.1 hargs
    exact ⟨(), hle, ⟨hk, hpreserves args h hh.2⟩, hr⟩

theorem keeping_lawfulRuns (hQ : Heap.Invariant ctx P Q)
    (hdeclared : ∀ m, ctx.catalog.Declares m → m.Runs P) :
    (keeping P Q).LawfulRuns ctx ctx (fun _ => False) fun _ => True :=
  lawfulRuns_of_sameShape (keeping_lawful hdeclared hQ.change) rfl (fun _ _ _ => trivial)
    fun hm hbody => keeping_routine.2 (hQ.routine (hm _ hbody))

/-- What the machine does to its heap is all that the core library does. -/
theorem corelib_preserves {c : Catalog} (hQ : ∀ {h k : Heap}, h.Change c k → Q h → Q k)
    (headers : Headers) : Catalog.withCorelib.Runs (Native.Preserves Q headers) := by
  have hR : (keeping (fun _ => True) Q).Lawful ⟨c, {}⟩ ⟨c, {}⟩ :=
    keeping_lawful (fun _ _ _ _ => trivial) hQ
  have hruns := corelib_routine hR headers
  exact ⟨fun entry hentry => keeping_routine.1 (hruns.natives entry hentry),
    fun m hm routine hbody => keeping_routine.1 (hruns.methods m hm routine hbody)⟩

/-! ### Runs -/

/-- The heap has the property, and code that runs in the machine gets to native routines in `P`
only. -/
structure Keeps (ctx : Context) (P : Native → Prop) (Q : Heap → Prop) (s : Machine) : Prop where
  heap : Q s.heap
  runsOnly : s.RunsOnly ctx P

theorem Keeps.machines (hs : s.Keeps ctx P Q) : (keeping P Q).Machines () s s := by
  have hst := itself_machines (fun _ => True) hs.runsOnly.answers
  exact ⟨⟨hst.heap, hs.heap⟩, hst.frame, hst.callStacks, hst.counters, hst.answers, hst.logs⟩

theorem Keeps.of_outside (hs : s.Keeps ctx P Q) {t : Machine}
    (h : (keeping P Q).Outside () s' t) : s'.Keeps ctx P Q :=
  ⟨h.heap.2, hs.runsOnly.declared, h.answers.2⟩

theorem step_keeps (hQ : Heap.Invariant ctx P Q) (hs : s.Keeps ctx P Q)
    {r : Except Failure Outcome} (h : step ctx fuel i s = some (r, s')) : s'.Keeps ctx P Q := by
  have hR := keeping_lawfulRuns hQ hs.runsOnly.declared
  obtain ⟨_, _, t, -, -, hm, -⟩ := (step_follows hR hs.machines).ends h
  exact hs.of_outside hm.outside

theorem invoke_keeps (hQ : Heap.Invariant ctx P Q) (hs : s.Keeps ctx P Q) (hm : m.Runs P)
    {r : Except Failure (Option Value)} (h : invoke ctx fuel m args s = some (r, s')) :
    s'.Keeps ctx P Q := by
  have hR := keeping_lawfulRuns hQ hs.runsOnly.declared
  obtain ⟨_, _, t, -, -, hout, -⟩ :=
    (invoke_follows hR trivial hm (valuesRel_eq args) hs.machines.outside).ends h
  exact hs.of_outside hout

theorem construct_keeps (hQ : Heap.Invariant ctx P Q) (hs : s.Keeps ctx P Q) {ctor : MethodRef}
    {r : Except Failure Handle} (h : construct ctx fuel ctor args s = some (r, s')) :
    s'.Keeps ctx P Q := by
  have hR := keeping_lawfulRuns hQ hs.runsOnly.declared
  obtain ⟨_, _, t, -, -, hm, -⟩ := (construct_follows hR (valuesRel_eq args) hs.machines).ends h
  exact hs.of_outside hm.outside

/-! ### Along the way -/

/-- The invocation starts in the machine `s`: the host makes it there, an instruction does, or the
construction of an object. -/
inductive Starts (ctx : Context) (P : Native → Prop) (s : Machine) : Invocation → Prop
  | invoke (fuel : Nat) {m : Method} (args : List Value) : m.Runs P →
      Starts ctx P s ⟨fuel, m, args, s⟩
  | step (fuel : Nat) {i : Instruction} {c : Call} {u : Machine} :
      performInstruction ctx i s = (.ok (.call c), u) →
      Starts ctx P s ⟨fuel, c.method, c.arguments, u⟩
  | construct (fuel : Nat) {ctor : MethodRef} {args : List Value} {r : Handle} {c : Call}
      {u : Machine} : prepareConstruction ctx ctor args s = (.ok (r, c), u) →
      Starts ctx P s ⟨fuel, c.method, c.arguments, u⟩

theorem Starts.keeps {v : Invocation} (h : s.Starts ctx P v) (hQ : Heap.Invariant ctx P Q)
    (hs : s.Keeps ctx P Q) : v.method.Runs P ∧ v.machine.Keeps ctx P Q := by
  have hR := keeping_lawful hs.runsOnly.declared hQ.change
  cases h with
  | invoke fuel args hm => exact ⟨hm, hs⟩
  | @step fuel i c u hp =>
      obtain ⟨_, -, hu, -, -, ho⟩ := agree_performInstruction hR i s s hs.machines
      rw [hp] at hu ho
      cases ho with
      | ok heffects =>
          cases heffects with
          | call hc => exact ⟨hc.runs, hs.of_outside hu.outside⟩
  | @construct fuel ctor args r c u hp =>
      obtain ⟨_, -, hu, -, -, ho⟩ :=
        agree_prepareConstruction hR ctor (valuesRel_eq args) s s hs.machines
      rw [hp] at hu ho
      cases ho with
      | ok hpq => exact ⟨hpq.2.runs, hs.of_outside hu.outside⟩

theorem getsTo_keeps {v : Invocation} (hQ : Heap.Invariant ctx P Q)
    (hs : v.machine.Keeps ctx P Q) (hm : v.method.Runs P) (h : v.GetsTo ctx u) :
    u.Keeps ctx P Q := by
  have hR := keeping_lawfulRuns hQ hs.runsOnly.declared
  obtain ⟨_, t, -, hout⟩ :=
    getsTo_corresponds hR trivial hm (valuesRel_eq v.arguments) hs.machines.outside h
  exact hs.of_outside hout

/-- The machine occurs in a run from `s`: a sequence of instructions, invocations and constructions,
each of which may succeed or fail, leads to it, or to a point at which one of them gets to it. -/
inductive Occurs (ctx : Context) (P : Native → Prop) (s : Machine) : Machine → Prop
  | start : Occurs ctx P s s
  | step {fuel : Nat} {i : Instruction} {t u : Machine} {r : Except Failure Outcome} :
      Occurs ctx P s t → step ctx fuel i t = some (r, u) → Occurs ctx P s u
  | invoke {fuel : Nat} {m : Method} {args : List Value} {t u : Machine}
      {r : Except Failure (Option Value)} : Occurs ctx P s t → m.Runs P →
      invoke ctx fuel m args t = some (r, u) → Occurs ctx P s u
  | construct {fuel : Nat} {ctor : MethodRef} {args : List Value} {t u : Machine}
      {r : Except Failure Handle} : Occurs ctx P s t →
      construct ctx fuel ctor args t = some (r, u) → Occurs ctx P s u
  | amid {t u : Machine} {v : Invocation} : Occurs ctx P s t → t.Starts ctx P v →
      v.GetsTo ctx u → Occurs ctx P s u

/-- **Invariants hold throughout runs**: at every point, and whether they succeed or fail. -/
theorem Occurs.keeps (hQ : Heap.Invariant ctx P Q) (hs : s.Keeps ctx P Q)
    (h : s.Occurs ctx P u) : u.Keeps ctx P Q := by
  induction h with
  | start => exact hs
  | step _ hstep ih => exact step_keeps hQ ih hstep
  | invoke _ hm hinvoke ih => exact invoke_keeps hQ ih hm hinvoke
  | construct _ hconstruct ih => exact construct_keeps hQ ih hconstruct
  | amid _ hstarts hgets ih =>
      obtain ⟨hm, hv⟩ := hstarts.keeps hQ ih
      exact getsTo_keeps hQ hv hm hgets

/-! ### Call stacks -/

section Calls

variable {C : CallStack → Prop}

theorem visits_continues {body : Body} {n index : Nat} {f : Frame} {F : List Frame}
    (hs : s.calls.frames = f :: F)
    (h : Visits ctx (stepWith (invoke ctx fuel) ctx) m body n index s i u) :
    s.calls.Continues u.calls := by
  induction h generalizing f with
  | here _ hbegin =>
      rw [beginInstruction_apply hs] at hbegin
      cases hbegin
      exact .refl _
  | @onward _ _ _ s _ _ _ i _ _ _ hbegin hstep _ _ ih =>
      rw [beginInstruction_apply hs] at hbegin
      cases hbegin
      have hcontinues : (begun ctx m i s f).calls.Continues _ :=
        stepWith_continues (invoke_calls ctx fuel) hstep
      obtain ⟨g, hg, -⟩ := hcontinues.exists_cons hs
      exact hcontinues.trans (ih hg)

theorem executes_calls (hC : CallStack.Invariant C) {v : Invocation} (hv : C v.machine.calls)
    (h : v.Executes ctx i u) : C u.calls := by
  cases h with
  | intro hpush _ hvisits =>
      obtain ⟨f, hf⟩ := frames_entered hpush ctx
      exact hC.continues (visits_continues hf hvisits) (hC.push hpush hv)

theorem within_calls (hC : CallStack.Invariant C) {v v' : Invocation} (hv : C v.machine.calls)
    (h : v'.Within ctx v) : C v'.machine.calls := by
  induction h with
  | refl => exact hv
  | tail _ hmakes ih =>
      obtain ⟨i, u, ⟨hexecutes, hperform⟩⟩ := hmakes
      have hcontinues := performInstruction_continues ctx i u
      rw [hperform] at hcontinues
      exact hC.continues hcontinues (executes_calls hC ih hexecutes)

theorem getsTo_calls (hC : CallStack.Invariant C) {v : Invocation} (hv : C v.machine.calls)
    (h : v.GetsTo ctx u) : C u.calls := by
  cases h with
  | starts hwithin => exact within_calls hC hv hwithin
  | executes hwithin hexecutes => exact executes_calls hC (within_calls hC hv hwithin) hexecutes
  | ends hwithin hrun =>
      exact hC.continues (invoke_continues hrun) (within_calls hC hv hwithin)

theorem Starts.calls (hC : CallStack.Invariant C) (hs : C s.calls) {v : Invocation}
    (h : s.Starts ctx P v) : C v.machine.calls := by
  cases h with
  | invoke => exact hs
  | @step _ i _ _ hperform =>
      have hcontinues := performInstruction_continues ctx i s
      rw [hperform] at hcontinues
      exact hC.continues hcontinues hs
  | @construct _ ctor args _ _ _ hprepare =>
      have hcontinues := prepareConstruction_continues ctx ctor args s
      rw [hprepare] at hcontinues
      exact hC.continues hcontinues hs

/-- What holds of call stacks however their frames get on holds throughout runs. -/
theorem Occurs.calls (hC : CallStack.Invariant C) (hs : C s.calls) (h : s.Occurs ctx P u) :
    C u.calls := by
  induction h with
  | start => exact hs
  | step _ hstep ih => exact hC.continues (stepWith_continues (invoke_calls ctx _) hstep) ih
  | invoke _ _ hinvoke ih => exact hC.continues (invoke_continues hinvoke) ih
  | construct _ hconstruct ih => exact hC.continues (construct_continues hconstruct) ih
  | amid _ hstarts hgets ih => exact getsTo_calls hC (hstarts.calls hC ih) hgets

end Calls

end Machine

end CilMachine
