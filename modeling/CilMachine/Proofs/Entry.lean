/-
CilMachine/Proofs/Entry.lean

The host's operations.  An invocation or a construction on behalf of the host runs the machine's own
from a machine that has an entry frame (`atEntry`); what it does besides concerns the frames and the
log only, and the frames that it leaves are those that it began with (`invoke_eq_some`,
`construct_eq_some`).

`Reached` collects the machines that the host can get to by operations one after another, beginning
with one in which nothing has run; `Occurs` adds those that occur while an operation runs.
-/
import CilMachine.Host
import CilMachine.Proofs.Evolution
import CilMachine.Proofs.Extension
import CilMachine.Proofs.Operations

namespace CilMachine

theorem CallStack.truncate_of_size_le {c : CallStack} {n : Nat} (h : c.size ≤ n) :
    c.truncate n = c := by
  rw [truncate, Nat.sub_eq_zero_of_le h]
  rfl

namespace Host

open Machine

variable {α : Type} {ctx : Context} {fuel : Nat} {args : List Value} {s s' u : Machine}

/-! ### The operations as functions of the machine -/

/-- The machine with an entry frame, if it had no frame. -/
def atEntry (s : Machine) : Machine :=
  if s.calls.isEmpty then { s with calls := s.calls.pushEntry } else s

theorem heap_atEntry (s : Machine) : (atEntry s).heap = s.heap := by
  unfold atEntry
  split <;> rfl

theorem exists_frames_atEntry (s : Machine) : ∃ f F, (atEntry s).calls.frames = f :: F := by
  unfold atEntry
  split
  · exact ⟨_, _, rfl⟩
  · rename_i hnonempty
    rcases hs : s.calls.frames with - | ⟨f, F⟩
    · rw [CallStack.isEmpty, hs] at hnonempty
      exact absurd rfl hnonempty
    · exact ⟨f, F, rfl⟩

theorem dispatch_atEntry (s : Machine) : (atEntry s).dispatch = s.dispatch := by
  unfold atEntry
  split <;> rfl

/-- What the host's operations leave to the machine's own: heap and dispatcher. -/
structure Agrees (s u : Machine) : Prop where
  heap : u.heap = s.heap
  dispatch : u.dispatch = s.dispatch

theorem Agrees.of_eq {calls : CallStack} {log : Array Event} (h : s' = { u with calls, log }) :
    Agrees u s' := by
  subst h
  exact ⟨rfl, rfl⟩

theorem agrees_atEntry (s : Machine) : Agrees s (atEntry s) := ⟨heap_atEntry s, dispatch_atEntry s⟩

/-- The log after an operation with this result: a failure is noted in it. -/
def noted (name : String) (r : Except Failure α) (log : Array Event) : Array Event :=
  match r with
  | .ok _ => log
  | .error e => log.push (.failed name e)

theorem guarded_apply (name : String) (x : Run α) (s : Machine) :
    guarded name x s = match x s with
      | none => none
      | some (.ok a, u) => some (.ok a, u)
      | some (.error e, u) => some (.error e, { u with
          calls := u.calls.truncate s.calls.size, log := u.log.push (.failed name e) }) := by
  have hget : (liftM (get : Op Machine) : Run Machine) s = some (.ok s, s) := rfl
  show (liftM (get : Op Machine) >>= _ : Run α) s = _
  rw [Run.bind_apply, hget]
  show (tryCatch x _ : Run α) s = _
  rw [Run.tryCatch_apply]
  rcases x s with - | ⟨e | a, u⟩ <;> rfl

/-- Unless the run has added frames and then failed, only a note of the failure is added to it. -/
theorem guarded_eq_some {name : String} {x : Run α} {r : Except Failure α}
    (h : guarded name x s = some (r, s')) :
    ∃ u, x s = some (r, u) ∧ (∀ a, r = .ok a → s' = u) ∧
      (u.calls.size ≤ s.calls.size → s' = { u with log := noted name r u.log }) := by
  rw [guarded_apply] at h
  rcases hx : x s with - | ⟨e | a, u⟩ <;> rw [hx] at h <;> cases h
  · refine ⟨u, rfl, ?_, fun hsize => ?_⟩
    · rintro a ⟨⟩
    · rw [CallStack.truncate_of_size_le hsize]
      rfl
  · exact ⟨s', rfl, fun _ _ => rfl, fun _ => rfl⟩

/-- The value that an invocation has delivered to the top frame is taken off again. -/
theorem takeOff_apply {c : CallStack} {f : Frame} {F : List Frame} (hc : c.frames = f :: F)
    {v : Option Value} (hu : u.calls = c.afterCall (.ok v : Except Failure (Option Value))) :
    (do
      if v.isSome then discard (pop : Op Value)
      return v : Run (Option Value)) u = some (.ok v, { u with calls := c }) := by
  obtain ⟨frames, entries, limit⟩ := c
  obtain rfl : frames = f :: F := hc
  obtain ⟨heap, calls, dispatch, stats, log⟩ := u
  rcases v with - | v
  · obtain rfl := hu
    rfl
  · obtain rfl := hu
    rfl

/-- An invocation is refused and nothing has happened, or the machine's own runs from an entry
frame, and what the host then sees to is the frames, which are those of the beginning, and the
note of a failure. -/
theorem invoke_eq_some {ref : MethodRef} {r : Except Failure (Option Value)}
    (h : Host.invoke ctx fuel ref args s = some (r, s')) :
    (s' = s ∧ (∃ e, r = .error e) ∧
      ∀ m, ctx.catalog.resolveMethod ref = .ok m → args.length ≠ m.argCount) ∨
    ∃ m u, ctx.catalog.resolveMethod ref = .ok m ∧ args.length = m.argCount ∧
      Machine.invoke ctx fuel m args (atEntry s) = some (r, u) ∧
      s' = { u with calls := (atEntry s).calls, log := noted m.fullName r u.log } := by
  rcases Run.bind_eq_some h with ⟨e, hresolve, rfl⟩ | ⟨m, s₁, hresolve, h⟩
  · -- there is no such method
    rw [Run.lift_apply, Machine.lift_apply] at hresolve
    rcases hm : ctx.catalog.resolveMethod ref with e' | m <;> rw [hm] at hresolve <;> cases hresolve
    exact .inl ⟨rfl, ⟨_, rfl⟩, fun m hm => by cases hm⟩
  rw [Run.lift_apply] at hresolve
  obtain ⟨hm, rfl⟩ := lift_eq_ok (Option.some.inj hresolve)
  dsimp only at h
  split at h
  · -- the number of arguments is wrong
    rename_i hargs
    cases h
    refine .inl ⟨rfl, ⟨_, rfl⟩, fun m' hm' => ?_⟩
    cases hm.symm.trans hm'
    exact hargs
  rename_i hargs
  rcases Run.bind_eq_some h with ⟨e, hentry, -⟩ | ⟨⟨⟩, s₂, hentry, h⟩
  · cases hentry
  obtain rfl : atEntry s = s₂ := congrArg Prod.snd (Option.some.inj hentry)
  right
  rcases Run.bind_eq_some h with ⟨e, hguarded, rfl⟩ | ⟨v, u, hguarded, h⟩
  · obtain ⟨u, hrun, -, hlogged⟩ := guarded_eq_some hguarded
    have hcalls : u.calls = (atEntry s).calls := invoke_calls ctx fuel _ _ _ _ _ hrun
    have heq := hlogged (Nat.le_of_eq (congrArg CallStack.size hcalls))
    rw [← hcalls]
    exact ⟨m, u, hm, not_not.1 hargs, hrun, heq⟩
  · obtain ⟨u', hrun, hsame, -⟩ := guarded_eq_some hguarded
    obtain rfl := hsame v rfl
    obtain ⟨f, F, hframes⟩ := exists_frames_atEntry s
    rw [takeOff_apply hframes (invoke_calls ctx fuel _ _ _ _ _ hrun)] at h
    cases h
    exact ⟨m, u, hm, not_not.1 hargs, hrun, rfl⟩

/-- The machine's own construction runs from an entry frame, and what the host then sees to is the
note of a failure. -/
theorem construct_eq_some {ctor : MethodRef} {r : Except Failure Handle}
    (h : Host.construct ctx fuel ctor args s = some (r, s')) :
    ∃ u, Machine.construct ctx fuel ctor args (atEntry s) = some (r, u) ∧
      s' = { u with log := noted ctor.text r u.log } := by
  rcases Run.bind_eq_some h with ⟨e, hentry, -⟩ | ⟨⟨⟩, s₂, hentry, h⟩
  · cases hentry
  obtain rfl : atEntry s = s₂ := congrArg Prod.snd (Option.some.inj hentry)
  obtain ⟨u, hrun, -, hlogged⟩ := guarded_eq_some h
  -- the frames are as many as before, so none is taken off
  exact ⟨u, hrun, hlogged (Nat.le_of_eq (construct_continues hrun).length_eq)⟩

/-- A string is added as by a native routine. -/
theorem allocString_snd (ctx : Context) (text : String) (s : Machine) :
    (Host.allocString ctx text s).2.heap =
        ((Native.allocString ctx.catalog.headers text).run.run s.heap).2 ∧
      (Host.allocString ctx text s).2.dispatch = s.dispatch := by
  rw [Host.allocString, op_bind_apply, onHeap_apply]
  rcases (Native.allocString ctx.catalog.headers text).run.run s.heap with ⟨e | r, k⟩
  · exact ⟨rfl, rfl⟩
  · exact ⟨rfl, rfl⟩

/-! ### What the host gets to -/

/-- The machines that the host gets to by operations one after another, whether they succeed or
fail, beginning with a machine in which nothing has run. -/
inductive Reached (ctx : Context) : Machine → Prop
  | start (config : Config) : Reached ctx (ofConfig config)
  | invoke {fuel : Nat} {ref : MethodRef} {args : List Value} {s s' : Machine}
      {r : Except Failure (Option Value)} : Reached ctx s →
      Host.invoke ctx fuel ref args s = some (r, s') → Reached ctx s'
  | construct {fuel : Nat} {ctor : MethodRef} {args : List Value} {s s' : Machine}
      {r : Except Failure Handle} : Reached ctx s →
      Host.construct ctx fuel ctor args s = some (r, s') → Reached ctx s'
  | allocString {s : Machine} (text : String) : Reached ctx s →
      Reached ctx (Host.allocString ctx text s).2

/-- The invocation that an operation of the host begins. -/
inductive Begins (ctx : Context) (s : Machine) : Invocation → Prop
  | invoke (fuel : Nat) {ref : MethodRef} {m : Method} {args : List Value} :
      ctx.catalog.resolveMethod ref = .ok m → args.length = m.argCount →
      Begins ctx s ⟨fuel, m, args, atEntry s⟩
  | construct (fuel : Nat) {ctor : MethodRef} {args : List Value} {r : Handle} {c : Call}
      {u : Machine} : prepareConstruction ctx ctor args (atEntry s) = (.ok (r, c), u) →
      Begins ctx s ⟨fuel, c.method, c.arguments, u⟩

/-- The machines that the host gets to, and those that occur while an operation runs. -/
inductive Occurs (ctx : Context) : Machine → Prop
  | reached {s : Machine} : Reached ctx s → Occurs ctx s
  | amid {s u : Machine} {v : Invocation} : Reached ctx s → Begins ctx s v → v.GetsTo ctx u →
      Occurs ctx u

/-! ### Invariants -/

section Invariants

variable {P : Native → Prop} {Q : Heap → Prop}

theorem Agrees.keeps (h : Agrees s s') (hs : s.Keeps ctx P Q) : s'.Keeps ctx P Q where
  heap := by
    rw [h.heap]
    exact hs.heap
  runsOnly := by
    refine ⟨hs.runsOnly.declared, ?_⟩
    rw [h.dispatch]
    exact hs.runsOnly.answers

theorem keeps_ofConfig (config : Config) (hQ : Q {}) (hruns : ctx.catalog.Runs P) :
    (ofConfig config).Keeps ctx P Q :=
  ⟨hQ, hruns.methods, fun _ hentry => by cases hentry⟩

/-- To add a string is a change like those that the machine makes. -/
theorem allocString_keeps (hQ : Heap.Invariant ctx P Q) (hs : s.Keeps ctx P Q) (text : String) :
    (Host.allocString ctx text s).2.Keeps ctx P Q := by
  obtain ⟨hheap, hdispatch⟩ := allocString_snd ctx text s
  refine ⟨?_, hs.runsOnly.declared, by rw [hdispatch]; exact hs.runsOnly.answers⟩
  rw [hheap]
  unfold Native.allocString
  split
  · exact hQ.change (.alloc (.string text)) hs.heap
  · exact hs.heap

theorem Reached.keeps (hQ : Heap.Invariant ctx P Q) (hempty : Q {}) (hruns : ctx.catalog.Runs P)
    (h : Reached ctx s) : s.Keeps ctx P Q := by
  induction h with
  | start config => exact keeps_ofConfig config hempty hruns
  | invoke _ hinvoke ih =>
      rcases invoke_eq_some hinvoke with ⟨rfl, -⟩ | ⟨m, u, hm, -, hrun, heq⟩
      · exact ih
      · have hagrees : Agrees u _ := .of_eq heq
        have hmethod : m.Runs P := hruns.methods m (Catalog.declares_of_resolveMethod hm)
        exact hagrees.keeps (invoke_keeps hQ ((agrees_atEntry _).keeps ih) hmethod hrun)
  | construct _ hconstruct ih =>
      obtain ⟨u, hrun, heq⟩ := construct_eq_some hconstruct
      have hagrees : Agrees u _ := .of_eq heq
      exact hagrees.keeps (construct_keeps hQ ((agrees_atEntry _).keeps ih) hrun)
  | allocString text _ ih => exact allocString_keeps hQ ih text

theorem Begins.starts {v : Invocation} (hruns : ctx.catalog.Runs P) (h : Begins ctx s v) :
    (atEntry s).Starts ctx P v := by
  cases h with
  | @invoke fuel ref m args hm _ =>
      have hmethod : m.Runs P := hruns.methods m (Catalog.declares_of_resolveMethod hm)
      exact .invoke fuel args hmethod
  | construct fuel hp => exact .construct fuel hp

/-- **Invariants hold wherever the host gets to**, and while its operations run. -/
theorem Occurs.keeps (hQ : Heap.Invariant ctx P Q) (hempty : Q {}) (hruns : ctx.catalog.Runs P)
    (h : Occurs ctx u) : u.Keeps ctx P Q := by
  cases h with
  | reached hs => exact hs.keeps hQ hempty hruns
  | amid hs hbegins hgets =>
      have hentry := (agrees_atEntry _).keeps (hs.keeps hQ hempty hruns)
      obtain ⟨hm, hv⟩ := (hbegins.starts hruns).keeps hQ hentry
      exact getsTo_keeps hQ hv hm hgets

end Invariants

end Host

end CilMachine
