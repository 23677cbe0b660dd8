/-
CilMachine/Proofs/Trace.lean

The trace as an account of a run.  When calls and instructions are traced, the log tells how many
instructions and calls were counted, which invocations got a frame, and how deep; and it can be read
as nested calls, each with its own instructions.  A call that has returned is closed; the calls that
are left open are those of the invocations that have failed (`operations_traced`).

The counters, the log and the call stack are kept independently of each other.  What links them is
the list of the invocations that have got a frame, in the order in which they did: each is counted
once, and named by one line (`Traces`).  How that list is nested is told by which of its members
have failed (`Nests`): nothing is executed once an invocation has failed, so the failed ones are
those around the place where the failure arose.
-/
import CilMachine.Proofs.Course
import CilMachine.Proofs.Transcript

namespace CilMachine

theorem Event.Announces.isAside {r : Handle} {e : Event} (h : e.Announces r) :
    e.isAside = true := by
  cases e <;> first | rfl | cases h

namespace Machine

open Event

variable {α : Type} {ctx : Context} {fuel n : Nat} {m : Method} {args : List Value}
  {i : Instruction} {s t u : Machine} {lines lines' : List Event}
  {entered' entered'' opened opened' : List Invocation}

namespace Invocation

/-- What the trace says of the invocation: the method, and how deep its frame is. -/
def entry (v : Invocation) : String × Nat := (v.method.fullName, v.machine.calls.depth + 1)

/-- The invocation gets its frame. -/
def Enters (v : Invocation) : Prop :=
  ∃ calls, v.machine.calls.push v.method v.arguments = .ok calls

/-- The invocation fails. -/
def Fails (ctx : Context) (v : Invocation) : Prop := ∃ e u, v.run ctx = some (.error e, u)

end Invocation

/-! ### Counters and lines -/

/-- From the machine `s` to `u` these lines have been logged, and these invocations have got their
frames, in this order.  The counters and the lines agree with them. -/
structure Traces (s u : Machine) (lines : List Event) (entered : List Invocation) : Prop where
  log : u.log.toList = s.log.toList ++ lines
  instructions : u.stats.instructions = s.stats.instructions + lines.countP isExecuting
  calls : u.stats.calls = s.stats.calls + entered.length
  nativeCalls : u.stats.nativeCalls =
    s.stats.nativeCalls + entered.countP fun v => v.method.isNative
  maxDepth : u.stats.maxDepth = ((lines.filterMap called?).map Prod.snd).foldl max s.stats.maxDepth
  named : lines.filterMap called? = entered.map Invocation.entry
  /-- Each was the next one when it was counted, so no two of them are the same. -/
  numbered : entered.map (fun v => v.machine.stats.calls) =
    List.range' s.stats.calls entered.length

theorem Traces.nodup (h : Traces s u lines entered') : entered'.Nodup := by
  have hnumbered : (entered'.map fun v => v.machine.stats.calls).Nodup := by
    rw [h.numbered]
    exact List.nodup_range'
  exact hnumbered.of_map

theorem Traces.trans (hst : Traces s t lines entered') (htu : Traces t u lines' entered'') :
    Traces s u (lines ++ lines') (entered' ++ entered'') where
  log := by rw [htu.log, hst.log, List.append_assoc]
  instructions := by rw [htu.instructions, hst.instructions, List.countP_append, Nat.add_assoc]
  calls := by rw [htu.calls, hst.calls, List.length_append, Nat.add_assoc]
  nativeCalls := by rw [htu.nativeCalls, hst.nativeCalls, List.countP_append, Nat.add_assoc]
  maxDepth := by
    rw [htu.maxDepth, hst.maxDepth, List.filterMap_append, List.map_append, List.foldl_append]
  named := by rw [List.filterMap_append, List.map_append, hst.named, htu.named]
  numbered := by
    rw [List.map_append, hst.numbered, htu.numbered, hst.calls, List.length_append,
      List.range'_append_1]

theorem Traces.of_eq (h : Traces s t lines entered') (hlog : u.log = t.log)
    (hstats : u.stats = t.stats) : Traces s u lines entered' := by
  obtain ⟨heap, calls, dispatch, stats, log⟩ := u
  obtain rfl : log = t.log := hlog
  obtain rfl : stats = t.stats := hstats
  exact ⟨h.log, h.instructions, h.calls, h.nativeCalls, h.maxDepth, h.named, h.numbered⟩

/-- What is counted and logged besides is none of the trace's business. -/
theorem traces_of_isAside (hlog : u.log.toList = s.log.toList ++ lines)
    (haside : ∀ e ∈ lines, e.isAside = true)
    (hstats : u.stats = { s.stats with allocations := u.stats.allocations }) :
    Traces s u lines [] := by
  have hexecuting : lines.countP isExecuting = 0 := List.countP_eq_zero.2 fun e he => by
    rw [isExecuting_of_isAside (haside e he)]
    exact Bool.false_ne_true
  have hcalled : lines.filterMap called? = [] :=
    List.filterMap_eq_nil_iff.2 fun e he => called?_of_isAside (haside e he)
  refine ⟨hlog, ?_, ?_, ?_, ?_, hcalled, rfl⟩
  · rw [hexecuting, hstats]
    rfl
  · rw [hstats]
    rfl
  · rw [hstats]
    rfl
  · rw [hcalled, hstats]
    rfl

/-! ### Nesting -/

/-- The innermost call is so deep. -/
def Above (depth base : Nat) (calls : OpenCalls) : Prop := calls.depth base = depth

/-- The innermost call is that of the method, and so deep. -/
def Inside (m : Method) (depth _base : Nat) (calls : OpenCalls) : Prop :=
  calls.head? = some (m.fullName, depth)

theorem Inside.above {depth base : Nat} {calls : OpenCalls} (h : Inside m depth base calls) :
    Above depth base calls := by
  rcases calls with - | ⟨⟨method, depth'⟩, calls⟩
  · cases h
  · cases h
    rfl

/-- Among the invocations in `I`, these have got their frames, and of these, those have failed, the
innermost one first.  To read the lines where calls are open as `place` says leaves the failed ones
open, and there are none unless the whole has failed. -/
structure Nests (ctx : Context) (I : Invocation → Prop) (place : Nat → OpenCalls → Prop)
    (failed : Prop) (lines : List Event) (entered opened : List Invocation) : Prop where
  mem_entered : ∀ v, v ∈ entered ↔ I v ∧ v.Enters
  mem_opened : ∀ v, v ∈ opened ↔ v ∈ entered ∧ v.Fails ctx
  reads : ∀ base calls, place base calls →
    read base calls lines = some (opened.map Invocation.entry ++ calls)
  fails : opened ≠ [] → failed

variable {I J K : Invocation → Prop} {place : Nat → OpenCalls → Prop} {failed failed' : Prop}

namespace Nests

theorem opened_eq_nil (h : Nests ctx I place failed lines entered' opened) (hfailed : ¬ failed) :
    opened = [] := by
  by_contra hne
  exact hfailed (h.fails hne)

/-- What goes on has not failed, so it leaves no call open. -/
theorem andThen (hst : Nests ctx I place False lines entered' opened)
    (htu : Nests ctx J place failed lines' entered'' opened') (hK : ∀ v, K v ↔ I v ∨ J v) :
    Nests ctx K place failed (lines ++ lines') (entered' ++ entered'') opened' := by
  obtain rfl := hst.opened_eq_nil not_false
  refine ⟨fun v => ?_, fun v => ?_, fun base calls hplace => ?_, htu.fails⟩
  · rw [List.mem_append, hst.mem_entered, htu.mem_entered, hK, or_and_right]
  · rw [List.mem_append, or_and_right, ← hst.mem_opened, ← htu.mem_opened]
    exact (or_iff_right List.not_mem_nil).symm
  · rw [read_append, hst.reads base calls hplace]
    exact htu.reads base calls hplace

theorem congr (h : Nests ctx I place failed lines entered' opened)
    (hJ : ∀ v, v.Enters → (J v ↔ I v)) : Nests ctx J place failed lines entered' opened where
  mem_entered v := (h.mem_entered v).trans (and_congr_left fun hv => (hJ v hv).symm)
  mem_opened := h.mem_opened
  reads := h.reads
  fails := h.fails

theorem imp (h : Nests ctx I place failed lines entered' opened) (hfailed : failed → failed') :
    Nests ctx I place failed' lines entered' opened where
  mem_entered := h.mem_entered
  mem_opened := h.mem_opened
  reads := h.reads
  fails hne := hfailed (h.fails hne)

theorem inside {depth : Nat} (h : Nests ctx I (Above depth) failed lines entered' opened)
    (m : Method) : Nests ctx I (Inside m depth) failed lines entered' opened where
  mem_entered := h.mem_entered
  mem_opened := h.mem_opened
  reads base calls hcalls := h.reads base calls hcalls.above
  fails := h.fails

/-- What is not of the trace's business makes no call. -/
theorem of_isAside (haside : ∀ e ∈ lines, e.isAside = true) :
    Nests ctx (fun _ => False) place False lines [] [] where
  mem_entered v := by simp
  mem_opened v := by simp
  reads base calls _ := read_of_isAside haside
  fails := absurd rfl

theorem andAside (h : Nests ctx I place failed lines entered' opened)
    (haside : ∀ e ∈ lines', e.isAside = true) :
    Nests ctx I place failed (lines ++ lines') entered' opened where
  mem_entered := h.mem_entered
  mem_opened := h.mem_opened
  reads base calls hcalls := by
    rw [read_append, h.reads base calls hcalls]
    exact read_of_isAside haside
  fails := h.fails

section Calls

variable {v : Invocation}

theorem mem_cons (h : Nests ctx I place failed lines entered' opened) (henters : v.Enters)
    (hK : ∀ w, K w ↔ w = v ∨ I w) (w : Invocation) : w ∈ v :: entered' ↔ K w ∧ w.Enters := by
  rw [List.mem_cons, h.mem_entered, hK]
  constructor
  · rintro (rfl | ⟨hw, henters'⟩)
    · exact ⟨.inl rfl, henters⟩
    · exact ⟨.inr hw, henters'⟩
  · rintro ⟨rfl | hw, henters'⟩
    · exact .inl rfl
    · exact .inr ⟨hw, henters'⟩

/-- The call of an invocation that has failed is left open, around what is open in it. -/
theorem leftOpen
    (h : Nests ctx I (Inside v.method (v.machine.calls.depth + 1)) failed lines entered' opened)
    (henters : v.Enters) (hfails : v.Fails ctx) (hK : ∀ w, K w ↔ w = v ∨ I w) :
    Nests ctx K (Above v.machine.calls.depth) True
      (.called v.method.fullName (v.machine.calls.depth + 1) :: lines) (v :: entered')
      (opened ++ [v]) := by
  refine ⟨h.mem_cons henters hK, fun w => ?_, fun base calls hcalls => ?_, fun _ => trivial⟩
  · rw [List.mem_append, h.mem_opened, List.mem_singleton, List.mem_cons]
    constructor
    · rintro (⟨hw, hfails'⟩ | rfl)
      · exact ⟨.inr hw, hfails'⟩
      · exact ⟨.inl rfl, hfails⟩
    · rintro ⟨rfl | hw, hfails'⟩
      · exact .inr rfl
      · exact .inl ⟨hw, hfails'⟩
  · rw [read_cons, follow_called (congrArg (· + 1) hcalls.symm), List.map_append, List.append_assoc]
    exact h.reads base (v.entry :: calls) rfl

/-- The call of an invocation that has returned is closed. -/
theorem closed (h : Nests ctx I (Inside v.method (v.machine.calls.depth + 1)) False lines entered'
      opened) (henters : v.Enters) (hfails : ¬ v.Fails ctx) (hK : ∀ w, K w ↔ w = v ∨ I w)
    (value : Option Value) :
    Nests ctx K (Above v.machine.calls.depth) False
      (.called v.method.fullName (v.machine.calls.depth + 1) ::
        (lines ++ [.returned v.method.fullName value])) (v :: entered') [] := by
  obtain rfl := h.opened_eq_nil not_false
  refine ⟨h.mem_cons henters hK, fun w => ?_, fun base calls hcalls => ?_, absurd rfl⟩
  · refine ⟨fun hw => absurd hw List.not_mem_nil, ?_⟩
    rintro ⟨hw, hfails'⟩
    rcases List.mem_cons.1 hw with rfl | hw
    · exact absurd hfails' hfails
    · exact (h.mem_opened w).2 ⟨hw, hfails'⟩
  · rw [read_cons, follow_called (congrArg (· + 1) hcalls.symm), Option.bind_some, read_append,
      h.reads base ((v.method.fullName, v.machine.calls.depth + 1) :: calls) rfl]
    exact read_singleton.trans (follow_returned value)

end Calls

end Nests

/-- There is an account of what has happened from the machine `s` to `u`. -/
def Traced (ctx : Context) (I : Invocation → Prop) (place : Nat → OpenCalls → Prop) (failed : Prop)
    (s u : Machine) : Prop :=
  ∃ lines entered opened, Traces s u lines entered ∧
    Nests ctx I place failed lines entered opened

namespace Traced

theorem andThen (hst : Traced ctx I place False s t) (htu : Traced ctx J place failed t u)
    (hK : ∀ v, K v ↔ I v ∨ J v) : Traced ctx K place failed s u := by
  obtain ⟨lines, entered', opened, htraces, hnests⟩ := hst
  obtain ⟨lines', entered'', opened', htraces', hnests'⟩ := htu
  exact ⟨_, _, _, htraces.trans htraces', hnests.andThen hnests' hK⟩

theorem congr (h : Traced ctx I place failed s u) (hJ : ∀ v, v.Enters → (J v ↔ I v)) :
    Traced ctx J place failed s u := by
  obtain ⟨lines, entered', opened, htraces, hnests⟩ := h
  exact ⟨lines, entered', opened, htraces, hnests.congr hJ⟩

theorem imp (h : Traced ctx I place failed s u) (hfailed : failed → failed') :
    Traced ctx I place failed' s u := by
  obtain ⟨lines, entered', opened, htraces, hnests⟩ := h
  exact ⟨lines, entered', opened, htraces, hnests.imp hfailed⟩

theorem inside {depth : Nat} (h : Traced ctx I (Above depth) failed s u) (m : Method) :
    Traced ctx I (Inside m depth) failed s u := by
  obtain ⟨lines, entered', opened, htraces, hnests⟩ := h
  exact ⟨lines, entered', opened, htraces, hnests.inside m⟩

/-- What has happened outside of invocations is all that there is, if there are none. -/
theorem outright (h : Traced ctx (fun _ => False) place False s u)
    (hI : ∀ v, v.Enters → ¬ I v) : Traced ctx I place failed s u :=
  (h.imp False.elim).congr fun v hv => iff_false_intro (hI v hv)

/-- What has failed may still be noted. -/
theorem andAside (h : Traced ctx I place failed s t) (haside : Appends (·.isAside = true) t u)
    (hstats : u.stats = t.stats) : Traced ctx I place failed s u := by
  obtain ⟨lines, entered', opened, htraces, hnests⟩ := h
  obtain ⟨lines', hlog, hlines⟩ := haside
  have hended := htraces.trans (traces_of_isAside hlog hlines (by rw [hstats]))
  rw [List.append_nil] at hended
  exact ⟨_, entered', opened, hended, hnests.andAside hlines⟩

end Traced

theorem traced_of_isAside (haside : Appends (·.isAside = true) s u)
    (hstats : u.stats = { s.stats with allocations := u.stats.allocations }) :
    Traced ctx (fun _ => False) place False s u := by
  obtain ⟨lines, hlog, hlines⟩ := haside
  exact ⟨lines, [], [], traces_of_isAside hlog hlines hstats, .of_isAside hlines⟩

theorem traced_nothing : Traced ctx (fun _ => False) place False s s :=
  traced_of_isAside (appends_of_eq rfl) rfl

theorem Moves.traced (h : Moves ctx s u) : Traced ctx (fun _ => False) place False s u :=
  traced_of_isAside (h.appends.mono fun _ ⟨_, hannounces⟩ => hannounces.isAside) h.stats_eq

/-! ### Runs -/

/-- The invocations with so many steps are accounted for. -/
def TracesInvocations (ctx : Context) (fuel : Nat) : Prop :=
  ∀ m args s r u, s.calls.entries ≤ s.calls.frames.length →
    invoke ctx fuel m args s = some (r, u) →
    Traced ctx (Invocation.Within ctx · ⟨fuel, m, args, s⟩) (Above s.calls.depth) (Failed r) s u

theorem step_traced (hfuel : TracesInvocations ctx fuel)
    (hs : s.calls.entries ≤ s.calls.frames.length) {r : Except Failure Outcome}
    (h : stepWith (invoke ctx fuel) ctx i s = some (r, u)) :
    Traced ctx (StepRuns ctx fuel i s) (Above s.calls.depth) (Failed r) s u := by
  have hmoves : Traced ctx (fun _ => False) (Above s.calls.depth) False s
      (performInstruction ctx i s).2 := (performInstruction_moves ctx i s).traced
  have hcalls := performInstruction_continues ctx i s
  rw [stepWith_apply] at h
  rcases hp : performInstruction ctx i s with ⟨e | o | c, t⟩ <;> rw [hp] at h hmoves hcalls
  · -- no call is made
    cases h
    refine hmoves.outright fun v _ => ?_
    rintro ⟨hp', -⟩
    cases hp.symm.trans hp'
  · cases h
    refine hmoves.outright fun v _ => ?_
    rintro ⟨hp', -⟩
    cases hp.symm.trans hp'
  · have hruns (v : Invocation) : StepRuns ctx fuel i s v ↔ False ∨
        v.Within ctx ⟨fuel, c.method, c.arguments, t⟩ :=
      (stepRuns_iff hp).trans (or_iff_right id).symm
    dsimp only at h hcalls
    rw [settle_call_apply] at h
    rcases hrun : invoke ctx fuel c.method c.arguments t with - | ⟨a, t'⟩ <;> rw [hrun] at h
    · cases h
    · have hinvoke := hfuel _ _ _ _ _ (hcalls.entries_le hs) hrun
      rw [hcalls.depth_eq] at hinvoke
      rcases a with e | v
      · cases h
        exact (hmoves.andThen hinvoke hruns).imp fun _ => ⟨e, rfl⟩
      · -- what comes after the call is at most the push of the created object
        have hcall := (hmoves.andThen hinvoke hruns).imp (not_failed_ok v)
        rcases hcreated : c.created with - | q <;> simp only [hcreated] at h
        · cases h
          exact hcall.imp False.elim
        · have hmove : Moves ctx t' (push (.object q) t').2 := moving_push (.object q) t'
          have hpushed := hcall.andThen hmove.traced fun v => (or_iff_left id).symm
          rcases hv : push (.object q) t' with ⟨e | ⟨⟩, t''⟩ <;> rw [hv] at h hpushed <;> cases h
          · exact hpushed.imp False.elim
          · exact hpushed.imp False.elim

/-- An instruction that is begun is named after the method whose body it is in. -/
theorem begun_traced (hctx : ctx.tracing.instructions = true) (m : Method) (i : Instruction)
    (s : Machine) (f : Frame) (depth : Nat) :
    Traced ctx (fun _ => False) (Inside m depth) False s (begun ctx m i s f) := by
  refine ⟨[.executing m.fullName i.offset i.mnemonic f.stack.length], [], [],
    ⟨?_, rfl, rfl, rfl, rfl, rfl, rfl⟩, by simp, by simp, ?_, absurd rfl⟩
  · rw [begun, if_pos hctx, Array.toList_push]
  · intro base calls hcalls
    exact read_singleton.trans (follow_executing hcalls _ _ _)

theorem body_traced (hfuel : TracesInvocations ctx fuel) (hctx : ctx.tracing.instructions = true)
    {body : Body} {index : Nat} {f : Frame} {F : List Frame} {r : Except Failure Unit}
    (hs : s.calls.entries ≤ s.calls.frames.length) (hframes : s.calls.frames = f :: F)
    (h : runBody ctx (stepWith (invoke ctx fuel) ctx) m body n index s = some (r, u)) :
    Traced ctx (BodyRuns ctx fuel m body n index s) (Inside m s.calls.depth) (Failed r) s u := by
  -- as long as the body goes on, nothing in it has failed, so no call is open up to there
  induction n generalizing index s f with
  | zero => cases h
  | succ n ih =>
      rcases hget : body.get? index with - | i
      · rw [runBody_of_end hget] at h
        cases h
        exact traced_nothing.outright fun v _ => not_bodyRuns_of_end hget
      have hbegin := beginInstruction_apply hframes ctx m i
      rw [runBody_of_get hget hbegin] at h
      rcases hstep : stepWith (invoke ctx fuel) ctx i (begun ctx m i s f) with
        - | ⟨a, t⟩ <;> rw [hstep] at h
      · cases h
      have hinstruction := step_traced (s := begun ctx m i s f) hfuel hs hstep
      have hfirst : Traced ctx (StepRuns ctx fuel i (begun ctx m i s f)) (Inside m s.calls.depth)
          (Failed a) s t :=
        (begun_traced hctx m i s f s.calls.depth).andThen (hinstruction.inside m)
          fun v => (or_iff_right id).symm
      rcases a with e | o
      · -- the body stops where an instruction fails
        cases h
        refine (hfirst.imp fun _ => ⟨_, rfl⟩).congr fun v _ => ?_
        refine bodyRuns_iff_of_stop hget hbegin fun o t' j hstep' => ?_
        cases hstep.symm.trans hstep'
      replace hfirst := hfirst.imp (not_failed_ok o)
      have hstops (hne : ∀ j, onward body index o ≠ .ok (some j)) :
          Traced ctx (BodyRuns ctx fuel m body (n + 1) index s) (Inside m s.calls.depth)
            (Failed r) s t := by
        refine (hfirst.imp False.elim).congr fun v _ => ?_
        refine bodyRuns_iff_of_stop hget hbegin fun o' t' j hstep' => ?_
        cases hstep.symm.trans hstep'
        exact hne j
      dsimp only at h
      rcases honward : onward body index o with e | - | j <;> simp only [honward] at h
      · cases h
        exact hstops fun j hj => by cases honward.symm.trans hj
      · cases h
        exact hstops fun j hj => by cases honward.symm.trans hj
      · -- it goes on at the position `j`
        have hcalls : s.calls.Continues t.calls :=
          stepWith_continues (s := begun ctx m i s f) (invoke_calls ctx fuel) hstep
        obtain ⟨g, ht, -⟩ := hcalls.exists_cons hframes
        have hrest := ih (hcalls.entries_le hs) ht h
        rw [hcalls.depth_eq] at hrest
        exact hfirst.andThen hrest fun v => bodyRuns_iff_of_onward hget hbegin hstep honward

section Invocations

variable {calls : CallStack}

/-- A frame that is pushed is counted and logged, and so is a native routine that is run in it. -/
theorem entered_traces (hctx : ctx.tracing.calls = true)
    (hs : s.calls.entries ≤ s.calls.frames.length) (hpush : s.calls.push m args = .ok calls)
    (hlog : u.log = (entered ctx m calls s).log)
    (hstats : u.stats = { (entered ctx m calls s).stats with
      nativeCalls := s.stats.nativeCalls + if m.isNative then 1 else 0
      allocations := u.stats.allocations }) :
    Traces s u [.called m.fullName (s.calls.depth + 1)] [⟨fuel, m, args, s⟩] := by
  have hdepth := CallStack.depth_push hs hpush
  refine ⟨?_, ?_, ?_, ?_, ?_, rfl, rfl⟩
  · rw [hlog, entered, if_pos hctx, Array.toList_push, hdepth]
  · rw [hstats]
    rfl
  · rw [hstats]
    rfl
  · rw [hstats]
    cases hm : m.isNative <;> simp [hm]
  · rw [hstats, entered, hdepth]
    rfl

/-- The account of a method that has been entered: the line for its call comes first. -/
theorem method_traced (hfuel : TracesInvocations ctx fuel) (hcalls : ctx.tracing.calls = true)
    (hinstructions : ctx.tracing.instructions = true)
    (hs : s.calls.entries ≤ s.calls.frames.length) (hpush : s.calls.push m args = .ok calls)
    {r : Except Failure Unit}
    (h : runMethod ctx (invoke ctx fuel) fuel m (entered ctx m calls s) = some (r, u)) :
    ∃ I lines entered' opened,
      (∀ v, Invocation.Within ctx v ⟨fuel + 1, m, args, s⟩ ↔ v = ⟨fuel + 1, m, args, s⟩ ∨ I v) ∧
      Traces s u (.called m.fullName (s.calls.depth + 1) :: lines)
        (⟨fuel + 1, m, args, s⟩ :: entered') ∧
      Nests ctx I (Inside m (s.calls.depth + 1)) (Failed r) lines entered' opened := by
  have hdepth := CallStack.depth_push hs hpush
  -- what has no code makes no calls
  have houtright (hm : ∀ body, m.body ≠ .interpreted body) (v : Invocation) :
      v.Within ctx ⟨fuel + 1, m, args, s⟩ ↔ v = ⟨fuel + 1, m, args, s⟩ ∨ False :=
    (Invocation.within_iff_of_not_interpreted hm).trans (or_iff_left id).symm
  have hsilent : Nests ctx (fun _ => False) (Inside m (s.calls.depth + 1)) (Failed r) [] [] [] :=
    (Nests.of_isAside (List.forall_mem_nil _)).imp False.elim
  rcases hm : m.body with body | routine | -
  · rw [runMethod_interpreted hm] at h
    obtain ⟨f, hframes⟩ := frames_entered hpush ctx
    have hentered : Traces s (entered ctx m calls s) _ [⟨fuel + 1, m, args, s⟩] :=
      entered_traces hcalls hs hpush rfl (by simp [entered, countCall, Method.isNative, hm])
    have hbody := body_traced hfuel hinstructions (CallStack.entries_le_push hs hpush) hframes h
    rw [show (entered ctx m calls s).calls.depth = _ from hdepth] at hbody
    obtain ⟨lines, entered', opened, htraces, hnests⟩ := hbody
    exact ⟨_, lines, entered', opened,
      fun v => Invocation.within_iff_of_interpreted hpush hm, hentered.trans htraces, hnests⟩
  · rw [runMethod_native hm, runNative_entered hpush] at h
    cases h
    refine ⟨_, [], [], [], houtright fun _ hbody => (by cases hm.symm.trans hbody),
      entered_traces hcalls hs hpush rfl ?_, hsilent⟩
    simp [afterNative, entered, countCall, Method.isNative, hm]
  · rw [runMethod_abstract hm] at h
    cases h
    refine ⟨_, [], [], [], houtright fun _ hbody => (by cases hm.symm.trans hbody),
      entered_traces hcalls hs hpush rfl ?_, hsilent⟩
    simp [entered, countCall, Method.isNative, hm]

theorem returned_traces (hctx : ctx.tracing.calls = true) (m : Method) (c : CallStack)
    (v : Option Value) (t : Machine) :
    Traces t (left ctx m c (.ok v) t) [.returned m.fullName v] [] := by
  refine ⟨?_, rfl, rfl, rfl, rfl, rfl, rfl⟩
  rw [left]
  dsimp only
  rw [if_pos hctx, Array.toList_push]

/-- **The trace accounts for invocations**, and for all that are made while they run. -/
theorem invoke_traced (hcalls : ctx.tracing.calls = true)
    (hinstructions : ctx.tracing.instructions = true) (fuel : Nat) :
    TracesInvocations ctx fuel := by
  -- the invocations that a method makes have less fuel than its own
  induction fuel with
  | zero =>
      intro m args s r u _ h
      cases h
  | succ fuel ih =>
      intro m args s r u hs h
      cases ends_of_invoke h with
      | refused hpush =>
          -- nothing has happened, and nothing is logged
          refine traced_nothing.outright fun v hv => ?_
          rw [Invocation.within_iff_of_not_executes]
          · rintro rfl
            obtain ⟨_, hpush'⟩ := hv
            cases hpush.symm.trans hpush'
          · rintro i u ⟨hpush', -, -⟩
            cases hpush.symm.trans hpush'
      | failed hpush hrun =>
          obtain ⟨I, lines, entered', opened, hI, htraces, hnests⟩ :=
            method_traced ih hcalls hinstructions hs hpush hrun
          have hfails : Invocation.Fails ctx ⟨fuel + 1, m, args, s⟩ := ⟨_, _, h⟩
          exact ⟨_, _, _, htraces.of_eq rfl rfl,
            (hnests.leftOpen ⟨_, hpush⟩ hfails hI).imp fun _ => ⟨_, rfl⟩⟩
      | @ended calls t _ _ hpush hrun hfinish =>
          obtain ⟨I, lines, entered', opened, hI, htraces, hnests⟩ :=
            method_traced ih hcalls hinstructions hs hpush hrun
          have ht := runMethod_continues_entered (invoke_calls ctx fuel) hpush hrun
          obtain ⟨f, -, hf⟩ := finish_of_push hpush ht ctx
          rw [hf] at hfinish
          rcases hreturned : CallStack.returned m f.stack with e | v <;>
            rw [hreturned] at hfinish <;> cases hfinish
          · -- the frame does not hold what the method returns, so the call is not closed
            have hfails : Invocation.Fails ctx ⟨fuel + 1, m, args, s⟩ := ⟨_, _, h⟩
            exact ⟨_, _, _, htraces.of_eq rfl rfl,
              (hnests.leftOpen ⟨_, hpush⟩ hfails hI).imp fun _ => ⟨_, rfl⟩⟩
          · have hreturns : ¬ Invocation.Fails ctx ⟨fuel + 1, m, args, s⟩ := by
              rintro ⟨e, u', h'⟩
              cases h.symm.trans h'
            have hended := htraces.trans (returned_traces hcalls m s.calls v t)
            rw [List.append_nil] at hended
            have hclosed := (hnests.imp (not_failed_ok ())).closed ⟨_, hpush⟩ hreturns hI v
            exact ⟨_, _, _, hended, hclosed.imp False.elim⟩

theorem construct_traced (hcalls : ctx.tracing.calls = true)
    (hinstructions : ctx.tracing.instructions = true)
    (hs : s.calls.entries ≤ s.calls.frames.length) {ctor : MethodRef} {r : Except Failure Handle}
    (h : construct ctx fuel ctor args s = some (r, u)) :
    Traced ctx (ConstructionRuns ctx fuel ctor args s) (Above s.calls.depth) (Failed r) s u := by
  have hmoves : Traced ctx (fun _ => False) (Above s.calls.depth) False s
      (prepareConstruction ctx ctor args s).2 := (prepareConstruction_moves ctx ctor args s).traced
  have hframes := prepareConstruction_calls ctx ctor args s
  rw [construct_apply] at h
  rcases hp : prepareConstruction ctx ctor args s with ⟨e | ⟨q, c⟩, t⟩ <;>
    rw [hp] at h hmoves hframes
  · cases h
    refine hmoves.outright fun v _ => ?_
    rintro ⟨hp', -⟩
    cases hp.symm.trans hp'
  · obtain ⟨⟨a, u'⟩, hrun, heq⟩ := Option.map_eq_some_iff.1 h
    cases heq
    have hentries : t.calls.entries ≤ t.calls.frames.length := by rwa [hframes]
    have hinvoke := invoke_traced hcalls hinstructions fuel _ _ _ _ _ hentries hrun
    rw [hframes] at hinvoke
    have hruns (v : Invocation) : ConstructionRuns ctx fuel ctor args s v ↔ False ∨
        v.Within ctx ⟨fuel, c.method, c.arguments, t⟩ :=
      (constructionRuns_iff hp).trans (or_iff_right id).symm
    refine (hmoves.andThen hinvoke hruns).imp ?_
    rintro ⟨e, rfl⟩
    exact ⟨e, rfl⟩

end Invocations

end Machine

/-! ### Operations of the host -/

namespace Host

open Machine Event

variable {α : Type} {ctx : Context} {fuel : Nat} {ref ctor : MethodRef} {args : List Value}
  {s t u : Machine} {I : Invocation → Prop}

/-- The lines that have been logged from the machine `s` to `u` are a faithful account of it: of the
invocations in `I`, these have got their frames, in the order in which they did; and of these, those
have failed, the innermost one first. -/
structure Recounts (ctx : Context) (I : Invocation → Prop) (failed : Prop) (s u : Machine)
    (lines : List Event) (entered opened : List Invocation) : Prop where
  log : u.log.toList = s.log.toList ++ lines
  /-- The counters grow by what the lines tell. -/
  instructions : u.stats.instructions = s.stats.instructions + lines.countP isExecuting
  calls : u.stats.calls = s.stats.calls + (lines.filterMap called?).length
  nativeCalls : u.stats.nativeCalls =
    s.stats.nativeCalls + entered.countP fun v => v.method.isNative
  maxDepth : u.stats.maxDepth = ((lines.filterMap called?).map Prod.snd).foldl max s.stats.maxDepth
  /-- There is one line for each invocation that has got its frame. -/
  named : lines.filterMap called? = entered.map Invocation.entry
  nodup : entered.Nodup
  mem_entered : ∀ v, v ∈ entered ↔ I v ∧ v.Enters
  /-- Instructions are those of the innermost open call, and the calls that are left open are those
  of the failed invocations. -/
  reads : read s.calls.depth [] lines = some (opened.map Invocation.entry)
  mem_opened : ∀ v, v ∈ opened ↔ v ∈ entered ∧ v.Fails ctx
  /-- All others have returned, with one line each. -/
  returned : lines.countP isReturned + opened.length = entered.length
  wellNested : ¬ failed → WellNested s.calls.depth lines

theorem recounts_of_traced {failed : Prop} (h : Traced ctx I (Above s.calls.depth) failed s u) :
    ∃ lines entered opened, Recounts ctx I failed s u lines entered opened := by
  obtain ⟨lines, entered, opened, htraces, hnests⟩ := h
  have hread := hnests.reads s.calls.depth [] rfl
  rw [List.append_nil] at hread
  have hlength := length_of_read hread
  rw [htraces.named, List.length_map, List.length_map] at hlength
  refine ⟨lines, entered, opened, htraces.log, htraces.instructions, ?_, htraces.nativeCalls,
    htraces.maxDepth, htraces.named, htraces.nodup, hnests.mem_entered, hread, hnests.mem_opened,
    ?_, fun hfailed => wellNested_of_read ?_⟩
  · rw [htraces.calls, htraces.named, List.length_map]
  · rw [List.length_nil] at hlength
    omega
  · rw [hread, hnests.opened_eq_nil hfailed]
    rfl

/-- An entry frame is not traced. -/
theorem traced_atEntry {place : Nat → OpenCalls → Prop} (s : Machine) :
    Traced ctx (fun _ => False) place False s (atEntry s) := by
  unfold atEntry
  split
  · exact traced_nothing.andAside (appends_of_eq rfl) rfl
  · exact traced_nothing

theorem entries_le_atEntry (hs : s.calls.WellFormed) :
    (atEntry s).calls.entries ≤ (atEntry s).calls.frames.length := by
  unfold atEntry
  split
  · exact hs.pushEntry.entries_le
  · exact hs.entries_le

theorem invoke_traced (hcalls : ctx.tracing.calls = true)
    (hinstructions : ctx.tracing.instructions = true) (hs : s.calls.WellFormed)
    {r : Except Failure (Option Value)} (h : Host.invoke ctx fuel ref args s = some (r, u)) :
    Traced ctx (InvocationRuns ctx fuel ref args s) (Above s.calls.depth) (Failed r) s u := by
  rcases invoke_eq_some h with ⟨rfl, -, hrefused⟩ | ⟨m, t, hm, hargs, hrun, rfl⟩
  · refine traced_nothing.outright fun v _ => ?_
    rintro ⟨hm, hargs, -⟩
    exact hrefused _ hm hargs
  · have hinvoke := Machine.invoke_traced hcalls hinstructions fuel m args _ r t
      (entries_le_atEntry hs) hrun
    rw [(restored_atEntry s).depth_eq] at hinvoke
    refine ((traced_atEntry s).andThen hinvoke fun v => ?_).andAside
      (appends_noted (fun _ => rfl) rfl) rfl
    rw [false_or]
    refine ⟨?_, .intro hm hargs⟩
    rintro ⟨hm', -, hv⟩
    cases hm.symm.trans hm'
    exact hv

theorem construct_traced (hcalls : ctx.tracing.calls = true)
    (hinstructions : ctx.tracing.instructions = true) (hs : s.calls.WellFormed)
    {r : Except Failure Handle} (h : Host.construct ctx fuel ctor args s = some (r, u)) :
    Traced ctx (ConstructionRuns ctx fuel ctor args (atEntry s)) (Above s.calls.depth) (Failed r)
      s u := by
  obtain ⟨t, hrun, rfl⟩ := construct_eq_some h
  have hconstruct := Machine.construct_traced hcalls hinstructions (entries_le_atEntry hs) hrun
  rw [(restored_atEntry s).depth_eq] at hconstruct
  exact ((traced_atEntry s).andThen hconstruct fun v => (or_iff_right id).symm).andAside
    (appends_noted (fun _ => rfl) rfl) rfl

/-- **The trace is a faithful account of the run.**  With calls and instructions traced, the lines
of an invocation or a construction tell what has been counted, and by which invocations: each one
that has got its frame has a line for its call, and each one that has returned has another for that.
Instructions are those of the innermost open call, and what is left open are the calls of the
invocations that have failed; if the operation succeeds, then the lines are well nested. -/
theorem operations_traced (hcalls : ctx.tracing.calls = true)
    (hinstructions : ctx.tracing.instructions = true) (hs : s.calls.WellFormed) :
    (∀ fuel ref args r u, Host.invoke ctx fuel ref args s = some (r, u) →
      ∃ lines entered opened,
        Recounts ctx (InvocationRuns ctx fuel ref args s) (Failed r) s u lines entered opened) ∧
    ∀ fuel ctor args r u, Host.construct ctx fuel ctor args s = some (r, u) →
      ∃ lines entered opened,
        Recounts ctx (ConstructionRuns ctx fuel ctor args (atEntry s)) (Failed r) s u lines entered
          opened :=
  ⟨fun _ _ _ _ _ h => recounts_of_traced (invoke_traced hcalls hinstructions hs h),
    fun _ _ _ _ _ h => recounts_of_traced (construct_traced hcalls hinstructions hs h)⟩

/-- An invocation that fails in a method that it calls, once a constructor has returned; and then a
construction, which succeeds. -/
theorem operations_traced_fail :
    ∃ e u lines entered opened,
      Host.invoke Sample.traced 9 Sample.fail.ref [] (ofConfig {}) = some (.error e, u) ∧
      Recounts Sample.traced (InvocationRuns Sample.traced 9 Sample.fail.ref [] (ofConfig {}))
        (Failed (.error e : Except Failure (Option Value))) (ofConfig {}) u lines entered opened ∧
      opened.map Invocation.entry = [("Sample::Divide", 2), ("Sample::Fail", 1)] ∧
      ∃ q v lines', Host.construct Sample.traced 9 Sample.ctor.ref [] u = some (.ok q, v) ∧
        v.log.toList = u.log.toList ++ lines' ∧ WellNested 0 lines' := by
  have hrun : (do
      let (r, u) ← Host.invoke Sample.traced 9 Sample.fail.ref [] (ofConfig {})
      let (q, _) ← Host.construct Sample.traced 9 Sample.ctor.ref [] u
      return (r.isOk, q.isOk, read 0 [] u.log.toList)) =
      some (false, true, some [("Sample::Divide", 2), ("Sample::Fail", 1)]) := by
    decide +kernel
  obtain ⟨⟨e | x, u⟩, hu, hrun⟩ := Option.bind_eq_some_iff.1 hrun
  · obtain ⟨⟨e' | q, v⟩, hv, hrun⟩ := Option.bind_eq_some_iff.1 hrun
    · cases hrun
    · have hcalls : Sample.traced.tracing.calls = true := rfl
      have hinstructions : Sample.traced.tracing.instructions = true := rfl
      have hreached : Reached Sample.traced (ofConfig {}) := .start {}
      obtain ⟨hinvoke, -⟩ := operations_traced hcalls hinstructions hreached.wellFormed
      obtain ⟨-, hconstruct⟩ :=
        operations_traced hcalls hinstructions (hreached.invoke hu).wellFormed
      obtain ⟨lines, entered, opened, hrecounts⟩ := hinvoke _ _ _ _ _ hu
      obtain ⟨lines', _, _, hrecounts'⟩ := hconstruct _ _ _ _ _ hv
      have hlines : u.log.toList = lines := hrecounts.log
      have hread : some (opened.map Invocation.entry) =
          some [("Sample::Divide", 2), ("Sample::Fail", 1)] := by
        refine hrecounts.reads.symm.trans ?_
        rw [← hlines]
        exact congrArg (fun p => p.2.2) (Option.some.inj hrun)
      have hdepth : u.calls.depth = 0 := (invoke_restores hu).depth_eq
      have hnested := hrecounts'.wellNested (not_failed_ok q)
      rw [hdepth] at hnested
      exact ⟨e, u, lines, entered, opened, hu, hrecounts, Option.some.inj hread, q, v, lines', hv,
        hrecounts'.log, hnested⟩
  · obtain ⟨_, -, hrun⟩ := Option.bind_eq_some_iff.1 hrun
    cases hrun

end Host

end CilMachine
