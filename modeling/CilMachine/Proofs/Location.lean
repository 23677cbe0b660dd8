/-
CilMachine/Proofs/Location.lean

Where errors are said to arise.  An execution error is located at most once, and at the innermost
instruction that was being executed (`invoke_located`).  What no instruction of an invocation fails
with leaves the invocation without a location (`FailsOutright`); the instruction that made the
invocation, if there is one, then locates it (`Raises`).
-/
import CilMachine.Proofs.Simulation

namespace CilMachine

open Correspondence

/-! ### Located errors -/

/-- A located failure wraps an error that is not located. -/
def Failure.LocatedOnce (f : Failure) : Prop :=
  ∀ site source, f = .execution (.fault site source) → source.isLocated = false

theorem Failure.Unlocated.locatedOnce {f : Failure} (h : f.Unlocated) : f.LocatedOnce := by
  rintro site source rfl
  cases h _ rfl

theorem Failure.LocatedOnce.locate {f : Failure} (h : f.LocatedOnce) (site : Site) :
    (f.locate site).LocatedOnce := by
  cases f with
  | malformed => rintro _ _ ⟨⟩
  | unsupported => rintro _ _ ⟨⟩
  | execution e =>
      intro site' source hfault
      cases he : e.isLocated <;> simp only [Failure.locate, he] at hfault
      · cases hfault
        exact he
      · exact h site' source hfault

/-- A failure that has been located was located before, or is located now. -/
theorem Failure.locate_eq_execution {f : Failure} {site : Site} {e : ExecError}
    (h : f.locate site = .execution e) :
    (f = .execution e ∧ e.isLocated = true) ∨
      ∃ cause, f = .execution cause ∧ cause.isLocated = false ∧ e = .fault site cause := by
  cases f with
  | malformed => cases h
  | unsupported => cases h
  | execution cause =>
      cases hcause : cause.isLocated <;> simp only [Failure.locate, hcause] at h <;> cases h
      · exact .inr ⟨cause, rfl, hcause, rfl⟩
      · exact .inl ⟨rfl, hcause⟩

/-- The routine never says where it failed. -/
def Native.NeverLocates (headers : Headers) (routine : Native) : Prop :=
  ∀ args h, Only Failure.Unlocated ((routine.run headers args).run.run h).1

/-- If the method is native, its routine never says where it failed. -/
def Method.NeverLocates (c : Catalog) (m : Method) : Prop := m.Runs (Native.NeverLocates c.headers)

namespace Machine

variable {ctx : Context} {fuel : Nat} {m : Method} {args : List Value} {i : Instruction}
  {s s' u : Machine} {e : ExecError}

/-- The machine, if all methods that it can find never locate their failures, goes on to find such
methods only; and its failures are located once. -/
abbrev locating (c : Catalog) : Correspondence Unit :=
  itself (Method.NeverLocates c) Failure.LocatedOnce

theorem locating_lawful (hc : ∀ m, ctx.catalog.Declares m → m.NeverLocates ctx.catalog) :
    (locating ctx.catalog).LawfulRuns ctx ctx (fun _ => False) fun _ => True := by
  refine lawfulRuns_of_sameShape (itself_lawful hc fun _ => Failure.Unlocated.locatedOnce) rfl
    (fun _ site h => h.locate site) fun hm hbody => ?_
  exact sameHeap_routine fun args h e he =>
    Failure.Unlocated.locatedOnce (hm _ hbody args h e he)

theorem invoke_locatedOnce (hc : ∀ m, ctx.catalog.Declares m → m.NeverLocates ctx.catalog)
    (hs : s.dispatch.Keeps (Method.NeverLocates ctx.catalog)) (hm : m.NeverLocates ctx.catalog)
    {f : Failure} (h : invoke ctx fuel m args s = some (.error f, s')) : f.LocatedOnce := by
  have hst := (itself_machines Failure.LocatedOnce hs).outside
  obtain ⟨_, _, _, -, -, -, hrq⟩ :=
    (invoke_follows (locating_lawful hc) trivial hm (valuesRel_eq args) hst).ends h
  exact hrq.only f rfl

/-! ### What is not located inside an invocation -/

/-- The invocation fails with the error, but no instruction does that it executes: its frame is
refused, it is the failure of a native routine or of an abstract method, or its frame does not hold
what the method returns. -/
inductive Invocation.FailsOutright (ctx : Context) : Invocation → ExecError → Prop
  | refused {v : Invocation} {e : ExecError} :
      v.machine.calls.push v.method v.arguments = .error e → FailsOutright ctx v e
  | native {v : Invocation} {calls : CallStack} {routine : Native} {e : ExecError} :
      v.machine.calls.push v.method v.arguments = .ok calls → v.method.body = .native routine →
      (runNative ctx routine (entered ctx v.method calls v.machine)).1 = .error (.execution e) →
      FailsOutright ctx v e
  | abstract {v : Invocation} : v.method.body = .abstract →
      FailsOutright ctx v (.unresolved (.body v.method.ref))
  | inconsistent {v : Invocation} {u : Machine} {how : ReturnFault} : v.Completes ctx u →
      FailsOutright ctx v (.inconsistentReturn v.method.fullName how)

/-- The instruction, which the invocation executes in the machine `u`, raises the error: it fails
itself, it jumps to where there is no instruction, or it makes an invocation that fails outright. -/
inductive Invocation.Raises (ctx : Context) : Invocation → Instruction → Machine → ExecError → Prop
  | own {v : Invocation} {i : Instruction} {u : Machine} {e : ExecError} :
      (performInstruction ctx i u).1 = .error (.execution e) → Raises ctx v i u e
  | target {v : Invocation} {i : Instruction} {u : Machine} {body : Body} {offset : Nat} :
      (performInstruction ctx i u).1 = .ok (.outcome (.jump offset)) →
      v.method.body = .interpreted body → body.indexOf? offset = none →
      Raises ctx v i u (.invalidBranchTarget offset)
  | callee {v v' : Invocation} {i : Instruction} {u : Machine} {e : ExecError} :
      MakesAt ctx i u v v' → v'.FailsOutright ctx e → Raises ctx v i u e

open Invocation

/-- A method that has come to its end fails with an inconsistent return, if at all. -/
theorem inconsistentReturn_of_finish {calls : CallStack} {f : Failure}
    (hpush : s.calls.push m args = .ok calls)
    (hrun : runMethod ctx (invoke ctx fuel) fuel m (entered ctx m calls s) = some (.ok (), u))
    (h : finish ctx m u = (.error f, s')) :
    ∃ how, f = .execution (.inconsistentReturn m.fullName how) := by
  have hu := runMethod_continues_entered (invoke_calls ctx fuel) hpush hrun
  obtain ⟨g, -, hfinish⟩ := finish_of_push hpush hu ctx
  rw [hfinish] at h
  rcases CallStack.returned_spec m g.stack with ⟨-, hok, -⟩ | ⟨-, how, herror⟩
  · rw [hok] at h
    cases h
  · rw [herror] at h
    cases h
    exact ⟨how, rfl⟩

theorem runNative_unlocated {f : Frame} {F : List Frame} {routine : Native}
    (hroutine : routine.NeverLocates ctx.catalog.headers) (hs : s.calls.frames = f :: F) :
    Only Failure.Unlocated (runNative ctx routine s).1 := by
  intro failure h
  rw [runNative_apply hs] at h
  have honly := hroutine f.arguments s.heap
  generalize (routine.run ctx.catalog.headers f.arguments).run.run s.heap = x at h honly
  obtain ⟨e | v, k⟩ := x
  · cases h
    exact honly _ rfl
  · cases h

/-! ### Instructions that fail -/

/-- Where a body fails: at an instruction that it gets to, which fails or jumps to where there is
none. -/
theorem runBody_eq_error {step : Instruction → Run Outcome} {body : Body}
    (hcontinues : ∀ i s r s', step i s = some (r, s') → s.calls.Continues s'.calls) {f : Frame}
    {F : List Frame} {index : Nat} {failure : Failure} (hs : s.calls.frames = f :: F)
    (h : runBody ctx step m body fuel index s = some (.error failure, s')) :
    ∃ i u, Visits ctx step m body fuel index s i u ∧ ∃ cause,
      failure = cause.locate (site m i) ∧
        ((∃ v, step i u = some (.error cause, v)) ∨
          ∃ offset v, step i u = some (.ok (.jump offset), v) ∧ body.indexOf? offset = none ∧
            cause = .execution (.invalidBranchTarget offset)) := by
  induction fuel generalizing index s f with
  | zero => cases h
  | succ fuel ih =>
      rcases hget : body.get? index with - | i
      · rw [runBody_of_end hget] at h
        cases h
      · have hbegin := beginInstruction_apply hs ctx m i
        rw [runBody_of_get hget hbegin] at h
        rcases hi : step i (begun ctx m i s f) with - | ⟨e | o, v⟩ <;> rw [hi] at h
        · cases h
        · cases h
          exact ⟨i, _, .here hget hbegin, e, rfl, .inl ⟨_, hi⟩⟩
        · rcases ho : onward body index o with e | - | j <;> simp only [ho] at h
          · cases h
            obtain ⟨offset, rfl, hoffset, rfl⟩ := onward_eq_error ho
            exact ⟨i, _, .here hget hbegin, _, rfl, .inr ⟨offset, _, hi, hoffset, rfl⟩⟩
          · cases h
          · obtain ⟨g, hg, -⟩ := (hcontinues i (begun ctx m i s f) _ _ hi).exists_cons hs
            obtain ⟨i', u, hvisits, hcause⟩ := ih hg h
            exact ⟨i', u, .onward hget hbegin hi ho hvisits, hcause⟩

/-- An instruction fails itself, or the invocation does that it makes. -/
theorem stepWith_eq_error {f : Frame} {F : List Frame} {failure : Failure}
    (hs : s.calls.frames = f :: F)
    (h : stepWith (invoke ctx fuel) ctx i s = some (.error failure, s')) :
    (performInstruction ctx i s).1 = .error failure ∨
      ∃ c u u', performInstruction ctx i s = (.ok (.call c), u) ∧
        invoke ctx fuel c.method c.arguments u = some (.error failure, u') := by
  have hcontinues := performInstruction_continues ctx i s
  rw [stepWith_apply] at h
  rcases hp : performInstruction ctx i s with ⟨e | o | c, u⟩ <;> rw [hp] at h hcontinues
  · cases h
    exact .inl rfl
  · cases h
  · dsimp only at h hcontinues
    rw [settle_call_apply] at h
    rcases hrun : invoke ctx fuel c.method c.arguments u with - | ⟨e | v, u'⟩ <;> rw [hrun] at h
    · cases h
    · -- a failing call is the failure of the invocation that it makes
      cases h
      exact .inr ⟨c, u, _, rfl, hrun⟩
    · dsimp only at h
      rcases hcreated : c.created with - | r <;> rw [hcreated] at h
      · cases h
      · -- the frame that the object is pushed on is still there
        have hu' : s.calls.Continues u'.calls := by
          rw [invoke_calls ctx fuel _ _ _ _ _ hrun]
          exact hcontinues.trans (.afterCall _ _)
        obtain ⟨g, hg, -⟩ := hu'.exists_cons hs
        dsimp only at h
        rw [push_apply hg] at h
        cases h

theorem performInstruction_of_jump {offset : Nat}
    (h : stepWith (invoke ctx fuel) ctx i s = some (.ok (.jump offset), s')) :
    (performInstruction ctx i s).1 = .ok (.outcome (.jump offset)) := by
  rw [stepWith_apply] at h
  rcases hp : performInstruction ctx i s with ⟨e | o | c, u⟩ <;> rw [hp] at h
  · cases h
  · cases h
    rfl
  · dsimp only at h
    rw [settle_call_apply] at h
    rcases hrun : invoke ctx fuel c.method c.arguments u with - | ⟨e | v, u'⟩ <;> rw [hrun] at h
    · cases h
    · cases h
    · dsimp only at h
      rcases hcreated : c.created with - | r <;> rw [hcreated] at h
      · cases h
      · dsimp only at h
        rcases hpush : push (.object r) u' with ⟨e | ⟨⟩, v'⟩ <;> rw [hpush] at h <;> cases h

/-! ### Invocations that fail -/

/-- Where an interpreted method fails: at an instruction that it executes. -/
theorem executes_of_failed {calls : CallStack} {body : Body} {failure : Failure}
    (hpush : s.calls.push m args = .ok calls) (hbody : m.body = .interpreted body)
    (h : runMethod ctx (invoke ctx fuel) fuel m (entered ctx m calls s) =
      some (.error failure, s')) :
    ∃ i u, Executes ctx ⟨fuel + 1, m, args, s⟩ i u ∧ ∃ cause,
      failure = cause.locate (site m i) ∧
        ((∃ v, stepWith (invoke ctx fuel) ctx i u = some (.error cause, v)) ∨
          ∃ offset v, stepWith (invoke ctx fuel) ctx i u = some (.ok (.jump offset), v) ∧
            body.indexOf? offset = none ∧ cause = .execution (.invalidBranchTarget offset)) := by
  obtain ⟨f, hf⟩ := frames_entered hpush ctx
  rw [runMethod_interpreted hbody] at h
  obtain ⟨i, u, hvisits, hcause⟩ :=
    runBody_eq_error (fun i s r s' => stepWith_continues (invoke_calls ctx fuel)) hf h
  exact ⟨i, u, .intro hpush hbody hvisits, hcause⟩

/-- An error without a location comes from no instruction of the invocation. -/
theorem failsOutright_of_unlocated (h : invoke ctx fuel m args s = some (.error (.execution e), s'))
    (he : e.isLocated = false) : FailsOutright ctx ⟨fuel, m, args, s⟩ e := by
  rcases fuel with - | fuel
  · cases h
  · cases ends_of_invoke h with
    | refused hpush => exact .refused hpush
    | ended hpush hrun hfinish =>
        obtain ⟨how, hhow⟩ := inconsistentReturn_of_finish hpush hrun hfinish
        cases hhow
        exact .inconsistent (.intro hpush hrun)
    | @failed calls _ u hpush hrun =>
        rcases hbody : m.body with body | routine | -
        · obtain ⟨i, u, -, cause, hcause, -⟩ := executes_of_failed hpush hbody hrun
          rcases Failure.locate_eq_execution hcause.symm with ⟨-, hlocated⟩ | ⟨source, -, -, rfl⟩
          · rw [he] at hlocated
            cases hlocated
          · cases he
        · rw [runMethod_native hbody] at hrun
          refine .native hpush hbody ?_
          rw [Option.some.inj hrun]
        · rw [runMethod_abstract hbody] at hrun
          cases hrun
          exact .abstract hbody

/-- The machine that an instruction is executed in still finds only methods that never locate their
failures. -/
theorem executes_keeps (hc : ∀ m, ctx.catalog.Declares m → m.NeverLocates ctx.catalog)
    (hs : s.dispatch.Keeps (Method.NeverLocates ctx.catalog)) (hm : m.NeverLocates ctx.catalog)
    (h : Executes ctx ⟨fuel, m, args, s⟩ i u) :
    (∃ f F, u.calls.frames = f :: F) ∧ u.dispatch.Keeps (Method.NeverLocates ctx.catalog) := by
  obtain ⟨hf, _, _, -, hu⟩ := executes_corresponds (v := ⟨fuel, m, args, s⟩) (locating_lawful hc)
    trivial hm (valuesRel_eq args) (itself_machines _ hs).outside h
  exact ⟨hf, hu.answers.2⟩

/-- An error with a location was raised by the instruction that it names, which was executed by the
invocation or by one made while it ran. -/
theorem raises_of_located (hc : ∀ m, ctx.catalog.Declares m → m.NeverLocates ctx.catalog)
    (hs : s.dispatch.Keeps (Method.NeverLocates ctx.catalog)) (hm : m.NeverLocates ctx.catalog)
    {place : Site} {source : ExecError}
    (h : invoke ctx fuel m args s = some (.error (.execution (.fault place source)), s')) :
    ∃ v i u, Within ctx v ⟨fuel, m, args, s⟩ ∧ v.Executes ctx i u ∧ place = site v.method i ∧
      v.Raises ctx i u source := by
  induction fuel generalizing m args s s' with
  | zero => cases h
  | succ fuel ih =>
      cases ends_of_invoke h with
      | refused hpush =>
          obtain ⟨-, he⟩ := CallStack.push_eq_error hpush
          cases he
      | ended hpush hrun hfinish =>
          obtain ⟨how, hhow⟩ := inconsistentReturn_of_finish hpush hrun hfinish
          cases hhow
      | @failed calls _ u hpush hrun =>
          rcases hbody : m.body with body | routine | -
          · obtain ⟨i, u, hexecutes, cause, hcause, hstep⟩ := executes_of_failed hpush hbody hrun
            obtain ⟨⟨f, F, hf⟩, hkeeps⟩ := executes_keeps hc hs hm hexecutes
            rcases Failure.locate_eq_execution hcause.symm with
              ⟨rfl, -⟩ | ⟨_, rfl, hunlocated, hsite⟩
            · -- the location is the one that an invocation made by the instruction has given
              rcases hstep with ⟨v, hv⟩ | ⟨_, _, -, -, hbranch⟩
              · rcases stepWith_eq_error hf hv with hown | ⟨c, u', v', hp, hcallee⟩
                · have := performInstruction_unlocated ctx i u _ hown _ rfl
                  cases this
                · obtain ⟨hcalls, hkeeps'⟩ := performInstruction_keeps hc hkeeps hp
                  obtain ⟨v, i', w, hwithin, hv⟩ := ih hkeeps' (hcalls c rfl) hcallee
                  exact ⟨v, i', w, .head ⟨i, u, .intro hexecutes hp⟩ hwithin, hv⟩
              · cases hbranch
            · -- the location is the instruction's own: what it fails with was not located before
              cases hsite
              refine ⟨_, i, u, .refl, hexecutes, rfl, ?_⟩
              rcases hstep with ⟨v, hv⟩ | ⟨offset, v, hv, hoffset, hbranch⟩
              · rcases stepWith_eq_error hf hv with hown | ⟨c, u', v', hp, hcallee⟩
                · exact .own hown
                · exact .callee (.intro hexecutes hp)
                    (failsOutright_of_unlocated hcallee hunlocated)
              · cases hbranch
                exact .target (performInstruction_of_jump hv) hbody hoffset
          · -- native routines do not locate what they fail with
            obtain ⟨f, hf⟩ := frames_entered hpush ctx
            rw [runMethod_native hbody] at hrun
            have herror := congrArg Prod.fst (Option.some.inj hrun)
            cases runNative_unlocated (hm routine hbody) hf _ herror _ rfl
          · rw [runMethod_abstract hbody] at hrun
            cases hrun

/-- **Execution errors are located exactly once, at the innermost instruction.**  If no native
routine locates its failures, then an error of an invocation has at most one location.  It has none
if no instruction of the invocation fails: for a method with code this means that its frame was
refused, or does not hold what the method returns.  And if it has one, then that is an instruction
which is executed while the invocation runs, and which fails itself or makes an invocation that
fails outright. -/
theorem invoke_located (hm : m.NeverLocates ctx.catalog)
    (hc : ∀ m, ctx.catalog.Declares m → m.NeverLocates ctx.catalog)
    (hs : s.dispatch.Keeps (Method.NeverLocates ctx.catalog))
    (h : invoke ctx fuel m args s = some (.error (.execution e), s')) :
    (∀ place source, e = .fault place source → source.isLocated = false) ∧
    (∀ body, m.body = .interpreted body → e.isLocated = false →
      (s.calls.limit ≤ s.calls.depth ∧
        e = .stackDepthExceeded (s.calls.depth + 1) s.calls.limit) ∨
      ∃ u how, Completes ctx ⟨fuel, m, args, s⟩ u ∧ e = .inconsistentReturn m.fullName how) ∧
    ∀ place source, e = .fault place source →
      ∃ v i u, Within ctx v ⟨fuel, m, args, s⟩ ∧ v.Executes ctx i u ∧ place = site v.method i ∧
        v.Raises ctx i u source := by
  refine ⟨?_, ?_, ?_⟩
  · rintro place source rfl
    exact invoke_locatedOnce hc hs hm h place source rfl
  · intro body hbody he
    cases failsOutright_of_unlocated h he with
    | refused hpush => exact .inl (CallStack.push_eq_error hpush)
    | native _ hbody' _ =>
        rw [hbody] at hbody'
        cases hbody'
    | abstract hbody' =>
        rw [hbody] at hbody'
        cases hbody'
    | inconsistent hu => exact .inr ⟨_, _, hu, rfl⟩
  · rintro place source rfl
    exact raises_of_located hc hs hm h

/-- The one native routine of the sample program does not fail at all. -/
theorem sample_neverLocates (h : Sample.catalog.Declares m) : m.NeverLocates Sample.catalog := by
  obtain ⟨d, hd, hm⟩ := h
  obtain rfl := List.mem_singleton.1 hd
  intro routine hroutine args k
  simp only [List.mem_cons, List.not_mem_nil, or_false] at hm
  rcases hm with rfl | rfl | rfl | rfl | rfl <;> cases hroutine
  exact only_ok

/-- A division by zero two calls deep is located at the division. -/
theorem invoke_located_divide :
    ∃ s', invoke Sample.context 9 Sample.fail [] Sample.machine =
        some (.error (.execution (.fault ⟨"Sample::Divide", 2, "div"⟩ .divideByZero)), s') ∧
      ExecError.divideByZero.isLocated = false ∧
      ∃ v i u, Within Sample.context v ⟨9, Sample.fail, [], Sample.machine⟩ ∧
        v.Executes Sample.context i u ∧ ⟨"Sample::Divide", 2, "div"⟩ = site v.method i ∧
        v.Raises Sample.context i u .divideByZero := by
  have hrun : (invoke Sample.context 9 Sample.fail [] Sample.machine).map Prod.fst =
      some (.error (.execution (.fault ⟨"Sample::Divide", 2, "div"⟩ .divideByZero))) := by
    decide +kernel
  obtain ⟨⟨_, s'⟩, hs', rfl⟩ := Option.map_eq_some_iff.1 hrun
  have hfail : Sample.catalog.Declares Sample.fail := ⟨_, .head _, by simp⟩
  have hkeeps : Sample.machine.dispatch.Keeps (Method.NeverLocates Sample.catalog) := by
    rintro entry ⟨⟩
  obtain ⟨honce, -, hraised⟩ := invoke_located (sample_neverLocates hfail)
    (fun m => sample_neverLocates) hkeeps hs'
  exact ⟨s', hs', honce _ _ rfl, hraised _ _ rfl⟩

end Machine

end CilMachine
