/-
CilMachine/Proofs/Course.lean

The course of a run, told from the machines at its two ends.  Whatever a run does it does in one of
three ways: by moves of its instructions, by notes in the counters and in the log, and by native
routines.  Suppose that something can be told of each of them, and of what follows upon each other.
Then it can be told of whole runs (`Course.Lawful.invoke`, `Course.Lawful.construct`) and of the
host's operations, up to the note of a failure (`Course.Lawful.hostInvoke`).

What is told may depend on the invocations that belong to the run (`StepRuns`, `BodyRuns`,
`Invocation.Within`), and on whether it has failed.  A failure ends the run, so what is followed by
anything but notes has not failed.
-/
import CilMachine.Proofs.Moves
import CilMachine.Proofs.Restoration
import CilMachine.Proofs.Transcript

namespace CilMachine

namespace Machine

variable {α : Type} {ctx : Context} {fuel n : Nat} {m : Method} {args : List Value}
  {i : Instruction} {s t u : Machine}

/-! ### The invocations of a run -/

/-- The instruction makes a call, and the invocation is that of the call, or is made while that
runs. -/
inductive StepRuns (ctx : Context) (fuel : Nat) (i : Instruction) (s : Machine) : Invocation → Prop
  | intro {c : Call} {u : Machine} {v : Invocation} :
      performInstruction ctx i s = (.ok (.call c), u) →
      v.Within ctx ⟨fuel, c.method, c.arguments, u⟩ → StepRuns ctx fuel i s v

theorem stepRuns_iff {c : Call} {v : Invocation}
    (hp : performInstruction ctx i s = (.ok (.call c), t)) :
    StepRuns ctx fuel i s v ↔ v.Within ctx ⟨fuel, c.method, c.arguments, t⟩ := by
  refine ⟨?_, fun hv => .intro hp hv⟩
  rintro ⟨hp', hv⟩
  cases hp.symm.trans hp'
  exact hv

/-- The invocation is one of those of an instruction that the body gets to from the position on. -/
def BodyRuns (ctx : Context) (fuel : Nat) (m : Method) (body : Body) (n index : Nat) (s : Machine)
    (v : Invocation) : Prop :=
  ∃ i u, Visits ctx (stepWith (invoke ctx fuel) ctx) m body n index s i u ∧
    StepRuns ctx fuel i u v

section Bodies

variable {body : Body} {index : Nat} {v : Invocation}

theorem not_bodyRuns_of_end (hget : body.get? index = none) :
    ¬ BodyRuns ctx fuel m body (n + 1) index s v := by
  rintro ⟨i, u, hvisits, -⟩
  cases hvisits with
  | here hi _ => cases hget.symm.trans hi
  | onward hi _ _ _ _ => cases hget.symm.trans hi

/-- The invocations are those of the first instruction and those of the rest. -/
theorem bodyRuns_iff (hget : body.get? index = some i)
    (hbegin : beginInstruction ctx m i s = (.ok (), t)) :
    BodyRuns ctx fuel m body (n + 1) index s v ↔
      StepRuns ctx fuel i t v ∨
        ∃ o t' j, stepWith (invoke ctx fuel) ctx i t = some (.ok o, t') ∧
          onward body index o = .ok (some j) ∧ BodyRuns ctx fuel m body n j t' v := by
  constructor
  · rintro ⟨i', u, hvisits, hruns⟩
    cases hvisits with
    | here hi hu =>
        cases hget.symm.trans hi
        cases hbegin.symm.trans hu
        exact .inl hruns
    | onward hi hu hstep honward hrest =>
        cases hget.symm.trans hi
        cases hbegin.symm.trans hu
        exact .inr ⟨_, _, _, hstep, honward, i', u, hrest, hruns⟩
  · rintro (hruns | ⟨o, t', j, hstep, honward, i', u, hvisits, hruns⟩)
    · exact ⟨i, t, .here hget hbegin, hruns⟩
    · exact ⟨i', u, .onward hget hbegin hstep honward hvisits, hruns⟩

theorem bodyRuns_iff_of_stop (hget : body.get? index = some i)
    (hbegin : beginInstruction ctx m i s = (.ok (), t))
    (hstops : ∀ o t' j, stepWith (invoke ctx fuel) ctx i t = some (.ok o, t') →
      onward body index o ≠ .ok (some j)) :
    BodyRuns ctx fuel m body (n + 1) index s v ↔ StepRuns ctx fuel i t v := by
  rw [bodyRuns_iff hget hbegin]
  refine or_iff_left ?_
  rintro ⟨o, t', j, hstep, honward, -⟩
  exact hstops o t' j hstep honward

theorem bodyRuns_iff_of_onward {o : Outcome} {j : Nat} (hget : body.get? index = some i)
    (hbegin : beginInstruction ctx m i s = (.ok (), t))
    (hstep : stepWith (invoke ctx fuel) ctx i t = some (.ok o, u))
    (honward : onward body index o = .ok (some j)) :
    BodyRuns ctx fuel m body (n + 1) index s v ↔
      StepRuns ctx fuel i t v ∨ BodyRuns ctx fuel m body n j u v := by
  rw [bodyRuns_iff hget hbegin]
  refine or_congr Iff.rfl ⟨?_, fun hv => ⟨o, u, j, hstep, honward, hv⟩⟩
  rintro ⟨o', u', j', hstep', honward', hv⟩
  cases hstep.symm.trans hstep'
  cases honward.symm.trans honward'
  exact hv

end Bodies

namespace Invocation

variable {v w : Invocation} {calls : CallStack} {body : Body}

theorem within_iff : v.Within ctx w ↔ v = w ∨ ∃ w', w.Makes ctx w' ∧ v.Within ctx w' :=
  Relation.ReflTransGen.cases_head_iff.trans (or_congr eq_comm Iff.rfl)

/-- The invocations of a run of code are its own and those that its body gets to. -/
theorem within_iff_of_interpreted (hpush : s.calls.push m args = .ok calls)
    (hm : m.body = .interpreted body) :
    v.Within ctx ⟨fuel + 1, m, args, s⟩ ↔
      v = ⟨fuel + 1, m, args, s⟩ ∨ BodyRuns ctx fuel m body fuel 0 (entered ctx m calls s) v := by
  rw [within_iff]
  refine or_congr Iff.rfl ⟨?_, ?_⟩
  · rintro ⟨w, ⟨i, u, ⟨hexecutes, hperform⟩⟩, hwithin⟩
    obtain ⟨hpush', hm', hvisits⟩ := hexecutes
    cases hpush.symm.trans hpush'
    cases hm.symm.trans hm'
    exact ⟨i, u, hvisits, .intro hperform hwithin⟩
  · rintro ⟨i, u, hvisits, ⟨hperform, hwithin⟩⟩
    exact ⟨_, ⟨i, u, .intro (.intro hpush hm hvisits) hperform⟩, hwithin⟩

/-- What executes nothing makes no invocation. -/
theorem within_iff_of_not_executes (h : ∀ i u, ¬ w.Executes ctx i u) :
    v.Within ctx w ↔ v = w := by
  rw [within_iff]
  refine or_iff_left ?_
  rintro ⟨w', ⟨i, u, ⟨hexecutes, -⟩⟩, -⟩
  exact h i u hexecutes

/-- What is no code makes no invocation. -/
theorem within_iff_of_not_interpreted (h : ∀ body, m.body ≠ .interpreted body) :
    v.Within ctx ⟨n, m, args, s⟩ ↔ v = ⟨n, m, args, s⟩ := by
  refine within_iff_of_not_executes ?_
  rintro i u ⟨-, hbody, -⟩
  exact h _ hbody

end Invocation

/-- The invocation gets its frame, and the routine is what its method runs. -/
inductive Invocation.Does : Invocation → Native → Prop
  | intro {fuel : Nat} {m : Method} {args : List Value} {s : Machine} {calls : CallStack}
      {routine : Native} : s.calls.push m args = .ok calls → m.body = .native routine →
      Does ⟨fuel + 1, m, args, s⟩ routine

theorem Invocation.not_does_of_not_native (h : ∀ routine, m.body ≠ .native routine)
    (routine : Native) : ¬ Invocation.Does ⟨n, m, args, s⟩ routine := by
  rintro ⟨-, hm⟩
  exact h routine hm

/-- The object is there, and the invocation is that of its constructor or is made while it runs. -/
inductive ConstructionRuns (ctx : Context) (fuel : Nat) (ctor : MethodRef) (args : List Value)
    (s : Machine) : Invocation → Prop
  | intro {r : Handle} {c : Call} {u : Machine} {v : Invocation} :
      prepareConstruction ctx ctor args s = (.ok (r, c), u) →
      v.Within ctx ⟨fuel, c.method, c.arguments, u⟩ → ConstructionRuns ctx fuel ctor args s v

theorem constructionRuns_iff {ctor : MethodRef} {r : Handle} {c : Call} {v : Invocation}
    (hp : prepareConstruction ctx ctor args s = (.ok (r, c), t)) :
    ConstructionRuns ctx fuel ctor args s v ↔ v.Within ctx ⟨fuel, c.method, c.arguments, t⟩ := by
  refine ⟨?_, fun hv => .intro hp hv⟩
  rintro ⟨hp', hv⟩
  cases hp.symm.trans hp'
  exact hv

/-- The run has failed. -/
abbrev Failed (r : Except Failure α) : Prop := ∃ e, r = .error e

theorem not_failed_ok (a : α) : ¬ Failed (.ok a : Except Failure α) := by
  rintro ⟨e, he⟩
  cases he

section Natives

variable {calls : CallStack}

/-- A native routine runs on the arguments that its method has been invoked with. -/
theorem runNative_entered (hpush : s.calls.push m args = .ok calls) (routine : Native) :
    runNative ctx routine (entered ctx m calls s) =
      let (r, h) := (routine.run ctx.catalog.headers args).run.run s.heap
      (r.map fun _ => (), afterNative (entered ctx m calls s) h r) := by
  obtain ⟨-, caller, rfl⟩ := CallStack.push_eq_ok hpush
  exact runNative_apply (f := .ofMethod caller m args) rfl ctx routine

end Natives

/-! ### Notes -/

/-- The machine `u` is `s` but for frames, and for what has been noted: counters other than that of
the allocations, and lines about calls and instructions. -/
structure Notes (s u : Machine) : Prop where
  heap : u.heap = s.heap
  allocations : u.stats.allocations = s.stats.allocations
  log : Appends (·.isAside = false) s u

theorem notes_of_eq (hheap : u.heap = s.heap) (hstats : u.stats.allocations = s.stats.allocations)
    (hlog : u.log = s.log) : Notes s u :=
  ⟨hheap, hstats, appends_of_eq hlog⟩

theorem notes_of_push {e : Event} (traced : Bool) (hheap : u.heap = s.heap)
    (hstats : u.stats.allocations = s.stats.allocations) (he : e.isAside = false)
    (hlog : u.log = if traced then s.log.push e else s.log) : Notes s u :=
  ⟨hheap, hstats, appends_of_push traced he hlog⟩

theorem notes_entered (ctx : Context) (m : Method) (calls : CallStack) (s : Machine) :
    Notes s (entered ctx m calls s) :=
  notes_of_push ctx.tracing.calls rfl rfl rfl rfl

theorem notes_begun (ctx : Context) (m : Method) (i : Instruction) (s : Machine) (f : Frame) :
    Notes s (begun ctx m i s f) :=
  notes_of_push ctx.tracing.instructions rfl rfl rfl rfl

theorem notes_of_finish {r : Except Failure (Option Value)} (h : finish ctx m s = (r, u)) :
    Notes s u := by
  rw [finish_apply] at h
  rcases hunwind : s.calls.unwind with ⟨e | v, calls⟩ <;> rw [hunwind] at h <;> cases h
  · exact notes_of_eq rfl rfl rfl
  · exact notes_of_push ctx.tracing.calls rfl rfl rfl rfl

/-! ### Courses -/

/-- What is told of two machines, the invocations that belong to the run from the one to the other,
and whether this has failed. -/
abbrev Course := (Invocation → Prop) → Prop → Machine → Machine → Prop

/-- The laws by which a course is told of whole runs. -/
structure Course.Lawful (ctx : Context) (P : Native → Prop) (A : Course) : Prop where
  congr : ∀ {I J : Invocation → Prop} {failed : Prop} {s u : Machine}, A I failed s u →
    (∀ v, J v ↔ I v) → A J failed s u
  imp : ∀ {I : Invocation → Prop} {failed failed' : Prop} {s u : Machine}, A I failed s u →
    (failed → failed') → A I failed' s u
  /-- What goes on has not failed. -/
  andThen : ∀ {I J K : Invocation → Prop} {failed : Prop} {s t u : Machine}, A I False s t →
    A J failed t u → (∀ v, K v ↔ I v ∨ J v) → A K failed s u
  thenNotes : ∀ {I : Invocation → Prop} {failed : Prop} {s t u : Machine}, A I failed s t →
    Notes t u → A I failed s u
  moves : ∀ {s u : Machine}, Moves ctx s u → A (fun _ => False) False s u
  /-- An invocation by itself does nothing, unless it runs a native routine. -/
  outright : ∀ {v : Invocation} {s : Machine}, (∀ routine, ¬ v.Does routine) → A (· = v) False s s
  routine : ∀ {fuel : Nat} {m : Method} {args : List Value} {s : Machine} {calls : CallStack}
    {routine : Native} {r : Except Failure (Option Value)} {h : Heap}, P routine →
    s.calls.push m args = .ok calls → m.body = .native routine →
    (routine.run ctx.catalog.headers args).run.run s.heap = (r, h) →
    A (· = ⟨fuel + 1, m, args, s⟩) (Failed r) (entered ctx m calls s)
      (afterNative (entered ctx m calls s) h r)

/-- That all do is no property of the heap. -/
theorem RunsOnly.keeps {P : Native → Prop} (h : s.RunsOnly ctx P) : s.Keeps ctx P fun _ => True :=
  ⟨trivial, h⟩

theorem everything_invariant (ctx : Context) (P : Native → Prop) :
    Heap.Invariant ctx P fun _ => True :=
  ⟨fun _ _ => trivial, fun _ _ _ _ => trivial⟩

namespace Course.Lawful

variable {P : Native → Prop} {A : Course} {I J : Invocation → Prop} {failed : Prop}

theorem nothing (hA : A.Lawful ctx P) (s : Machine) : A (fun _ => False) False s s := hA.moves .refl

/-- What is told of moves is all that there is, if no invocation belongs to them. -/
theorem movesOnly (hA : A.Lawful ctx P) (h : Moves ctx s u) (hI : ∀ v, ¬ I v) : A I failed s u :=
  hA.imp (hA.congr (hA.moves h) fun v => iff_false_intro (hI v)) False.elim

theorem after (hA : A.Lawful ctx P) (hst : A (fun _ => False) False s t) (htu : A I failed t u) :
    A I failed s u :=
  hA.andThen hst htu fun _ => (or_iff_right id).symm

theorem afterNotes (hA : A.Lawful ctx P) (hst : Notes s t) (htu : A I failed t u) :
    A I failed s u :=
  hA.after (hA.thenNotes (hA.nothing s) hst) htu

/-- The course is told of the invocations with so many steps. -/
def Invokes (A : Course) (ctx : Context) (P : Native → Prop) (fuel : Nat) : Prop :=
  ∀ m args s r u, s.RunsOnly ctx P → m.Runs P → Machine.invoke ctx fuel m args s = some (r, u) →
    A (Invocation.Within ctx · ⟨fuel, m, args, s⟩) (Failed r) s u

theorem step (hA : A.Lawful ctx P) (hfuel : Invokes A ctx P fuel) (hs : s.RunsOnly ctx P)
    {r : Except Failure Outcome} (h : stepWith (Machine.invoke ctx fuel) ctx i s = some (r, u)) :
    A (StepRuns ctx fuel i s) (Failed r) s u := by
  have hmoves : Moves ctx s (performInstruction ctx i s).2 := performInstruction_moves ctx i s
  rw [stepWith_apply] at h
  rcases hp : performInstruction ctx i s with ⟨e | o | c, t⟩ <;> rw [hp] at h hmoves
  · -- no call is made
    cases h
    refine hA.movesOnly hmoves ?_
    rintro v ⟨hp', -⟩
    cases hp.symm.trans hp'
  · cases h
    refine hA.movesOnly hmoves ?_
    rintro v ⟨hp', -⟩
    cases hp.symm.trans hp'
  · obtain ⟨hm, ht⟩ := (Starts.step fuel hp).keeps (everything_invariant ctx P) hs.keeps
    dsimp only at h
    rw [settle_call_apply] at h
    rcases hrun : Machine.invoke ctx fuel c.method c.arguments t with - | ⟨a, t'⟩ <;>
      rw [hrun] at h
    · cases h
    have hcall : A (StepRuns ctx fuel i s) (Failed a) s t' :=
      hA.congr (hA.after (hA.moves hmoves) (hfuel _ _ _ _ _ ht.runsOnly hm hrun))
        fun v => stepRuns_iff hp
    rcases a with e | a
    · cases h
      exact hA.imp hcall fun _ => ⟨e, rfl⟩
    · -- what comes after the call is at most the push of the created object
      replace hcall := hA.imp hcall (not_failed_ok a)
      rcases hcreated : c.created with - | q <;> simp only [hcreated] at h
      · cases h
        exact hA.imp hcall False.elim
      · have hmove : Moves ctx t' (push (.object q) t').2 := moving_push (.object q) t'
        have hpushed := hA.andThen hcall (hA.moves hmove) fun v => (or_iff_left id).symm
        rcases hv : push (.object q) t' with ⟨e | ⟨⟩, t''⟩ <;> rw [hv] at h hpushed <;> cases h
        · exact hA.imp hpushed False.elim
        · exact hA.imp hpushed False.elim

theorem body (hA : A.Lawful ctx P) (hfuel : Invokes A ctx P fuel) {body : Body} {index : Nat}
    {f : Frame} {F : List Frame} {r : Except Failure Unit} (hs : s.RunsOnly ctx P)
    (hframes : s.calls.frames = f :: F)
    (h : runBody ctx (stepWith (Machine.invoke ctx fuel) ctx) m body n index s = some (r, u)) :
    A (BodyRuns ctx fuel m body n index s) (Failed r) s u := by
  -- as long as the body goes on, nothing in it has failed
  induction n generalizing index s f with
  | zero => cases h
  | succ n ih =>
      rcases hget : body.get? index with - | i
      · rw [runBody_of_end hget] at h
        cases h
        exact hA.movesOnly .refl fun v => not_bodyRuns_of_end hget
      have hbegin := beginInstruction_apply hframes ctx m i
      have hbegun : (begun ctx m i s f).RunsOnly ctx P := ⟨hs.declared, hs.answers⟩
      rw [runBody_of_get hget hbegin] at h
      rcases hstep : stepWith (Machine.invoke ctx fuel) ctx i (begun ctx m i s f) with
        - | ⟨a, t⟩ <;> rw [hstep] at h
      · cases h
      have hfirst := hA.afterNotes (notes_begun ctx m i s f) (hA.step hfuel hbegun hstep)
      rcases a with e | o
      · -- the body stops where an instruction fails
        cases h
        refine hA.imp (hA.congr hfirst fun v => ?_) fun _ => ⟨_, rfl⟩
        refine bodyRuns_iff_of_stop hget hbegin fun o t' j hstep' => ?_
        cases hstep.symm.trans hstep'
      replace hfirst := hA.imp hfirst (not_failed_ok o)
      have hstops (hne : ∀ j, onward body index o ≠ .ok (some j)) :
          A (BodyRuns ctx fuel m body (n + 1) index s) (Failed r) s t := by
        refine hA.imp (hA.congr hfirst fun v => ?_) False.elim
        refine bodyRuns_iff_of_stop hget hbegin fun o' t' j hstep' => ?_
        cases hstep.symm.trans hstep'
        exact hne j
      dsimp only at h
      rcases honward : onward body index o with e | - | j <;> simp only [honward] at h
      · cases h
        exact hstops fun j hj => by cases honward.symm.trans hj
      · cases h
        exact hstops fun j hj => by cases honward.symm.trans hj
      · -- it goes on at the position `j`
        have hcontinues := stepWith_continues (invoke_calls ctx fuel) hstep
        obtain ⟨g, ht, -⟩ := hcontinues.exists_cons hframes
        have hkeeps := step_keeps (everything_invariant ctx P) hbegun.keeps hstep
        exact hA.andThen hfirst (ih hkeeps.runsOnly ht h) fun v =>
          bodyRuns_iff_of_onward hget hbegin hstep honward

section Methods

variable {calls : CallStack}

/-- The course of a method that has been entered is that of its invocation. -/
theorem method (hA : A.Lawful ctx P) (hfuel : Invokes A ctx P fuel) (hs : s.RunsOnly ctx P)
    (hruns : m.Runs P) (hpush : s.calls.push m args = .ok calls) {r : Except Failure Unit}
    (h : runMethod ctx (Machine.invoke ctx fuel) fuel m (entered ctx m calls s) = some (r, u)) :
    A (Invocation.Within ctx · ⟨fuel + 1, m, args, s⟩) (Failed r) (entered ctx m calls s) u := by
  rcases hm : m.body with body | routine | -
  · rw [runMethod_interpreted hm] at h
    obtain ⟨f, hframes⟩ := frames_entered hpush ctx
    have hentered : (entered ctx m calls s).RunsOnly ctx P := ⟨hs.declared, hs.answers⟩
    have hself : A (· = ⟨fuel + 1, m, args, s⟩) False (entered ctx m calls s)
        (entered ctx m calls s) := by
      refine hA.outright (Invocation.not_does_of_not_native fun routine hroutine => ?_)
      cases hm.symm.trans hroutine
    exact hA.andThen hself (hA.body hfuel hentered hframes h) fun v =>
      Invocation.within_iff_of_interpreted hpush hm
  · have hwithin (v : Invocation) : v.Within ctx ⟨fuel + 1, m, args, s⟩ ↔ _ :=
      Invocation.within_iff_of_not_interpreted fun body hbody => by cases hm.symm.trans hbody
    rw [runMethod_native hm, runNative_entered hpush] at h
    rcases hrun : (routine.run ctx.catalog.headers args).run.run s.heap with ⟨r', k⟩
    have hroutine : A (· = ⟨fuel + 1, m, args, s⟩) (Failed r') _ _ :=
      hA.routine (hruns routine hm) hpush hm hrun
    rw [hrun] at h
    rcases r' with e | a <;> cases h
    · exact hA.congr (hA.imp hroutine fun _ => ⟨e, rfl⟩) hwithin
    · exact hA.congr (hA.imp hroutine fun hfailed => (not_failed_ok a hfailed).elim) hwithin
  · have hwithin (v : Invocation) : v.Within ctx ⟨fuel + 1, m, args, s⟩ ↔ _ :=
      Invocation.within_iff_of_not_interpreted fun body hbody => by cases hm.symm.trans hbody
    rw [runMethod_abstract hm] at h
    cases h
    refine hA.imp (hA.congr (hA.outright ?_) hwithin) False.elim
    refine Invocation.not_does_of_not_native fun routine hroutine => ?_
    cases hm.symm.trans hroutine

end Methods

/-- **The course of invocations is told**, and with it that of all that are made while they run. -/
theorem invoke (hA : A.Lawful ctx P) (fuel : Nat) : Invokes A ctx P fuel := by
  -- the invocations that a method makes have less fuel than its own
  induction fuel with
  | zero =>
      intro m args s r u _ _ h
      cases h
  | succ fuel ih =>
      intro m args s r u hs hm h
      cases ends_of_invoke h with
      | refused hpush =>
          have hself : A (· = ⟨fuel + 1, m, args, s⟩) False s s := by
            refine hA.outright fun routine => ?_
            rintro ⟨hpush', -⟩
            cases hpush.symm.trans hpush'
          refine hA.imp (hA.congr hself fun v => ?_) False.elim
          refine Invocation.within_iff_of_not_executes ?_
          rintro i u ⟨hpush', -, -⟩
          cases hpush.symm.trans hpush'
      | failed hpush hrun =>
          have hmethod := hA.afterNotes (notes_entered ctx m _ s) (hA.method ih hs hm hpush hrun)
          exact hA.imp (hA.thenNotes hmethod (notes_of_eq rfl rfl rfl)) fun _ => ⟨_, rfl⟩
      | ended hpush hrun hfinish =>
          have hmethod := hA.afterNotes (notes_entered ctx m _ s) (hA.method ih hs hm hpush hrun)
          exact hA.imp (hA.thenNotes hmethod (notes_of_finish hfinish))
            fun hfailed => (not_failed_ok () hfailed).elim

theorem construct (hA : A.Lawful ctx P) (hs : s.RunsOnly ctx P) {ctor : MethodRef}
    {r : Except Failure Handle} (h : Machine.construct ctx fuel ctor args s = some (r, u)) :
    A (ConstructionRuns ctx fuel ctor args s) (Failed r) s u := by
  have hmoves : Moves ctx s (prepareConstruction ctx ctor args s).2 :=
    prepareConstruction_moves ctx ctor args s
  rw [construct_apply] at h
  rcases hp : prepareConstruction ctx ctor args s with ⟨e | ⟨q, c⟩, t⟩ <;> rw [hp] at h hmoves
  · cases h
    refine hA.movesOnly hmoves ?_
    rintro v ⟨hp', -⟩
    cases hp.symm.trans hp'
  · obtain ⟨hm, ht⟩ := (Starts.construct fuel hp).keeps (everything_invariant ctx P) hs.keeps
    obtain ⟨⟨a, u'⟩, hrun, heq⟩ := Option.map_eq_some_iff.1 h
    cases heq
    have hinvoke := hA.after (hA.moves hmoves) (hA.invoke fuel _ _ _ _ _ ht.runsOnly hm hrun)
    refine hA.imp (hA.congr hinvoke fun v => constructionRuns_iff hp) ?_
    rintro ⟨e, rfl⟩
    exact ⟨e, rfl⟩

end Course.Lawful

end Machine

/-! ### Operations of the host -/

namespace Host

open Machine

variable {ctx : Context} {fuel : Nat} {ref ctor : MethodRef} {args : List Value} {s u : Machine}
  {P : Native → Prop}

/-- The invocation is the one that the host makes, unless it is refused, or is made while that
runs. -/
inductive InvocationRuns (ctx : Context) (fuel : Nat) (ref : MethodRef) (args : List Value)
    (s : Machine) : Invocation → Prop
  | intro {m : Method} {v : Invocation} : ctx.catalog.resolveMethod ref = .ok m →
      args.length = m.argCount → v.Within ctx ⟨fuel, m, args, atEntry s⟩ →
      InvocationRuns ctx fuel ref args s v

theorem notes_atEntry (s : Machine) : Notes s (atEntry s) := by
  unfold atEntry
  split <;> exact notes_of_eq rfl rfl rfl

/-- The note of a failure is all that is logged with it. -/
theorem appends_noted {α : Type} {p : Event → Prop} {name : String} {r : Except Failure α}
    {t : Machine} (hp : ∀ e, p (.failed name e)) (hlog : u.log = noted name r t.log) :
    Appends p t u := by
  rcases r with e | a
  · exact appends_of_push true (hp e) hlog
  · exact appends_of_eq hlog

theorem runsOnly_atEntry (hs : s.RunsOnly ctx P) : (atEntry s).RunsOnly ctx P :=
  ((agrees_atEntry s).keeps hs.keeps).runsOnly

end Host

namespace Machine.Course.Lawful

open Host

variable {P : Native → Prop} {A : Course} {ctx : Context} {fuel : Nat} {ref ctor : MethodRef}
  {args : List Value} {s u : Machine}

/-- The course of an invocation for the host is told up to the note of its failure; if the host
refuses it, then nothing is noted. -/
theorem hostInvoke (hA : A.Lawful ctx P) (hs : s.RunsOnly ctx P)
    {r : Except Failure (Option Value)} (h : Host.invoke ctx fuel ref args s = some (r, u)) :
    ∃ t, A (InvocationRuns ctx fuel ref args s) (Failed r) s t ∧
      ((u = t ∧ u = s ∧ Failed r ∧
          ∀ m, ctx.catalog.resolveMethod ref = .ok m → args.length ≠ m.argCount) ∨
        ∃ m, ctx.catalog.resolveMethod ref = .ok m ∧ args.length = m.argCount ∧
          u = { t with calls := u.calls, log := noted m.fullName r t.log }) := by
  rcases invoke_eq_some h with ⟨rfl, hfailed, hrefused⟩ | ⟨m, t, hm, hargs, hrun, heq⟩
  · refine ⟨u, hA.movesOnly .refl ?_, .inl ⟨rfl, rfl, hfailed, hrefused⟩⟩
    rintro v ⟨hm, hargs, -⟩
    exact hrefused _ hm hargs
  · have hmethod := hs.declared m (Catalog.declares_of_resolveMethod hm)
    have hinvoke := hA.afterNotes (notes_atEntry s)
      (hA.invoke fuel m args _ r t (runsOnly_atEntry hs) hmethod hrun)
    refine ⟨t, hA.congr hinvoke fun v => ⟨?_, fun hv => .intro hm hargs hv⟩,
      .inr ⟨m, hm, hargs, ?_⟩⟩
    · rintro ⟨hm', -, hv⟩
      cases hm.symm.trans hm'
      exact hv
    · rw [heq]

theorem hostConstruct (hA : A.Lawful ctx P) (hs : s.RunsOnly ctx P) {r : Except Failure Handle}
    (h : Host.construct ctx fuel ctor args s = some (r, u)) :
    ∃ t, A (ConstructionRuns ctx fuel ctor args (atEntry s)) (Failed r) s t ∧
      u = { t with log := noted ctor.text r t.log } := by
  obtain ⟨t, hrun, heq⟩ := construct_eq_some h
  exact ⟨t, hA.afterNotes (notes_atEntry s) (hA.construct (runsOnly_atEntry hs) hrun), heq⟩

end Machine.Course.Lawful

end CilMachine
