/-
CilMachine/Proofs/Simulation.lean

Runs side by side.  If a correspondence is lawful for runs, then whatever an invocation comes to in
one machine, it comes to in every machine that corresponds to it (`invoke_follows`): it ends there
as well, with a result that corresponds, in a machine that corresponds.

Two kinds of runs are exempt.  A run whose result is *lost* on the first side says nothing about the
second; and only those invocations are followed that are *allowed*, along with everything that is
invoked while they run.
-/
import CilMachine.Proofs.FrameDiscipline
import CilMachine.Proofs.Natives

namespace CilMachine

namespace Correspondence

open Machine

variable {W α β : Type} {R : Correspondence W} {ctx ctx' : Context} {lost : Failure → Prop}
  {allowed : Invocation → Prop} {w : W}

/-! ### Laws for runs -/

/-- Both sides push a frame, so that both enter the method; or both refuse to with one error, or
what the first side does is lost. -/
inductive Pushes (R : Correspondence W) (ctx ctx' : Context) (lost : Failure → Prop) (m : Method) :
    Except ExecError CallStack → Except ExecError CallStack → Prop
  | ok {c d : CallStack} : (∀ {w s t}, R.Outside w s t →
      R.Outside w (entered ctx m c s) (entered ctx' m d t)) →
    Pushes R ctx ctx' lost m (.ok c) (.ok d)
  | error {e : ExecError} : R.error e → Pushes R ctx ctx' lost m (.error e) (.error e)
  | lost {e : ExecError} {y : Except ExecError CallStack} : lost (.execution e) →
      Pushes R ctx ctx' lost m (.error e) y

/-- Stacks of one shape push alike. -/
theorem pushes_of_sameShape (hR : R.Lawful ctx ctx') {c d : CallStack} (h : c.SameShape d)
    (hstacks : ∀ {c d}, CallStack.SameShape c d → R.callStacks c d) (m : Method)
    (args args' : List Value) : R.Pushes ctx ctx' lost m (c.push m args) (d.push m args') := by
  have hdepth := h.depth_eq
  have hlimit := h.limit
  rcases hc : c.push m args with e | c' <;> rcases hd : d.push m args' with e' | d'
  · obtain ⟨-, rfl⟩ := CallStack.push_eq_error hc
    obtain ⟨-, rfl⟩ := CallStack.push_eq_error hd
    rw [hdepth, hlimit]
    exact .error (hR.ordinary rfl)
  · obtain ⟨hle, -⟩ := CallStack.push_eq_error hc
    obtain ⟨hlt, -⟩ := CallStack.push_eq_ok hd
    omega
  · obtain ⟨hlt, -⟩ := CallStack.push_eq_ok hc
    obtain ⟨hle, -⟩ := CallStack.push_eq_error hd
    omega
  · obtain ⟨-, caller, rfl⟩ := CallStack.push_eq_ok hc
    obtain ⟨-, caller', rfl⟩ := CallStack.push_eq_ok hd
    have hshape : CallStack.SameShape { c with frames := .ofMethod caller m args :: c.frames }
        { d with frames := .ofMethod caller' m args' :: d.frames } :=
      ⟨congrArg (· + 1) h.size, h.entries, h.limit⟩
    refine .ok fun {w s t} hst => ⟨hst.heap, hstacks hshape, ?_, hst.answers, ?_⟩
    · show R.counters (countCall _ s.stats) (countCall _ t.stats)
      rw [hshape.depth_eq]
      exact hR.count _ hst.counters
    · rw [entered, entered, hshape.depth_eq]
      exact hR.record (w := w) (·.calls) hst.logs (.called m.fullName _)

/-- The laws of a correspondence for runs. -/
structure LawfulRuns (R : Correspondence W) (ctx ctx' : Context) (lost : Failure → Prop)
    (allowed : Invocation → Prop) : Prop extends R.Lawful ctx ctx' where
  locate : ∀ {f} (site : Site), R.failure f → R.failure (f.locate site)
  lost_locate : ∀ {f} (site : Site), lost f → lost (f.locate site)
  routine : ∀ {m : Method} {routine}, R.method m → m.body = .native routine →
    R.Routine ctx.catalog.headers routine
  push : ∀ {v : Invocation} {d args'}, allowed v → R.callStacks v.machine.calls d →
    R.Pushes ctx ctx' lost v.method (v.machine.calls.push v.method v.arguments)
      (d.push v.method args')
  makes : ∀ {v v' : Invocation}, allowed v → v.Makes ctx v' → allowed v'

/-- The second run follows the first one: if that ends, and is not lost, then the second ends alike,
and `M` relates the machines. -/
def Follows (R : Correspondence W) (lost : Failure → Prop) (M : W → Machine → Machine → Prop)
    (w : W) (x : Run α) (y : Run β) (A : W → α → β → Prop) (s t : Machine) : Prop :=
  ∀ r s', x s = some (r, s') → (∃ e, r = .error e ∧ lost e) ∨
    ∃ w' q t', R.le w w' ∧ y t = some (q, t') ∧ M w' s' t' ∧ Alike R.failure (A w') r q

/-- If nothing is lost, then the second run ends when the first one does. -/
theorem Follows.ends {M : W → Machine → Machine → Prop} {x : Run α} {y : Run β}
    {A : W → α → β → Prop} {s t s' : Machine} {r : Except Failure α}
    (h : R.Follows (fun _ => False) M w x y A s t) (hx : x s = some (r, s')) :
    ∃ w' q t', R.le w w' ∧ y t = some (q, t') ∧ M w' s' t' ∧ Alike R.failure (A w') r q := by
  rcases h r s' hx with ⟨_, -, hlost⟩ | h
  · exact hlost.elim
  · exact h

/-- The laws for runs, where the stacks have one shape, nothing is lost and everything is allowed.
-/
theorem lawfulRuns_of_sameShape (hR : R.Lawful ctx ctx')
    (hshape : R.callStacks = CallStack.SameShape)
    (locate : ∀ f site, R.failure f → R.failure (f.locate site))
    (routine : ∀ {m : Method} {routine}, R.method m → m.body = .native routine →
      R.Routine ctx.catalog.headers routine) :
    R.LawfulRuns ctx ctx' (fun _ => False) fun _ => True where
  toLawful := hR
  locate site h := locate _ site h
  lost_locate _ h := h
  routine := routine
  push _ h := by
    rw [hshape] at h
    exact pushes_of_sameShape hR h (fun h => hshape ▸ h) _ _ _
  makes _ _ := trivial

/-! ### Frames below a call -/

/-- Related machines are both in a method, or both are not. -/
theorem Machines.exists_cons {s t : Machine} {f : Frame} {F : List Frame} (h : R.Machines w s t)
    (hs : s.calls.frames = f :: F) :
    ∃ g G, t.calls.frames = g :: G ∧ f.Rel (R.handle w) g := by
  have hframe := h.frame
  rw [hs] at hframe
  rcases ht : t.calls.frames with - | ⟨g, G⟩ <;> rw [ht] at hframe <;> cases hframe
  exact ⟨g, G, rfl, ‹_›⟩

/-- Stacks that agree still do so when a call is over. -/
theorem Outside.afterCall {ε : Type} {w' : W} {s t u v : Machine} (hR : R.Lawful ctx ctx')
    (h : R.Outside w s t) (huv : R.Machines w' u v) (r q : Except ε (Option Value))
    {l l' : Array Event} (hlogs : R.logs l l') :
    R.Outside w' { u with calls := s.calls.afterCall r, log := l }
      { v with calls := t.calls.afterCall q, log := l' } :=
  ⟨huv.heap, hR.continues h.callStacks (.afterCall _ r) (.afterCall _ q), huv.counters, huv.answers,
    hlogs⟩

/-- The callers' frames are related again when related values have been returned to them. -/
theorem frame_afterCall {ε : Type} {w' : W} {s t : Machine} {P : ε → Prop}
    {r q : Except ε (Option Value)} (hR : R.Lawful ctx ctx') (h : R.Machines w s t)
    (hle : R.le w w') (hrq : Alike P (Option.Rel (Value.Rel (R.handle w'))) r q) :
    Option.Rel (Frame.Rel (R.handle w')) (s.calls.afterCall r).frames.head?
      (t.calls.afterCall q).frames.head? := by
  have hframe := hR.frame_mono hle h.frame
  cases hrq with
  | error _ => exact hframe
  | ok hv =>
      cases hv with
      | none => exact hframe
      | some hv =>
          show Option.Rel _ (s.calls.deliver _).frames.head? (t.calls.deliver _).frames.head?
          unfold CallStack.deliver
          rcases hF : s.calls.frames with - | ⟨f, F⟩ <;>
            rcases hG : t.calls.frames with - | ⟨g, G⟩ <;>
            rw [hF, hG] at hframe <;> cases hframe
          · simp only [hF, hG]
            exact .none
          · rename_i hfg
            exact .some ⟨hfg.arguments, hfg.locals, .cons hv hfg.stack⟩

theorem returned_alike {H : Handle → Handle → Prop} {x y : OperandStack} (h : ValuesRel H x y)
    (m : Method) :
    AlikeOrdinary (Option.Rel (Value.Rel H)) (CallStack.returned m x) (CallStack.returned m y) := by
  unfold CallStack.returned
  split
  · cases h with
    | nil => exact .error rfl
    | cons hv hrest =>
        cases hrest with
        | nil => exact .ok (.some hv)
        | cons _ hrest =>
            dsimp only
            rw [List.length_cons, List.length_cons, hrest.length_eq]
            exact .error rfl
  · cases h with
    | nil => exact .ok .none
    | cons _ hrest =>
        dsimp only
        rw [List.length_cons, List.length_cons, hrest.length_eq]
        exact .error rfl

/-- If an invocation is followed, then the frames below it correspond afterwards as they did before.
-/
theorem Follows.machines (hR : R.Lawful ctx ctx')
    {invoker invoker' : Method → List Value → Run (Option Value)}
    (hframes : RestoresFrames invoker) (hframes' : RestoresFrames invoker') {m m' : Method}
    {args args' : List Value} {s t : Machine} (hst : R.Machines w s t)
    (h : R.Follows lost R.Outside w (invoker m args) (invoker' m' args')
      (fun w => Option.Rel (Value.Rel (R.handle w))) s t) :
    R.Follows lost R.Machines w (invoker m args) (invoker' m' args')
      (fun w => Option.Rel (Value.Rel (R.handle w))) s t := by
  intro r s' hrun
  rcases h r s' hrun with hlost | ⟨w₁, q, t', hle, hrun', hout, hrq⟩
  · exact .inl hlost
  · refine .inr ⟨w₁, q, t', hle, hrun',
      ⟨hout.heap, ?_, hout.callStacks, hout.counters, hout.answers, hout.logs⟩, hrq⟩
    rw [hframes _ _ _ _ _ hrun, hframes' _ _ _ _ _ hrun']
    exact frame_afterCall hR hst hle hrq

/-! ### Instructions and bodies -/

theorem settle_follows (hR : R.Lawful ctx ctx')
    {invoker invoker' : Method → List Value → Run (Option Value)} {c c' : Call}
    (hc : R.Calls w c c') {s t : Machine}
    (hinvoke : R.Follows lost R.Machines w (invoker c.method c.arguments)
      (invoker' c.method c'.arguments) (fun w => Option.Rel (Value.Rel (R.handle w))) s t) :
    R.Follows lost R.Machines w (settle invoker (.call c)) (settle invoker' (.call c'))
      (fun _ => Eq) s t := by
  intro r s' h
  rw [settle_call_apply] at h
  rw [settle_call_apply, hc.method]
  rcases hrun : invoker c.method c.arguments s with - | ⟨r', u⟩ <;> rw [hrun] at h
  · cases h
  · rcases hinvoke _ _ hrun with ⟨e, rfl, he⟩ | ⟨w₁, q, v, hle, hrun', huv, hrq⟩
    · cases h
      exact .inl ⟨e, rfl, he⟩
    · right
      rw [hrun']
      cases hrq with
      | error he =>
          cases h
          exact ⟨w₁, _, v, hle, rfl, huv, .error he⟩
      | ok _ =>
          dsimp only at h ⊢
          have hcreated := hc.created
          rcases hx : c.created with - | x <;> rcases hy : c'.created with - | y <;>
            rw [hx, hy] at hcreated <;> cases hcreated <;> rw [hx] at h
          · cases h
            exact ⟨w₁, _, v, hle, rfl, huv, .ok rfl⟩
          · -- what was created is pushed when its constructor has returned
            rename_i hxy
            obtain ⟨w₂, hle₂, hm, -, -, ho⟩ := agree_push hR (.object (hR.mono hle hxy)) u v huv
            dsimp only at h ⊢
            rcases hp : push (.object x) u with ⟨a, u'⟩
            rcases hq : push (.object y) v with ⟨b, v'⟩
            rw [hp] at h
            rw [hp, hq] at hm ho
            cases ho with
            | error he =>
                cases h
                exact ⟨w₂, _, v', hR.trans hle hle₂, rfl, hm, .error he⟩
            | ok _ =>
                cases h
                exact ⟨w₂, _, v', hR.trans hle hle₂, rfl, hm, .ok rfl⟩

/-- An instruction is followed if the call that it may make is. -/
theorem stepWith_follows (hR : R.Lawful ctx ctx')
    {invoker invoker' : Method → List Value → Run (Option Value)}
    (hframes : RestoresFrames invoker) (hframes' : RestoresFrames invoker') {i : Instruction}
    {s t : Machine} (hst : R.Machines w s t)
    (hinvoke : ∀ {w' c c' u v}, performInstruction ctx i s = (.ok (.call c), u) → R.Calls w' c c' →
      R.Machines w' u v →
      R.Follows lost R.Outside w' (invoker c.method c.arguments) (invoker' c.method c'.arguments)
        (fun w => Option.Rel (Value.Rel (R.handle w))) u v) :
    R.Follows lost R.Machines w (stepWith invoker ctx i) (stepWith invoker' ctx' i)
      (fun _ => Eq) s t := by
  intro r s' h
  obtain ⟨w₁, hle, hm, -, -, ho⟩ := agree_performInstruction hR i s t hst
  rw [stepWith_apply] at h
  rw [stepWith_apply]
  rcases hp : performInstruction ctx i s with ⟨a, u⟩
  rcases hq : performInstruction ctx' i t with ⟨b, v⟩
  rw [hp] at h
  rw [hp, hq] at hm ho
  cases ho with
  | error he =>
      cases h
      exact .inr ⟨w₁, _, v, hle, rfl, hm, .error he⟩
  | ok hab =>
      cases hab with
      | outcome o =>
          cases h
          exact .inr ⟨w₁, _, v, hle, rfl, hm, .ok rfl⟩
      | call hc =>
          have hcall := (hinvoke hp hc hm).machines hR hframes hframes' hm
          rcases settle_follows hR hc hcall _ _ h with
            hlost | ⟨w₂, q, t', hle₂, hrun, hm₂, hrq⟩
          · exact .inl hlost
          · exact .inr ⟨w₂, q, t', hR.trans hle hle₂, hrun, hm₂, hrq⟩

theorem machines_begun (hR : R.Lawful ctx ctx') {s t : Machine} {f g : Frame}
    (h : R.Machines w s t) (hfg : f.Rel (R.handle w) g) (m : Method) (i : Instruction) :
    R.Machines w (begun ctx m i s f) (begun ctx' m i t g) := by
  refine ⟨h.heap, h.frame, h.callStacks,
    hR.count (fun st => { st with instructions := st.instructions + 1 }) h.counters, h.answers, ?_⟩
  rw [begun, begun, ← hfg.stack.length_eq]
  exact hR.record (w := w) (·.instructions) h.logs (.executing _ _ _ _)

/-- A body is followed if all the instructions that it gets to are. -/
theorem runBody_follows (hR : R.LawfulRuns ctx ctx' lost allowed)
    {step step' : Instruction → Run Outcome} {m : Method} {body : Body}
    (hcontinues : ∀ i s r s', step i s = some (r, s') → s.calls.Continues s'.calls)
    {fuel index : Nat} {s t : Machine} {f : Frame} {F : List Frame} (hs : s.calls.frames = f :: F)
    (hst : R.Machines w s t)
    (hstep : ∀ {i u w' v}, Visits ctx step m body fuel index s i u → R.Machines w' u v →
      R.Follows lost R.Machines w' (step i) (step' i) (fun _ => Eq) u v) :
    R.Follows lost R.Machines w (runBody ctx step m body fuel index)
      (runBody ctx' step' m body fuel index) (fun _ _ _ => True) s t := by
  induction fuel generalizing index s t f w with
  | zero =>
      intro r s' h
      cases h
  | succ fuel ih =>
      intro r s' h
      rcases hget : body.get? index with - | i
      · rw [runBody_of_end hget] at h
        rw [runBody_of_end hget]
        cases h
        exact .inr ⟨w, _, t, hR.refl w, rfl, hst, .ok trivial⟩
      · obtain ⟨g, G, ht, hfg⟩ := hst.exists_cons hs
        have hbegin := beginInstruction_apply hs ctx m i
        rw [runBody_of_get hget hbegin] at h
        rw [runBody_of_get hget (beginInstruction_apply ht ctx' m i)]
        rcases hi : step i (begun ctx m i s f) with - | ⟨a, u⟩ <;> rw [hi] at h
        · cases h
        · rcases hstep (.here hget hbegin) (machines_begun hR.toLawful hst hfg m i) _ _ hi with
            ⟨e, rfl, he⟩ | ⟨w₁, b, v, hle, hrun, huv, hab⟩
          · cases h
            exact .inl ⟨_, rfl, hR.lost_locate _ he⟩
          · rw [hrun]
            cases hab with
            | error he =>
                cases h
                exact .inr ⟨w₁, _, v, hle, rfl, huv, .error (hR.locate _ he)⟩
            | @ok o _ ho =>
                -- both sides go on at the same place, since the outcome is the same
                subst ho
                dsimp only at h ⊢
                rcases hnext : onward body index o with e | - | j <;> rw [hnext] at h
                · cases h
                  refine .inr ⟨w₁, _, v, hle, rfl, huv, .error (hR.locate _ ?_)⟩
                  obtain ⟨target, -, -, rfl⟩ := onward_eq_error hnext
                  exact hR.ordinary rfl
                · cases h
                  exact .inr ⟨w₁, _, v, hle, rfl, huv, .ok trivial⟩
                · obtain ⟨f', hu, -⟩ :=
                    (hcontinues i (begun ctx m i s f) _ _ hi).exists_cons hs
                  rcases ih hu huv (fun hv => hstep (.onward hget hbegin hi hnext hv)) _ _ h with
                    hlost | ⟨w₂, q, t', hle₂, hrun₂, hm, hq⟩
                  · exact .inl hlost
                  · exact .inr ⟨w₂, q, t', hR.trans hle hle₂, hrun₂, hm, hq⟩

/-! ### Methods and invocations -/

theorem runNative_follows (hR : R.Lawful ctx ctx') {routine : Native}
    (hroutine : R.Routine ctx.catalog.headers routine) {s t : Machine} {f : Frame} {F : List Frame}
    (hs : s.calls.frames = f :: F) (hst : R.Machines w s t) :
    R.Follows lost R.Machines w (liftM (runNative ctx routine)) (liftM (runNative ctx' routine))
      (fun _ _ _ => True) s t := by
  intro r s' h
  obtain ⟨g, G, ht, hfg⟩ := hst.exists_cons hs
  obtain ⟨w', hle, hheap, hrq⟩ := hroutine hst.heap hfg.arguments
  rw [Run.lift_apply, runNative_apply hs] at h
  rw [Run.lift_apply, runNative_apply ht, hR.catalog]
  generalize (routine.run ctx.catalog.headers f.arguments).run.run s.heap = x at *
  generalize (routine.run ctx.catalog.headers g.arguments).run.run t.heap = y at *
  obtain ⟨r', h'⟩ := x
  obtain ⟨q', k'⟩ := y
  cases h
  -- both sides count the same allocations, since the heaps grow by the same number of objects
  have hcounters : R.counters (afterNative s h' r').stats (afterNative t k' q').stats := by
    unfold afterNative
    cases hrq with
    | ok _ =>
        dsimp only
        rw [hR.size hst.heap, show k'.size = h'.size from hR.size hheap]
        exact hR.count (fun st => { st with
          nativeCalls := st.nativeCalls + 1
          allocations := st.allocations + (h'.size - s.heap.size) }) hst.counters
    | error _ =>
        exact hR.count (fun st => { st with nativeCalls := st.nativeCalls + 1 }) hst.counters
  have hmachines : R.Machines w' (afterNative s h' r') (afterNative t k' q') :=
    ⟨hheap, frame_afterCall hR hst hle hrq,
      hR.continues hst.callStacks (.afterCall _ r') (.afterCall _ q'), hcounters, hst.answers,
      hst.logs⟩
  exact .inr ⟨w', _, _, hle, rfl, hmachines, hrq.map fun _ _ _ => trivial⟩

/-- Machines correspond after both have pushed a frame for the same method. -/
theorem machines_entered {s t : Machine} {c d : CallStack} {m : Method} {args args' : List Value}
    (hargs : ValuesRel (R.handle w) args args') (hc : s.calls.push m args = .ok c)
    (hd : t.calls.push m args' = .ok d)
    (h : R.Outside w (entered ctx m c s) (entered ctx' m d t)) :
    R.Machines w (entered ctx m c s) (entered ctx' m d t) := by
  refine ⟨h.heap, ?_, h.callStacks, h.counters, h.answers, h.logs⟩
  obtain ⟨-, caller, rfl⟩ := CallStack.push_eq_ok hc
  obtain ⟨-, caller', rfl⟩ := CallStack.push_eq_ok hd
  exact .some (Frame.ofMethod_rel hargs caller caller' m)

/-- A method that has been entered is followed if the invocations that it makes are. -/
theorem runMethod_follows (hR : R.LawfulRuns ctx ctx' lost allowed) {fuel : Nat} {m : Method}
    {args : List Value} {s t : Machine} {c d : CallStack} (hm : R.method m)
    (hc : s.calls.push m args = .ok c)
    (hst : R.Machines w (entered ctx m c s) (entered ctx' m d t))
    (hinvoke : ∀ {w' m' args₁ args₂ u v}, R.method m' → ValuesRel (R.handle w') args₁ args₂ →
      R.Machines w' u v → Invocation.Makes ctx ⟨fuel + 1, m, args, s⟩ ⟨fuel, m', args₁, u⟩ →
      R.Follows lost R.Outside w' (invoke ctx fuel m' args₁) (invoke ctx' fuel m' args₂)
        (fun w => Option.Rel (Value.Rel (R.handle w))) u v) :
    R.Follows lost R.Machines w (runMethod ctx (invoke ctx fuel) fuel m)
      (runMethod ctx' (invoke ctx' fuel) fuel m) (fun _ _ _ => True) (entered ctx m c s)
      (entered ctx' m d t) := by
  obtain ⟨f, hf⟩ := frames_entered hc ctx
  rcases hbody : m.body with body | routine | -
  · -- the only place where other invocations are made
    rw [runMethod_interpreted hbody, runMethod_interpreted hbody]
    refine runBody_follows hR (fun i s r s' => stepWith_continues (invoke_calls ctx fuel)) hf hst
      fun hvisits huv => stepWith_follows hR.toLawful (invoke_calls ctx fuel)
        (invoke_calls ctx' fuel) huv fun hp hcalls huv' => ?_
    exact hinvoke hcalls.runs hcalls.arguments huv' ⟨_, _, .intro (.intro hc hbody hvisits) hp⟩
  · intro r s' h
    rw [runMethod_native hbody] at h ⊢
    exact runNative_follows hR.toLawful (hR.routine hm hbody) hf hst r s' h
  · intro r s' h
    rw [runMethod_abstract hbody] at h ⊢
    cases h
    exact .inr ⟨w, _, _, hR.refl w, rfl, hst, .error (hR.ordinary rfl)⟩

/-- Methods that have come to an end in machines that correspond return alike. -/
theorem finish_follows (hR : R.Lawful ctx ctx') {w' : W} {s t u v : Machine} {m : Method}
    {args args' : List Value} {c d : CallStack} (hst : R.Outside w s t)
    (hc : s.calls.push m args = .ok c) (hd : t.calls.push m args' = .ok d)
    (hu : c.Continues u.calls) (hv : d.Continues v.calls) (huv : R.Machines w' u v) :
    R.Outside w' (finish ctx m u).2 (finish ctx' m v).2 ∧
      Alike R.failure (Option.Rel (Value.Rel (R.handle w'))) (finish ctx m u).1
        (finish ctx' m v).1 := by
  obtain ⟨f, hf, hfinish⟩ := finish_of_push hc hu ctx
  obtain ⟨g, hg, hfinish'⟩ := finish_of_push hd hv ctx'
  -- the frames that are left are the top frames of machines that correspond
  have hstack : ValuesRel (R.handle w') f.stack g.stack := by
    obtain ⟨g', G, hg', hrel⟩ := huv.exists_cons hf
    rw [hg] at hg'
    cases hg'
    exact hrel.stack
  have hreturned : Alike R.error (Option.Rel (Value.Rel (R.handle w')))
      (CallStack.returned m f.stack) (CallStack.returned m g.stack) :=
    (returned_alike hstack m).mono (fun e he => hR.ordinary he) fun _ _ h => h
  rw [hfinish, hfinish']
  generalize CallStack.returned m f.stack = x, CallStack.returned m g.stack = y at hreturned
  cases hreturned with
  | ok h =>
      have hlogs := hR.record (·.calls) huv.logs (.returned m.fullName h)
      exact ⟨hst.afterCall hR huv _ _ hlogs, .ok h⟩
  | error h => exact ⟨hst.afterCall hR huv _ _ huv.logs, .error h⟩

/-- If a method is followed, then so is its execution, in which its frame is taken off again. -/
theorem executeWith_follows (hR : R.Lawful ctx ctx') {fuel : Nat} {s t : Machine} {m : Method}
    {args args' : List Value} {c d : CallStack} (hst : R.Outside w s t)
    (hc : s.calls.push m args = .ok c) (hd : t.calls.push m args' = .ok d)
    (hmethod : R.Follows lost R.Machines w (runMethod ctx (invoke ctx fuel) fuel m)
      (runMethod ctx' (invoke ctx' fuel) fuel m) (fun _ _ _ => True) (entered ctx m c s)
      (entered ctx' m d t)) :
    R.Follows lost R.Outside w (executeWith ctx (invoke ctx fuel) fuel m)
      (executeWith ctx' (invoke ctx' fuel) fuel m)
      (fun w => Option.Rel (Value.Rel (R.handle w))) (entered ctx m c s) (entered ctx' m d t) := by
  intro r s' h
  rw [executeWith_apply] at h ⊢
  rcases hrun : runMethod ctx (invoke ctx fuel) fuel m (entered ctx m c s) with - | ⟨a, u⟩ <;>
    rw [hrun] at h
  · cases h
  · have hu := runMethod_continues_entered (invoke_calls ctx fuel) hc hrun
    rcases hmethod _ _ hrun with ⟨e, rfl, he⟩ | ⟨w₁, b, v, hle, hrun', huv, hab⟩
    · cases h
      exact .inl ⟨e, rfl, he⟩
    · right
      have hv := runMethod_continues_entered (invoke_calls ctx' fuel) hd hrun'
      rw [hrun']
      cases hab with
      | @error e he =>
          -- a frame that has failed is discarded, whatever it holds
          cases h
          obtain ⟨f, -, -, hdiscard⟩ := CallStack.discard_of_push hc hu
          obtain ⟨g, -, -, hdiscard'⟩ := CallStack.discard_of_push hd hv
          refine ⟨w₁, _, _, hle, rfl, ?_, .error he⟩
          rw [hdiscard, hdiscard']
          exact hst.afterCall hR huv (.error e) (.error e) huv.logs
      | ok _ =>
          obtain ⟨hout, hrq⟩ := finish_follows hR hst hc hd hu hv huv
          have hfinish : finish ctx m u = (r, s') := Option.some.inj h
          rw [hfinish] at hout hrq
          exact ⟨w₁, _, _, hle, rfl, hout, hrq⟩

/-- **Runs in corresponding machines come out alike**: an allowed invocation that ends in one
machine, and is not lost, ends alike in every machine that corresponds. -/
theorem invoke_follows (hR : R.LawfulRuns ctx ctx' lost allowed) {fuel : Nat} {m : Method}
    {args args' : List Value} {s t : Machine} (hallowed : allowed ⟨fuel, m, args, s⟩)
    (hm : R.method m) (hargs : ValuesRel (R.handle w) args args') (hst : R.Outside w s t) :
    R.Follows lost R.Outside w (invoke ctx fuel m args) (invoke ctx' fuel m args')
      (fun w => Option.Rel (Value.Rel (R.handle w))) s t := by
  induction fuel generalizing m args args' s t w with
  | zero =>
      intro r s' h
      cases h
  | succ fuel ih =>
      intro r s' h
      have hpush : R.Pushes ctx ctx' lost m (s.calls.push m args) (t.calls.push m args') :=
        hR.push hallowed hst.callStacks
      rw [invoke_succ_apply] at h ⊢
      rcases hc : s.calls.push m args with e | c <;> rw [hc] at h hpush
      · -- the first side refuses the frame
        cases h
        rcases hd : t.calls.push m args' with e' | d <;> rw [hd] at hpush <;> cases hpush
        · rename_i he
          exact .inr ⟨w, _, t, hR.refl w, rfl, hst, .error he⟩
        · exact .inl ⟨_, rfl, ‹_›⟩
        · exact .inl ⟨_, rfl, ‹_›⟩
      · rcases hd : t.calls.push m args' with e' | d <;> rw [hd] at hpush <;> cases hpush
        rename_i henter
        have hentered : R.Machines w (entered ctx m c s) (entered ctx' m d t) :=
          machines_entered hargs hc hd (henter hst)
        -- the invocations that the method makes have less fuel
        have hmethod := runMethod_follows hR hm hc hentered fun hm' hargs' huv hmakes =>
          ih (hR.makes hallowed hmakes) hm' hargs' huv.outside
        exact executeWith_follows hR.toLawful hst hc hd hmethod r s' h

/-- The same with the callers' frames, to which an invocation returns. -/
theorem invoke_follows_machines (hR : R.LawfulRuns ctx ctx' lost allowed) {fuel : Nat} {m : Method}
    {args args' : List Value} {s t : Machine} (hallowed : allowed ⟨fuel, m, args, s⟩)
    (hm : R.method m) (hargs : ValuesRel (R.handle w) args args') (hst : R.Machines w s t) :
    R.Follows lost R.Machines w (invoke ctx fuel m args) (invoke ctx' fuel m args')
      (fun w => Option.Rel (Value.Rel (R.handle w))) s t :=
  (invoke_follows hR hallowed hm hargs hst.outside).machines hR.toLawful (invoke_calls ctx fuel)
    (invoke_calls ctx' fuel) hst

/-- The same for single instructions, where all invocations are allowed. -/
theorem step_follows (hR : R.LawfulRuns ctx ctx' lost fun _ => True) {fuel : Nat} {i : Instruction}
    {s t : Machine} (hst : R.Machines w s t) :
    R.Follows lost R.Machines w (step ctx fuel i) (step ctx' fuel i) (fun _ => Eq) s t :=
  stepWith_follows hR.toLawful (invoke_calls ctx fuel) (invoke_calls ctx' fuel) hst
    fun _ hc huv => invoke_follows hR trivial hc.runs hc.arguments huv.outside

/-- The same for constructions. -/
theorem construct_follows (hR : R.LawfulRuns ctx ctx' lost fun _ => True) {fuel : Nat}
    {ctor : MethodRef} {args args' : List Value} {s t : Machine}
    (hargs : ValuesRel (R.handle w) args args') (hst : R.Machines w s t) :
    R.Follows lost R.Machines w (construct ctx fuel ctor args) (construct ctx' fuel ctor args')
      R.handle s t := by
  intro r s' h
  obtain ⟨w₁, hle, hm, -, -, ho⟩ := agree_prepareConstruction hR.toLawful ctor hargs s t hst
  rw [construct_apply] at h ⊢
  rcases hp : prepareConstruction ctx ctor args s with ⟨a, u⟩
  rcases hq : prepareConstruction ctx' ctor args' t with ⟨b, v⟩
  rw [hp] at h hm ho
  rw [hq] at hm ho
  cases ho with
  | error he =>
      cases h
      exact .inr ⟨w₁, _, v, hle, rfl, hm, .error he⟩
  | @ok p q hpq =>
      obtain ⟨x, c⟩ := p
      obtain ⟨y, c'⟩ := q
      obtain ⟨hxy, hc⟩ := hpq
      have hcall : R.Follows lost R.Machines w₁ (invoke ctx fuel c.method c.arguments)
          (invoke ctx' fuel c.method c'.arguments)
          (fun w => Option.Rel (Value.Rel (R.handle w))) u v :=
        invoke_follows_machines hR trivial hc.runs hc.arguments hm
      dsimp only at h ⊢
      rcases hrun : invoke ctx fuel c.method c.arguments u with - | ⟨r', u'⟩ <;> rw [hrun] at h
      · cases h
      · rcases hcall _ _ hrun with ⟨e, rfl, he⟩ | ⟨w₂, q, v', hle₂, hrun', hm', hrq⟩
        · cases h
          exact .inl ⟨e, rfl, he⟩
        · rw [hc.method, hrun']
          cases h
          exact .inr ⟨w₂, _, v', hR.trans hle hle₂, rfl, hm', hrq.map fun _ _ _ => hR.mono hle₂ hxy⟩

/-! ### What runs get to -/

/-- Wherever a body gets to, the machine corresponds to another one. -/
theorem visits_corresponds (hR : R.Lawful ctx ctx') {step step' : Instruction → Run Outcome}
    {m : Method} {body : Body}
    (hcontinues : ∀ i s r s', step i s = some (r, s') → s.calls.Continues s'.calls)
    {fuel index : Nat} {s t u : Machine} {i : Instruction} {f : Frame} {F : List Frame}
    (hs : s.calls.frames = f :: F) (hst : R.Machines w s t)
    (hstep : ∀ {i u w' v}, Visits ctx step m body fuel index s i u → R.Machines w' u v →
      R.Follows lost R.Machines w' (step i) (step' i) (fun _ => Eq) u v)
    (h : Visits ctx step m body fuel index s i u) :
    (∃ f F, u.calls.frames = f :: F) ∧ ∃ w' u', R.le w w' ∧ R.Machines w' u u' := by
  induction h generalizing t f w with
  | here _ hbegin =>
      obtain ⟨g, G, ht, hfg⟩ := hst.exists_cons hs
      rw [beginInstruction_apply hs] at hbegin
      cases hbegin
      exact ⟨⟨f, F, hs⟩, w, _, hR.refl w, machines_begun hR hst hfg m _⟩
  | @onward fuel index j s u v _ i _ o hget hbegin hi hnext _ ih =>
      obtain ⟨g, G, ht, hfg⟩ := hst.exists_cons hs
      have hvisits : Visits ctx step m body (fuel + 1) index s i u := .here hget hbegin
      rw [beginInstruction_apply hs] at hbegin
      cases hbegin
      rcases hstep hvisits (machines_begun hR hst hfg m i) _ _ hi with
        ⟨e, he, -⟩ | ⟨w₁, b, v', hle, -, hm, -⟩
      · cases he
      · obtain ⟨f', hv, -⟩ := (hcontinues i (begun ctx m i s f) _ _ hi).exists_cons hs
        obtain ⟨hu, w₂, u', hle₂, hm₂⟩ := ih hv hm fun hvisits' =>
          hstep (.onward hget (beginInstruction_apply hs ctx m i) hi hnext hvisits')
        exact ⟨hu, w₂, u', hR.trans hle hle₂, hm₂⟩

/-- Wherever an invocation executes an instruction, the machine corresponds to another one. -/
theorem executes_corresponds (hR : R.LawfulRuns ctx ctx' lost allowed) {v : Invocation}
    {args' : List Value} {t u : Machine} {i : Instruction} (hallowed : allowed v)
    (hm : R.method v.method) (hargs : ValuesRel (R.handle w) v.arguments args')
    (hst : R.Outside w v.machine t) (h : v.Executes ctx i u) :
    (∃ f F, u.calls.frames = f :: F) ∧ ∃ w' u', R.le w w' ∧ R.Machines w' u u' := by
  obtain ⟨hc, hbody, hvisits⟩ := h
  rename_i fuel m args s c body
  have hpush : R.Pushes ctx ctx' lost m (s.calls.push m args) (t.calls.push m args') :=
    hR.push hallowed hst.callStacks
  rw [hc] at hpush
  rcases hd : t.calls.push m args' with e | d <;> rw [hd] at hpush <;> cases hpush
  rename_i henter
  have hentered : R.Machines w (entered ctx m c s) (entered ctx' m d t) :=
    machines_entered hargs hc hd (henter hst)
  obtain ⟨f, hf⟩ := frames_entered hc ctx
  have hstep : ∀ {i u w' v},
      Visits ctx (stepWith (invoke ctx fuel) ctx) m body fuel 0 (entered ctx m c s) i u →
        R.Machines w' u v →
        R.Follows lost R.Machines w' (stepWith (invoke ctx fuel) ctx i)
          (stepWith (invoke ctx' fuel) ctx' i) (fun _ => Eq) u v := fun hvisits huv =>
    stepWith_follows hR.toLawful (invoke_calls ctx fuel) (invoke_calls ctx' fuel) huv
      fun hp hcalls huv' => invoke_follows hR
        (hR.makes hallowed ⟨_, _, .intro (.intro hc hbody hvisits) hp⟩) hcalls.runs
        hcalls.arguments huv'.outside
  exact visits_corresponds hR.toLawful
    (fun i s r s' => stepWith_continues (invoke_calls ctx fuel)) hf hentered hstep hvisits

/-- All that is invoked while an invocation runs is invoked in a machine that corresponds to another
one, on arguments that do so as well. -/
theorem within_corresponds (hR : R.LawfulRuns ctx ctx' lost allowed) {v v' : Invocation}
    {args' : List Value} {t : Machine} (hallowed : allowed v) (hm : R.method v.method)
    (hargs : ValuesRel (R.handle w) v.arguments args') (hst : R.Outside w v.machine t)
    (h : Invocation.Within ctx v' v) :
    allowed v' ∧ R.method v'.method ∧ ∃ w' args₂ t', R.le w w' ∧
      ValuesRel (R.handle w') v'.arguments args₂ ∧ R.Outside w' v'.machine t' := by
  induction h with
  | refl => exact ⟨hallowed, hm, w, args', t, hR.refl w, hargs, hst⟩
  | tail _ hmakes ih =>
      obtain ⟨hallowed₁, hm₁, w₁, args₁, t₁, hle₁, hargs₁, hst₁⟩ := ih
      have hallowed₂ := hR.makes hallowed₁ hmakes
      obtain ⟨i, u, hmakes⟩ := hmakes
      cases hmakes with
      | @intro fuel m args s u' c hexecutes hp =>
          obtain ⟨-, w₂, u₂, hle₂, hm₂⟩ :=
            executes_corresponds hR hallowed₁ hm₁ hargs₁ hst₁ hexecutes
          obtain ⟨w₃, hle₃, hm₃, -, -, ho⟩ := agree_performInstruction hR.toLawful i u u₂ hm₂
          rw [hp] at hm₃ ho
          generalize performInstruction ctx' i u₂ = y at hm₃ ho
          obtain ⟨b, t₃⟩ := y
          cases ho with
          | ok heffects =>
              cases heffects with
              | call hc =>
                  exact ⟨hallowed₂, hc.runs, w₃, _, t₃,
                    hR.trans hle₁ (hR.trans hle₂ hle₃), hc.arguments, hm₃.outside⟩

/-- Wherever an invocation gets to, the machine corresponds to another one. -/
theorem getsTo_corresponds (hR : R.LawfulRuns ctx ctx' (fun _ => False) allowed) {v : Invocation}
    {args' : List Value} {t u : Machine} (hallowed : allowed v) (hm : R.method v.method)
    (hargs : ValuesRel (R.handle w) v.arguments args') (hst : R.Outside w v.machine t)
    (h : v.GetsTo ctx u) : ∃ w' t', R.le w w' ∧ R.Outside w' u t' := by
  cases h with
  | starts hv =>
      obtain ⟨-, -, w₁, _, t₁, hle, -, hst₁⟩ := within_corresponds hR hallowed hm hargs hst hv
      exact ⟨w₁, t₁, hle, hst₁⟩
  | executes hv hi =>
      obtain ⟨hallowed₁, hm₁, w₁, _, t₁, hle₁, hargs₁, hst₁⟩ :=
        within_corresponds hR hallowed hm hargs hst hv
      obtain ⟨-, w₂, t₂, hle₂, hm₂⟩ := executes_corresponds hR hallowed₁ hm₁ hargs₁ hst₁ hi
      exact ⟨w₂, t₂, hR.trans hle₁ hle₂, hm₂.outside⟩
  | ends hv hrun =>
      obtain ⟨hallowed₁, hm₁, w₁, _, t₁, hle₁, hargs₁, hst₁⟩ :=
        within_corresponds hR hallowed hm hargs hst hv
      obtain ⟨w₂, _, t₂, hle₂, -, hst₂, -⟩ :=
        (invoke_follows hR hallowed₁ hm₁ hargs₁ hst₁).ends hrun
      exact ⟨w₂, t₂, hR.trans hle₁ hle₂, hst₂⟩

end Correspondence

end CilMachine
