/-
CilMachine/Proofs/Termination.lean

Runs that end.  Code is *forward* if its branches lead to later instructions only, or to none.  A
forward body executes each of its instructions once at most, so what can go on for ever is only that
methods call each other; and that ends when there is no room for another frame.

Neither measure would do alone: a call takes the run from a body to the start of another one, and
what makes up for that is the room for frames, which a call lessens and which is the same again when
the call is over.  So there is a number of instructions that an invocation does not exceed,
`budget`, by recursion on the room; and it returns if it is given a number of steps that is large
enough, with a result that does not depend on that number (`invoke_returns`).
-/
import CilMachine.Proofs.Location
import CilMachine.Proofs.Moves
import CilMachine.Proofs.Recoding

namespace CilMachine

variable {α β : Type}

/-! ### Forward code -/

/-- Each branch leads to an offset where there is no instruction, or to a later instruction. -/
def Body.Forward (b : Body) : Prop :=
  ∀ index i target j, b.get? index = some i → i.flow.isBranch = true →
    i.operand.target? = some target → b.indexOf? target = some j → index < j

theorem Body.forward_iff {b : Body} : b.Forward ↔
    ∀ index : Fin b.code.size, b.code[index].flow.isBranch = true →
      ∀ target ∈ b.code[index].operand.target?, ∀ j ∈ b.indexOf? target, index < j := by
  constructor
  · intro h index hbranch target htarget j hj
    exact h index _ target j (Array.getElem?_eq_getElem index.isLt) hbranch htarget hj
  · intro h index i target j hi hbranch htarget hj
    obtain ⟨hindex, rfl⟩ := Array.getElem?_eq_some_iff.1 hi
    exact h ⟨index, hindex⟩ hbranch target htarget j hj

instance (b : Body) : Decidable b.Forward := decidable_of_iff' _ Body.forward_iff

/-- The code of the method, if it has any, is forward. -/
def Method.Forward (m : Method) : Prop := ∀ body, m.body = .interpreted body → body.Forward

/-- The number of instructions of the method. -/
def Method.length (m : Method) : Nat :=
  match m.body with
  | .interpreted body => body.size
  | _ => 0

theorem Body.lt_size_of_get? {b : Body} {index : Nat} {i : Instruction}
    (h : b.get? index = some i) : index < b.size :=
  (Array.getElem?_eq_some_iff.1 h).1

namespace Instruction

variable {i : Instruction} {a : Action}

/-- Only a branch is read as an action that may jump. -/
theorem isJump_of_action? (h : i.action? = .ok a) (hflow : i.flow.isBranch = false) :
    a.isJump = false := by
  cases reads_of_action? h with
  | @sequential form _ hlookup hform =>
      have hjump := isJump_of_sequentialForms hlookup
      cases form with
      | plain a' =>
          cases hform
          exact hjump
      | _ =>
          obtain ⟨x, -, rfl⟩ := map_eq_ok hform
          rfl
  | branch hbranch _ =>
      rw [hflow] at hbranch
      cases hbranch
  | call _ hcall => exact isJump_of_callAction? hcall
  | leave _ hleave => rw [hleave]; rfl

/-- An instruction is read as a jump only to the target of a branch. -/
theorem action?_rel (h : i.action? = .ok a) :
    a.Rel (fun target _ => i.flow.isBranch = true ∧ i.operand.target? = some target) a := by
  cases hflow : i.flow.isBranch with
  | false => exact .same (isJump_of_action? h hflow)
  | true =>
      have hi : i.Parallel (fun target _ => i.flow.isBranch = true ∧
          i.operand.target? = some target) i := .refl fun target htarget => ⟨hflow, htarget⟩
      have haction := hi.action?_alike
      rw [h, hflow] at haction
      cases haction with
      | ok ha => exact ha

end Instruction

/-! ### More steps -/

namespace Run

/-- Whatever the first run comes to, the second one comes to as well. -/
def Below (x y : Run α) : Prop := ∀ s p, x s = some p → y s = some p

theorem Below.refl (x : Run α) : Below x x := fun _ _ h => h

theorem Below.bind {x y : Run α} {f g : α → Run β} (hxy : Below x y)
    (hfg : ∀ a, Below (f a) (g a)) : Below (x >>= f) (y >>= g) := by
  intro s p h
  rw [bind_apply] at h ⊢
  rcases hx : x s with - | ⟨e | a, u⟩ <;> rw [hx] at h
  · cases h
  · rw [hxy s _ hx]
    exact h
  · rw [hxy s _ hx]
    exact hfg a u p h

theorem Below.discard {x y : Run α} (hxy : Below x y) :
    Below (Functor.discard x) (Functor.discard y) := by
  intro s p h
  rw [discard_apply] at h ⊢
  obtain ⟨q, hq, rfl⟩ := Option.map_eq_some_iff.1 h
  rw [hxy s q hq]
  rfl

theorem Below.adapt {x y : Run α} (hxy : Below x y) (f : Failure → Failure) :
    Below (x.adapt f) (y.adapt f) := by
  intro s p h
  rw [adapt_apply] at h ⊢
  obtain ⟨q, hq, rfl⟩ := Option.map_eq_some_iff.1 h
  rw [hxy s q hq]
  rfl

theorem Below.tryCatch {x y : Run α} (hxy : Below x y) (f : Failure → Run α) :
    Below (MonadExcept.tryCatch x f) (MonadExcept.tryCatch y f) := by
  intro s p h
  rw [tryCatch_apply] at h ⊢
  rcases hx : x s with - | ⟨e | a, u⟩ <;> rw [hx] at h
  · cases h
  · rw [hxy s _ hx]
    exact h
  · rw [hxy s _ hx]
    exact h

end Run

namespace Machine

open Run

variable {ctx : Context} {m : Method} {args : List Value} {i : Instruction} {s u : Machine}
  {fuel fuel' : Nat} {invoker invoker' : Method → List Value → Run (Option Value)}

theorem stepWith_below (h : ∀ m args, Below (invoker m args) (invoker' m args)) (i : Instruction) :
    Below (stepWith invoker ctx i) (stepWith invoker' ctx i) := by
  refine (Below.refl _).bind fun e => ?_
  cases e with
  | outcome o => exact .refl _
  | call c => exact (h c.method c.arguments).discard.bind fun _ => .refl _

theorem runBody_below {step step' : Instruction → Run Outcome} {body : Body}
    (hstep : ∀ i, Below (step i) (step' i)) (hle : fuel ≤ fuel') (index : Nat) :
    Below (runBody ctx step m body fuel index) (runBody ctx step' m body fuel' index) := by
  induction fuel generalizing fuel' index with
  | zero =>
      intro s p h
      cases h
  | succ fuel ih =>
      obtain ⟨fuel', rfl⟩ := Nat.exists_eq_add_of_le' hle
      have hle : fuel ≤ fuel' + fuel := Nat.le_add_left fuel fuel'
      rw [← Nat.add_assoc, runBody, runBody]
      rcases body.get? index with - | i
      · exact .refl _
      · refine (Below.refl _).bind fun _ => ((hstep i).adapt _).bind fun o => ?_
        cases o with
        | next => exact ih hle _
        | leave => exact .refl _
        | jump target =>
            rcases hindex : body.indexOf? target with - | j <;> dsimp only <;> rw [hindex]
            · exact .refl _
            · exact ih hle j

theorem runMethod_below (h : ∀ m args, Below (invoker m args) (invoker' m args))
    (hle : fuel ≤ fuel') (m : Method) :
    Below (runMethod ctx invoker fuel m) (runMethod ctx invoker' fuel' m) := by
  unfold runMethod
  rcases m.body with body | routine | -
  · exact runBody_below (stepWith_below h) hle 0
  · exact .refl _
  · exact .refl _

/-- A run that ends comes to the same when it is given more steps. -/
theorem invoke_below (ctx : Context) (hle : fuel ≤ fuel') (m : Method) (args : List Value) :
    Below (invoke ctx fuel m args) (invoke ctx fuel' m args) := by
  induction fuel generalizing fuel' m args with
  | zero =>
      intro s p h
      cases h
  | succ fuel ih =>
      obtain ⟨fuel', rfl⟩ := Nat.exists_eq_add_of_le' hle
      have hle : fuel ≤ fuel' + fuel := Nat.le_add_left fuel fuel'
      have hmethod : Below (runMethod ctx (invoke ctx fuel) fuel m)
          (runMethod ctx (invoke ctx (fuel' + fuel)) (fuel' + fuel) m) :=
        runMethod_below (ih hle) hle m
      exact (Below.refl _).bind fun _ => (hmethod.tryCatch _).bind fun _ => .refl _

end Machine

/-! ### Room for frames -/

namespace CallStack

variable {c d : CallStack} {m : Method} {args : List Value}

/-- The number of frames that can still be pushed for methods, also if more entry frames are counted
than there are frames. -/
def room (c : CallStack) : Nat := c.limit + c.entries - c.frames.length

theorem room_push (h : c.push m args = .ok d) : c.room = d.room + 1 := by
  obtain ⟨hlt, caller, rfl⟩ := push_eq_ok h
  unfold room
  unfold depth at hlt
  simp only [List.length_cons]
  omega

theorem Continues.room_eq (h : c.Continues d) : d.room = c.room := by
  rw [room, room, h.limit, h.entries, h.length_eq]

end CallStack

/-! ### Runs that return -/

namespace Machine

/-- The instruction jumps only where it branches to. -/
theorem branches_of_performInstruction {target : Nat}
    (h : (performInstruction ctx i s).1 = .ok (.outcome (.jump target))) :
    i.flow.isBranch = true ∧ i.operand.target? = some target := by
  obtain ⟨a, s₁, hlift, hperform⟩ :=
    op_bind_eq_ok (x := liftM i.action?) (f := perform ctx) (Prod.ext h rfl)
  obtain ⟨ha, rfl⟩ := lift_eq_ok hlift
  -- an action does what it relates to: itself, with the target that it has been read with
  obtain ⟨htwins, -⟩ := twins_perform (B := fun _ _ => False) (.refl ctx)
    (Instruction.action?_rel ha) s
  rw [hperform] at htwins
  cases htwins with
  | ok hrecoded =>
      cases hrecoded with
      | outcome houtcome =>
          cases houtcome with
          | jump htarget => exact htarget

/-- Forward code gets on with each instruction. -/
theorem lt_of_onward {body : Body} (hbody : body.Forward) {index j : Nat} {o : Outcome}
    (hget : body.get? index = some i)
    (hstep : stepWith (invoke ctx fuel) ctx i s = some (.ok o, u))
    (honward : onward body index o = .ok (some j)) : index < j := by
  cases o with
  | next =>
      cases honward
      exact Nat.lt_succ_self index
  | leave => cases honward
  | jump target =>
      obtain ⟨hbranch, htarget⟩ := branches_of_performInstruction (performInstruction_of_jump hstep)
      rcases hindex : body.indexOf? target with - | j' <;> simp only [onward, hindex] at honward <;>
        cases honward
      exact hbody index i target j hget hbranch htarget hindex

/-- The run returns when it has executed at most `n` instructions, and what can be found by then are
methods in `P`. -/
def Returns (P : Method → Prop) (x : Run α) (s : Machine) (n : Nat) : Prop :=
  ∃ r u, x s = some (r, u) ∧ u.stats.instructions ≤ s.stats.instructions + n ∧ u.dispatch.Keeps P

/-- The number of instructions that are enough for an invocation when there is room for so many
frames and no method has more than `length` instructions. -/
def budget (length : Nat) : Nat → Nat
  | 0 => 0
  | room + 1 => length * (budget length room + 1)

/-- The methods that are forward and not too long. -/
def Short (length : Nat) (m : Method) : Prop := m.Forward ∧ m.length ≤ length

variable {P : Method → Prop} {length room n : Nat}

/-- Invocations of methods in `P` return, with room for so many frames. -/
def InvokeReturns (P : Method → Prop) (ctx : Context) (fuel room n : Nat) : Prop :=
  ∀ m args s, P m → s.dispatch.Keeps P → s.calls.room ≤ room →
    Returns P (invoke ctx fuel m args) s n

theorem step_returns (hP : ∀ m, ctx.catalog.Declares m → P m)
    (hinvoke : InvokeReturns P ctx fuel room n) (hs : s.dispatch.Keeps P)
    (hroom : s.calls.room ≤ room) (i : Instruction) :
    Returns P (stepWith (invoke ctx fuel) ctx i) s n := by
  unfold Returns
  have hcalls := performInstruction_continues ctx i s
  have hstats := (performInstruction_moves ctx i s).stats_eq
  rw [stepWith_apply]
  rcases hp : performInstruction ctx i s with ⟨e | o | c, t⟩ <;> rw [hp] at hcalls hstats <;>
    obtain ⟨hmethod, ht⟩ := performInstruction_keeps hP hs hp <;>
    have hinstructions := congrArg Stats.instructions hstats
  · exact ⟨_, _, rfl, Nat.le_add_right_of_le (Nat.le_of_eq hinstructions), ht⟩
  · exact ⟨_, _, rfl, Nat.le_add_right_of_le (Nat.le_of_eq hinstructions), ht⟩
  · obtain ⟨r, t', hrun, hle, ht'⟩ := hinvoke c.method c.arguments t (hmethod c rfl) ht
      (hcalls.room_eq ▸ hroom)
    dsimp only at hinstructions ⊢
    rw [hinstructions] at hle
    rw [settle_call_apply, hrun]
    rcases r with e | v
    · exact ⟨_, _, rfl, hle, ht'⟩
    · rcases hcreated : c.created with - | q
      · exact ⟨_, _, rfl, hle, ht'⟩
      · obtain ⟨r, calls, hpush⟩ := push_eq (.object q) t'
        dsimp only
        rw [hpush]
        rcases r with e | ⟨⟩
        · exact ⟨_, _, rfl, hle, ht'⟩
        · exact ⟨_, _, rfl, hle, ht'⟩

theorem body_returns (hP : ∀ m, ctx.catalog.Declares m → P m)
    (hinvoke : InvokeReturns P ctx fuel room n) {body : Body} (hbody : body.Forward)
    {k index : Nat} (hk : body.size - index < k) {f : Frame} {F : List Frame}
    (hframes : s.calls.frames = f :: F) (hs : s.dispatch.Keeps P) (hroom : s.calls.room ≤ room) :
    Returns P (runBody ctx (stepWith (invoke ctx fuel) ctx) m body k index) s
      ((body.size - index) * (n + 1)) := by
  -- each instruction leads to a later one, so there is less and less left of the body
  induction k generalizing index s f with
  | zero => cases hk
  | succ k ih =>
      unfold Returns
      rcases hget : body.get? index with - | i
      · rw [runBody_of_end hget]
        exact ⟨_, _, rfl, Nat.le_add_right _ _, hs⟩
      · have hindex := Body.lt_size_of_get? hget
        have hbegun : (begun ctx m i s f).stats.instructions = s.stats.instructions + 1 := rfl
        obtain ⟨r, t, hstep, hle, ht⟩ :=
          step_returns (s := begun ctx m i s f) hP hinvoke hs hroom i
        have hcalls : s.calls.Continues t.calls :=
          stepWith_continues (s := begun ctx m i s f) (invoke_calls ctx fuel) hstep
        rw [hbegun] at hle
        -- what is left of the body costs at least what this instruction does
        have hmore {j : Nat} (hj : index < j) :
            n + 1 + (body.size - j) * (n + 1) ≤ (body.size - index) * (n + 1) := by
          have hleft : body.size - j + 1 ≤ body.size - index := by omega
          calc n + 1 + (body.size - j) * (n + 1) = (body.size - j + 1) * (n + 1) := by
                rw [Nat.succ_mul, Nat.add_comm]
            _ ≤ (body.size - index) * (n + 1) := Nat.mul_le_mul_right _ hleft
        have hone := hmore hindex
        rw [runBody_of_get hget (beginInstruction_apply hframes ctx m i), hstep]
        rcases r with e | o
        · exact ⟨_, _, rfl, by omega, ht⟩
        · dsimp only
          rcases honward : onward body index o with e | - | j
          · exact ⟨_, _, rfl, by omega, ht⟩
          · exact ⟨_, _, rfl, by omega, ht⟩
          · have hj := lt_of_onward hbody hget hstep honward
            obtain ⟨g, hg, -⟩ := hcalls.exists_cons hframes
            have hk' : body.size - j < k := by omega
            obtain ⟨r', u', hrun, hle', hu'⟩ := ih hk' hg ht (hcalls.room_eq ▸ hroom)
            have hj' := hmore hj
            exact ⟨r', u', hrun, by omega, hu'⟩

theorem method_returns (hP : ∀ m, ctx.catalog.Declares m → Short length m)
    (hinvoke : InvokeReturns (Short length) ctx fuel room n) (hlength : length < fuel)
    (hm : Short length m) {f : Frame} {F : List Frame} (hframes : s.calls.frames = f :: F)
    (hs : s.dispatch.Keeps (Short length)) (hroom : s.calls.room ≤ room) :
    Returns (Short length) (runMethod ctx (invoke ctx fuel) fuel m) s (length * (n + 1)) := by
  obtain ⟨hforward, hm⟩ := hm
  unfold Returns
  rcases hbody : m.body with body | routine | -
  · have hsize : body.size ≤ length := by rwa [Method.length, hbody] at hm
    have hfuel : body.size - 0 < fuel := by omega
    rw [runMethod_interpreted hbody]
    obtain ⟨r, u, hrun, hle, hu⟩ :=
      body_returns hP hinvoke (hforward body hbody) hfuel hframes hs hroom
    have hbudget : (body.size - 0) * (n + 1) ≤ length * (n + 1) := Nat.mul_le_mul_right _ hsize
    exact ⟨r, u, hrun, by omega, hu⟩
  · rw [runMethod_native hbody, runNative_apply hframes]
    exact ⟨_, _, rfl, Nat.le_add_right _ _, hs⟩
  · rw [runMethod_abstract hbody]
    exact ⟨_, _, rfl, Nat.le_add_right _ _, hs⟩

theorem short_returns (hP : ∀ m, ctx.catalog.Declares m → Short length m)
    (hfuel : length + room < fuel) :
    InvokeReturns (Short length) ctx fuel room (budget length room) := by
  -- a frame that is pushed takes a step and some room, so there are enough steps for what is left
  induction fuel generalizing room with
  | zero => cases hfuel
  | succ fuel ih =>
      intro m args s hm hs hroom
      unfold Returns
      rw [invoke_succ_apply]
      rcases hpush : s.calls.push m args with e | calls
      · exact ⟨_, _, rfl, Nat.le_add_right _ _, hs⟩
      · have hmore := CallStack.room_push hpush
        obtain ⟨room, rfl⟩ : ∃ room', room = room' + 1 := ⟨room - 1, by omega⟩
        have hroom' : calls.room ≤ room := by omega
        obtain ⟨f, hframes⟩ := frames_entered hpush ctx
        obtain ⟨r, u, hrun, hle, hu⟩ := method_returns (s := entered ctx m calls s) hP
          (ih (by omega)) (by omega) hm hframes hs hroom'
        dsimp only
        rw [executeWith_apply, hrun]
        rcases r with e | ⟨⟩
        · exact ⟨_, _, rfl, hle, hu⟩
        · have hcalls := runMethod_continues_entered (invoke_calls ctx fuel) hpush hrun
          obtain ⟨g, -, hfinish⟩ := finish_of_push hpush hcalls ctx
          dsimp only
          rw [hfinish]
          exact ⟨_, _, rfl, hle, hu⟩

/-! ### All methods that a run can get to -/

/-- The length of the longest of the methods. -/
def longest : List Method → Nat
  | [] => 0
  | m :: ms => max m.length (longest ms)

theorem length_le_longest {ms : List Method} (h : m ∈ ms) : m.length ≤ longest ms := by
  induction h with
  | head ms => exact Nat.le_max_left _ _
  | tail m' _ ih => exact Nat.le_trans ih (Nat.le_max_right _ _)

/-- The methods that a run can get to: its own, those of the catalog, and those that the dispatcher
has kept. -/
def inReach (ctx : Context) (m : Method) (s : Machine) : List Method :=
  m :: (ctx.catalog.types.flatMap TypeDef.methods ++ s.dispatch.known.map Prod.snd)

/-- **Without loops, recursion ends.**  If all code is forward, then every invocation returns, also
if methods call each other without end: it executes no more instructions than the longest of the
methods and the room for frames allow, and comes to the same with any number of steps that is large
enough. -/
theorem invoke_returns (hc : ∀ m, ctx.catalog.Declares m → m.Forward)
    (hs : s.dispatch.Keeps Method.Forward) (hm : m.Forward) (args : List Value) :
    ∃ r u, (∀ fuel, longest (inReach ctx m s) + s.calls.room < fuel →
        invoke ctx fuel m args s = some (r, u)) ∧
      u.stats.instructions ≤
        s.stats.instructions + budget (longest (inReach ctx m s)) s.calls.room := by
  have hshort : ∀ m', ctx.catalog.Declares m' → Short (longest (inReach ctx m s)) m' := by
    rintro m' ⟨d, hd, hm'⟩
    refine ⟨hc m' ⟨d, hd, hm'⟩, length_le_longest ?_⟩
    exact List.mem_cons_of_mem _ (List.mem_append_left _ (List.mem_flatMap.2 ⟨d, hd, hm'⟩))
  have hkeeps : s.dispatch.Keeps (Short (longest (inReach ctx m s))) := by
    intro entry hentry
    refine ⟨hs entry hentry, length_le_longest ?_⟩
    exact List.mem_cons_of_mem _ (List.mem_append_right _ (List.mem_map_of_mem hentry))
  have hself : Short (longest (inReach ctx m s)) m := ⟨hm, length_le_longest List.mem_cons_self⟩
  obtain ⟨r, u, hrun, hle, -⟩ :=
    short_returns hshort (Nat.lt_succ_self _) m args s hself hkeeps (Nat.le_refl s.calls.room)
  exact ⟨r, u, fun fuel hfuel => invoke_below ctx hfuel m args s _ hrun, hle⟩

end Machine

namespace Sample

/-- Calls itself, without end. -/
def endless : Method := method "Endless"
  ⟨#[⟨0, 2, "br.s", .unconditionalBranch, .target 2⟩,
    ⟨2, 5, "call", .call, .method (method "Endless" .empty).ref⟩, ⟨7, 1, "ret", .ret, .none⟩],
    by simp⟩

/-- The program. -/
def endlessContext : Context where
  catalog := { types := [
    { ref := type, flavor := .classType, base := none, fields := [], methods := [endless] }] }

theorem endless_forward : endless.Forward := by
  rintro _ ⟨⟩
  decide +kernel

end Sample

namespace Machine

/-- There is room for two frames, so the third invocation fails, and with it the other two. -/
theorem invoke_returns_endless :
    ∃ e u, (∀ fuel, 5 < fuel →
        invoke Sample.endlessContext fuel Sample.endless [] Sample.machine =
          some (.error (.execution e), u)) ∧
      u.stats.instructions ≤ 12 ∧ e.cause = .stackDepthExceeded 3 2 := by
  have hcatalog : ∀ m, Sample.endlessContext.catalog.Declares m → m.Forward := by
    rintro m ⟨d, hd, hm⟩
    obtain rfl := List.mem_singleton.1 hd
    obtain rfl := List.mem_singleton.1 hm
    exact Sample.endless_forward
  have hkeeps : Sample.machine.dispatch.Keeps Method.Forward := by
    rintro entry ⟨⟩
  have hsix : (invoke Sample.endlessContext 6 Sample.endless [] Sample.machine).map Prod.fst =
      some (.error (.execution (.fault ⟨"Sample::Endless", 2, "call"⟩
        (.stackDepthExceeded 3 2)))) := by decide +kernel
  obtain ⟨r, u, hrun, hle⟩ := invoke_returns hcatalog hkeeps Sample.endless_forward []
  obtain ⟨⟨_, u'⟩, hu', rfl⟩ := Option.map_eq_some_iff.1 hsix
  cases (hrun 6 (by decide)).symm.trans hu'
  exact ⟨_, u, hrun, hle, rfl⟩

end Machine

end CilMachine
