/-
CilMachine/Proofs/Restoration.lean

The host's operations restore the call stack.  The machine's own invocation leaves the frames of its
caller as they were, but for the value that it returns; the host takes that value off the entry
frame, and after a failure there is nothing that it would have to take off.  So an invocation is
refused before anything has happened, or it leaves the frames that it began with, one entry frame at
the least (`invoke_eq_some`).  A construction does not take off what its constructor returns, so it
restores the stack where the constructor returns nothing.

Operations one after another therefore find the headroom that the first one found
(`operations_restore`).
-/
import CilMachine.Proofs.Entry
import CilMachine.Proofs.Headroom

namespace CilMachine

namespace CallStack

variable {c d e : CallStack}

/-- The stack is as it was, or it was empty and is a single entry frame that holds nothing. -/
def Restored (c d : CallStack) : Prop := d = c ∨ c.frames = [] ∧ d = c.pushEntry

theorem Restored.refl (c : CallStack) : c.Restored c := .inl rfl

theorem Restored.trans (hcd : c.Restored d) (hde : d.Restored e) : c.Restored e := by
  rcases hcd with rfl | ⟨hc, rfl⟩
  · exact hde
  · rcases hde with rfl | ⟨hd, -⟩
    · exact .inr ⟨hc, rfl⟩
    · cases hd

theorem Restored.limit_eq (h : c.Restored d) : d.limit = c.limit := by
  rcases h with rfl | ⟨-, rfl⟩ <;> rfl

theorem Restored.wellFormed (h : c.Restored d) (hc : c.WellFormed) : d.WellFormed := by
  rcases h with rfl | ⟨-, rfl⟩
  · exact hc
  · exact hc.pushEntry

/-- An entry frame takes up no depth. -/
theorem Restored.depth_eq (h : c.Restored d) : d.depth = c.depth := by
  rcases h with rfl | ⟨hc, rfl⟩
  · rfl
  · simp [depth, pushEntry, hc]

theorem Restored.headroom_eq (h : c.Restored d) : d.headroom = c.headroom := by
  rw [headroom, headroom, h.limit_eq, h.depth_eq]

end CallStack

namespace Machine

variable {ctx : Context} {fuel : Nat} {ctor : MethodRef} {args : List Value} {s u : Machine}

/-! ### Constructions -/

theorem allocateObject_calls (ctx : Context) (type : TypeRef) (s : Machine) :
    (allocateObject ctx type s).2.calls = s.calls := by
  rw [allocateObject, op_bind_apply, lift_apply]
  rcases ctx.catalog.instanceFields type with e | layout
  · rfl
  · show (allocate _ >>= _ : Op Handle) s |>.2.calls = _
    rw [op_bind_apply, Correspondence.allocate_apply]
    dsimp only
    rw [op_bind_apply, recordIf_apply]
    rfl

/-- To make a construction ready does not concern the frames. -/
theorem prepareConstruction_calls (ctx : Context) (ctor : MethodRef) (args : List Value)
    (s : Machine) : (prepareConstruction ctx ctor args s).2.calls = s.calls := by
  rw [prepareConstruction, op_bind_apply, lift_apply]
  rcases ctx.catalog.resolveConstructor ctor with e | m
  · rfl
  · show (if args.length ≠ m.paramCount then throw _ else _ : Op _) s |>.2.calls = _
    split
    · rfl
    · have hcalls := allocateObject_calls ctx ctor.declaring s
      show (allocateObject ctx ctor.declaring >>= _ : Op _) s |>.2.calls = _
      rw [op_bind_apply]
      rcases ha : allocateObject ctx ctor.declaring s with ⟨e | r, u⟩ <;> rw [ha] at hcalls <;>
        exact hcalls

/-- A construction leaves the frames as they were if its constructor returns nothing. -/
theorem construct_calls {r : Except Failure Handle}
    (hctor : ∀ m, ctx.catalog.resolveConstructor ctor = .ok m → m.returnsValue = false)
    (h : construct ctx fuel ctor args s = some (r, u)) : u.calls = s.calls := by
  have hcalls := prepareConstruction_calls ctx ctor args s
  rw [construct_apply] at h
  rcases hp : prepareConstruction ctx ctor args s with ⟨e | ⟨q, c⟩, t⟩ <;> rw [hp] at h hcalls
  · cases h
    exact hcalls
  · obtain ⟨m, -, hm, -, -, -, rfl, -⟩ := prepareConstruction_eq_ok hp
    obtain ⟨⟨a, u'⟩, hrun, heq⟩ := Option.map_eq_some_iff.1 h
    cases heq
    have hu := invoke_calls ctx fuel _ _ _ _ _ hrun
    rw [hu, ← hcalls]
    rcases a with e | v
    · rfl
    · have hnone : v.isSome = false := (invoke_isSome hrun).trans (hctor m hm)
      obtain rfl := Option.not_isSome_iff_eq_none.1 (Bool.eq_false_iff.1 hnone)
      rfl

end Machine

namespace Host

open Machine

variable {ctx : Context} {fuel : Nat} {ref ctor : MethodRef} {args : List Value} {s s' u : Machine}

/-! ### What the host adds -/

theorem restored_atEntry (s : Machine) : s.calls.Restored (atEntry s).calls := by
  unfold atEntry
  split
  · exact .inr ⟨List.isEmpty_iff.1 ‹_›, rfl⟩
  · exact .refl _

/-! ### Operations -/

theorem invoke_restores {r : Except Failure (Option Value)}
    (h : Host.invoke ctx fuel ref args s = some (r, s')) : s.calls.Restored s'.calls := by
  rcases invoke_eq_some h with ⟨rfl, -⟩ | ⟨m, u, -, -, -, heq⟩
  · exact .refl _
  · rw [heq]
    exact restored_atEntry s

theorem construct_restores {r : Except Failure Handle}
    (hctor : ∀ m, ctx.catalog.resolveConstructor ctor = .ok m → m.returnsValue = false)
    (h : Host.construct ctx fuel ctor args s = some (r, s')) : s.calls.Restored s'.calls := by
  obtain ⟨u, hrun, heq⟩ := construct_eq_some h
  rw [heq]
  show s.calls.Restored u.calls
  rw [construct_calls hctor hrun]
  exact restored_atEntry s

/-- Wherever the host gets to, the call stack counts its entry frames. -/
theorem Reached.wellFormed (h : Reached ctx s) : s.calls.WellFormed := by
  induction h with
  | start config => exact CallStack.wellFormed_ofLimit _
  | invoke _ hinvoke ih => exact (invoke_restores hinvoke).wellFormed ih
  | @construct _ _ _ s _ _ _ hconstruct ih =>
      obtain ⟨u, hrun, rfl⟩ := construct_eq_some hconstruct
      exact (construct_continues hrun).wellFormed ((restored_atEntry s).wellFormed ih)
  | @allocString s text _ ih =>
      have hcalls : (Host.allocString ctx text s).2.calls = s.calls := by
        rw [Host.allocString, op_bind_apply, onHeap_apply]
        rcases (Native.allocString ctx.catalog.headers text).run.run s.heap with ⟨e | r, k⟩ <;> rfl
      rwa [CallStack.WellFormed, hcalls]

/-- The machine `u` has come about from `s` by operations one after another, whether they succeeded
or failed: invocations, and constructions with constructors that return nothing.  Types may have
been registered in between. -/
inductive Operates (s : Machine) : Machine → Prop
  | start : Operates s s
  | invoke {ctx : Context} {fuel : Nat} {ref : MethodRef} {args : List Value} {t u : Machine}
      {r : Except Failure (Option Value)} : Operates s t →
      Host.invoke ctx fuel ref args t = some (r, u) → Operates s u
  | construct {ctx : Context} {fuel : Nat} {ctor : MethodRef} {args : List Value} {t u : Machine}
      {r : Except Failure Handle} : Operates s t →
      (∀ m, ctx.catalog.resolveConstructor ctor = .ok m → m.returnsValue = false) →
      Host.construct ctx fuel ctor args t = some (r, u) → Operates s u

theorem Operates.restored (h : Operates s u) : s.calls.Restored u.calls := by
  induction h with
  | start => exact .refl _
  | invoke _ hinvoke ih => exact ih.trans (invoke_restores hinvoke)
  | construct _ hctor hconstruct ih => exact ih.trans (construct_restores hctor hconstruct)

/-- **The host's operations restore the call stack.**  An invocation, and a construction with a
constructor that returns nothing, leaves the frames as they were, whatever comes of it; where there
were none, it may leave a single entry frame, which holds nothing.  So do any number of them, and
then there is just the headroom that there was. -/
theorem operations_restore (s : Machine) :
    (∀ ctx fuel ref args r s', Host.invoke ctx fuel ref args s = some (r, s') →
      s.calls.Restored s'.calls) ∧
    (∀ ctx fuel ctor args r s',
      (∀ m, ctx.catalog.resolveConstructor ctor = .ok m → m.returnsValue = false) →
      Host.construct ctx fuel ctor args s = some (r, s') → s.calls.Restored s'.calls) ∧
    ∀ u, Operates s u →
      s.calls.Restored u.calls ∧ u.calls.depth = s.calls.depth ∧
        u.calls.headroom = s.calls.headroom := by
  refine ⟨fun _ _ _ _ _ _ h => invoke_restores h,
    fun _ _ _ _ _ _ hctor h => construct_restores hctor h, fun u h => ?_⟩
  exact ⟨h.restored, h.restored.depth_eq, h.restored.headroom_eq⟩

/-- A failing invocation and a construction, on a machine without frames. -/
theorem operations_restore_fail :
    ∃ u v e r, Host.invoke Sample.context 9 Sample.fail.ref [] (ofConfig {}) = some (.error e, u) ∧
      Host.construct Sample.context 9 Sample.ctor.ref [] u = some (.ok r, v) ∧
      v.calls = (ofConfig {}).calls.pushEntry ∧
      v.calls.headroom = (ofConfig {}).calls.headroom := by
  have hrun : (do
      let (r, u) ← Host.invoke Sample.context 9 Sample.fail.ref [] (ofConfig {})
      let (q, v) ← Host.construct Sample.context 9 Sample.ctor.ref [] u
      return (r.isOk, q.isOk, v.calls.size)) = some (false, true, 1) := by decide +kernel
  obtain ⟨⟨e | x, u⟩, hu, hrun⟩ := Option.bind_eq_some_iff.1 hrun
  · obtain ⟨⟨e' | q, v⟩, hv, hrun⟩ := Option.bind_eq_some_iff.1 hrun
    · cases hrun
    · have hctor : ∀ m, Sample.context.catalog.resolveConstructor Sample.ctor.ref = .ok m →
          m.returnsValue = false := by
        rintro m ⟨⟩
        rfl
      have hoperates : Operates (ofConfig {}) v := .construct (.invoke .start hu) hctor hv
      obtain ⟨hrestored, -, hheadroom⟩ := (operations_restore (ofConfig {})).2.2 v hoperates
      refine ⟨u, v, e, q, hu, hv, ?_, hheadroom⟩
      rcases hrestored with hsame | ⟨-, hentry⟩
      · simp [hsame, ofConfig, CallStack.ofLimit, CallStack.size] at hrun
      · exact hentry
  · obtain ⟨_, -, hrun⟩ := Option.bind_eq_some_iff.1 hrun
    cases hrun

end Host

end CilMachine
