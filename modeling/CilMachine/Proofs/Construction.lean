/-
CilMachine/Proofs/Construction.lean

What `newobj` leaves behind.  It takes the arguments of the constructor off the operand stack, adds
a blank object under the next handle, runs the constructor on that handle and the arguments, and
pushes the handle (`step_newObject`).

The constructor runs like any other method, so the value that it returns, if it is declared to
return one, is pushed on the caller's operand stack first.  Nothing keeps a constructor from being
declared like that: the handle is all that is left exactly where the constructor returns nothing.
-/
import CilMachine.Proofs.Operations
import CilMachine.Proofs.FrameDiscipline

namespace CilMachine

namespace Machine

variable {ctx : Context} {fuel : Nat} {i : Instruction} {ctor : MethodRef} {c : Call} {m : Method}
  {args : List Value} {r : Handle} {s s' u : Machine}

/-! ### Before and after the constructor -/

/-- The frame that is on top when the constructor has been prepared has lost the arguments. -/
theorem perform_newObject_eq_ok {e : Effect} {f : Frame} {F : List Frame} {S : OperandStack}
    (hframes : s.calls.frames = f :: F) (hstack : f.stack = args.reverse ++ S)
    (hlength : args.length = ctor.paramCount)
    (h : perform ctx (.newObject ctor) s = (.ok e, u)) :
    ∃ m layout, ctx.catalog.resolveConstructor ctor = .ok m ∧
      ctx.catalog.instanceFields ctor.declaring = .ok layout ∧
      e = .call ⟨m, .object s.heap.next :: args, some s.heap.next⟩ ∧
      u.heap = (s.heap.alloc (.blank ctor.declaring layout)).2 ∧
      u.calls.frames = { f with stack := S } :: F := by
  obtain ⟨vs, s₁, hpop, h⟩ := op_bind_eq_ok h
  obtain ⟨g, G, stack, hframes', hcount, hstack', hs₁⟩ := popMany_eq_ok hpop
  obtain ⟨⟨q, c⟩, s₂, hprepare, h⟩ := op_bind_eq_ok h
  obtain ⟨m, layout, hm, -, hlayout, rfl, rfl, hs₂⟩ := prepareConstruction_eq_ok hprepare
  cases h
  rw [hframes] at hframes'
  cases hframes'
  -- the operand stack splits in one way only
  have hsplit : args.reverse ++ S = vs.reverse ++ stack := hstack.symm.trans hstack'
  have hlengths : args.reverse.length = vs.reverse.length := by simp [hlength, hcount]
  obtain ⟨hargs, rfl⟩ := List.append_inj hsplit hlengths
  obtain rfl : args = vs := List.reverse_injective hargs
  have hheap : s₁.heap = s.heap := by rw [hs₁]
  refine ⟨m, layout, hm, hlayout, by rw [hheap], ?_, ?_⟩
  · rw [hs₂, hheap]
  · rw [hs₂, hs₁]

/-- When the constructor has returned, what it returns lies below the handle that is pushed. -/
theorem settle_call_eq_ok {o : Outcome} {f : Frame} {F : List Frame}
    (hcreated : c.created = some r) (hframes : u.calls.frames = f :: F)
    (h : settle (invoke ctx fuel) (.call c) u = some (.ok o, s')) :
    ∃ v u', invoke ctx fuel c.method c.arguments u = some (.ok v, u') ∧ o = .next ∧
      s'.heap = u'.heap ∧
      s'.calls.frames = { f with stack := .object r :: (v.toList ++ f.stack) } :: F := by
  rw [settle_call_apply] at h
  rcases hrun : invoke ctx fuel c.method c.arguments u with - | ⟨e | v, u'⟩ <;> rw [hrun] at h
  · cases h
  · cases h
  · -- the invocation itself delivers its value to the caller, whoever the caller is
    have hcalls : u'.calls = u.calls.afterCall (.ok v : Except Failure (Option Value)) :=
      invoke_calls ctx fuel _ _ _ _ _ hrun
    have hframes' : u'.calls.frames = { f with stack := v.toList ++ f.stack } :: F := by
      rw [hcalls]
      rcases v with - | v
      · exact hframes
      · simp only [CallStack.afterCall, CallStack.deliver, hframes]
        rfl
    simp only [hcreated] at h
    rw [push_apply hframes'] at h
    cases h
    refine ⟨v, u', rfl, rfl, rfl, ?_⟩
    simp only [CallStack.deliver, hframes']
    rfl

/-! ### The instruction -/

/-- **What `newobj` leaves.**  Let the operand stack be `args` on top of `S`, and let the
instruction succeed.  Then the handle was not live before; when the constructor starts, it names an
instance of just the type that was asked for, with every field at its default; and the constructor
runs in a frame whose arguments are the handle and `args`.  Afterwards the stack is `S` with the
handle on top, and between them what the constructor returns; so it is `S` and the handle if and
only if the constructor is not declared to return a value. -/
theorem step_newObject {o : Outcome} {f : Frame} {F : List Frame} {S : OperandStack}
    (hi : i.action? = .ok (.newObject ctor)) (hframes : s.calls.frames = f :: F)
    (hstack : f.stack = args.reverse ++ S) (hlength : args.length = ctor.paramCount)
    (h : step ctx fuel i s = some (.ok o, s')) :
    ∃ m layout u calls v u',
      ctx.catalog.resolveConstructor ctor = .ok m ∧
      ctx.catalog.instanceFields ctor.declaring = .ok layout ∧
      ¬ s.heap.contains s.heap.next ∧
      u.heap = (s.heap.alloc (.blank ctor.declaring layout)).2 ∧
      u.heap.get? s.heap.next = some (.blank ctor.declaring layout) ∧
      u.calls.push m (.object s.heap.next :: args) = .ok calls ∧
      calls.frames = .ofMethod f.method m (.object s.heap.next :: args) ::
        { f with stack := S } :: F ∧
      invoke ctx fuel m (.object s.heap.next :: args) u = some (.ok v, u') ∧
      o = .next ∧ s'.heap = u'.heap ∧ v.isSome = m.returnsValue ∧
      s'.calls.frames = { f with stack := .object s.heap.next :: (v.toList ++ S) } :: F ∧
      (s'.calls.frames = { f with stack := .object s.heap.next :: S } :: F ↔
        m.returnsValue = false) := by
  rw [step, stepWith_apply] at h
  rcases hp : performInstruction ctx i s with ⟨e | e, u⟩ <;> rw [hp] at h
  · cases h
  · obtain ⟨m, layout, hm, hlayout, rfl, hheap, hu⟩ :=
      perform_newObject_eq_ok hframes hstack hlength (performInstruction_eq_ok hi hp)
    obtain ⟨v, u', hrun, rfl, hheap', hframes'⟩ := settle_call_eq_ok rfl hu h
    have hlive : ¬ s.heap.contains s.heap.next := by
      simp [Heap.contains, Heap.next]
    have hobject : u.heap.get? s.heap.next = some (.blank ctor.declaring layout) := by
      rw [hheap]
      exact s.heap.get?_alloc_next _
    have hsome : v.isSome = m.returnsValue := invoke_isSome hrun
    -- the invocation has succeeded, so its frame was not refused
    obtain ⟨w, hcompletes⟩ := completes_of_invoke hrun
    obtain ⟨hpush, -⟩ := hcompletes
    rename_i fuel calls
    have hcalls : calls.frames = .ofMethod f.method m (.object s.heap.next :: args) ::
        { f with stack := S } :: F := by
      unfold CallStack.push at hpush
      split at hpush
      · cases hpush
        simp [hu]
      · cases hpush
    refine ⟨m, layout, u, calls, v, u', hm, hlayout, hlive, hheap, hobject, hpush, hcalls, hrun,
      rfl, hheap', hsome, hframes', ?_⟩
    rw [hframes', ← hsome]
    -- the two stacks are one if and only if there is no value between
    rcases v with - | v
    · simp
    · simp

end Machine

/-! ### Sample constructors -/

namespace Sample

/-- The type of pairs of integers. -/
def pair : TypeRef := ⟨"Sample", "Pair"⟩

/-- Stores its two arguments in the fields of the new pair. -/
def pairCtor : Method where
  declaring := pair
  name := constructorName
  modifiers := {}
  params := [.corelib "System.Int32", .corelib "System.Int32"]
  returns := none
  locals := []
  body := .interpreted ⟨#[⟨0, 1, "ldarg.0", .sequential, .none⟩,
    ⟨1, 1, "ldarg.1", .sequential, .none⟩,
    ⟨2, 5, "stfld", .sequential, .field ⟨pair, "First"⟩⟩,
    ⟨7, 1, "ldarg.0", .sequential, .none⟩, ⟨8, 1, "ldarg.2", .sequential, .none⟩,
    ⟨9, 5, "stfld", .sequential, .field ⟨pair, "Second"⟩⟩, ⟨14, 1, "ret", .ret, .none⟩], by simp⟩

/-- A constructor that is declared to return an integer, and returns 7. -/
def returningCtor : Method := { ctor with returns := seven.returns, body := seven.body }

def constructorContext : Context where
  catalog := { types := [
    { ref := pair, flavor := .classType, base := none
      fields := [⟨"First", .corelib "System.Int32"⟩, ⟨"Second", .corelib "System.Int32"⟩]
      methods := [pairCtor] },
    { ref := type, flavor := .classType, base := none, fields := [], methods := [returningCtor] },
    { ref := .corelib "System.Int32", flavor := .i4, base := none, fields := [], methods := [] }] }

/-- A machine with the given operand stack. -/
def stacked (stack : OperandStack) : Machine where
  calls := { frames := [{ stack }], entries := 1, limit := 2 }

def newobj (ctor : Method) : Instruction := ⟨0, 5, "newobj", .call, .method ctor.ref⟩

end Sample

namespace Machine

/-- A constructor of two arguments gets them in the order in which they were pushed, and leaves the
new pair on what was below them. -/
theorem step_newObject_pair :
    ∃ s', step Sample.constructorContext 9 (Sample.newobj Sample.pairCtor)
        (Sample.stacked [.int32 2, .int32 1, .int32 5]) = some (.ok .next, s') ∧
      s'.calls.frames = [{ stack := [.object ⟨1⟩, .int32 5] }] ∧
      s'.heap.get? ⟨1⟩ =
        some (.record Sample.pair [("First", .int32 1), ("Second", .int32 2)]) := by
  have hrun : (step Sample.constructorContext 9 (Sample.newobj Sample.pairCtor)
      (Sample.stacked [.int32 2, .int32 1, .int32 5])).map (fun p => (p.1, p.2.heap.get? ⟨1⟩)) =
      some (.ok .next, some (.record Sample.pair [("First", .int32 1), ("Second", .int32 2)])) := by
    decide +kernel
  obtain ⟨⟨_, s'⟩, hs', heq⟩ := Option.map_eq_some_iff.1 hrun
  obtain ⟨rfl, hpair⟩ := Prod.mk.inj heq
  have hi : (Sample.newobj Sample.pairCtor).action? = .ok (.newObject Sample.pairCtor.ref) := by
    decide +kernel
  have hframes : (Sample.stacked [.int32 2, .int32 1, .int32 5]).calls.frames =
      [{ stack := [.int32 1, .int32 2].reverse ++ [.int32 5] }] := rfl
  obtain ⟨m, _, _, _, _, _, hm, -, -, -, -, -, -, -, -, -, -, -, hleft⟩ :=
    step_newObject hi hframes rfl rfl hs'
  have hctor : Sample.constructorContext.catalog.resolveConstructor Sample.pairCtor.ref =
      .ok Sample.pairCtor := by rfl
  rw [hctor] at hm
  cases hm
  exact ⟨s', hs', hleft.2 rfl, hpair⟩

/-- It is not so that the handle is all that is left, whatever the constructor: here the constructor
returns 7, which stays on the stack. -/
theorem step_newObject_returning :
    ¬ ∀ (ctx : Context) (fuel : Nat) (i : Instruction) (ctor : MethodRef) (s s' : Machine)
        (o : Outcome) (f : Frame) (F : List Frame) (args : List Value) (S : OperandStack),
        i.action? = .ok (.newObject ctor) → s.calls.frames = f :: F →
        f.stack = args.reverse ++ S → args.length = ctor.paramCount →
        step ctx fuel i s = some (.ok o, s') →
        s'.calls.frames = { f with stack := .object s.heap.next :: S } :: F := by
  intro hclaim
  have hi : (Sample.newobj Sample.returningCtor).action? =
      .ok (.newObject Sample.returningCtor.ref) := by decide +kernel
  have hrun : (step Sample.constructorContext 9 (Sample.newobj Sample.returningCtor)
      (Sample.stacked [])).map (fun p => (p.1, p.2.calls.frames.map Frame.stack)) =
      some (.ok .next, [[.object ⟨1⟩, .int32 7]]) := by decide +kernel
  obtain ⟨⟨_, s'⟩, hs', heq⟩ := Option.map_eq_some_iff.1 hrun
  obtain ⟨rfl, hstacks⟩ := Prod.mk.inj heq
  have hframes := hclaim _ _ _ _ _ s' _ _ _ [] [] hi rfl rfl rfl hs'
  rw [hframes] at hstacks
  cases hstacks

end Machine

end CilMachine
