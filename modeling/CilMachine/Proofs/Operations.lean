/-
CilMachine/Proofs/Operations.lean

What has happened when an operation of the machine has succeeded.  There is one inversion lemma for
each operation: it says what the machine was like before, what the operation yields, and which parts
of the machine are different afterwards.
-/
import CilMachine.Proofs.Abstraction
import CilMachine.Proofs.Invocation

namespace CilMachine

variable {ε α β : Type}

theorem op_bind_eq_ok {σ : Type} {x : ExceptT ε (StateM σ) α} {f : α → ExceptT ε (StateM σ) β}
    {s u : σ} {b : β} (h : (x >>= f) s = (.ok b, u)) :
    ∃ a s', x s = (.ok a, s') ∧ f a s' = (.ok b, u) := by
  rw [op_bind_apply] at h
  rcases hx : x s with ⟨e | a, s'⟩ <;> rw [hx] at h
  · cases h
  · exact ⟨a, s', rfl, h⟩

/-- A sequence of runs that ends has failed at the first one, or has gone on to the second. -/
theorem Run.bind_eq_some {x : Run α} {f : α → Run β} {s u : Machine} {r : Except Failure β}
    (h : (x >>= f) s = some (r, u)) :
    (∃ e, x s = some (.error e, u) ∧ r = .error e) ∨
      ∃ a s', x s = some (.ok a, s') ∧ f a s' = some (r, u) := by
  rw [Run.bind_apply] at h
  rcases hx : x s with - | ⟨e | a, s'⟩ <;> rw [hx] at h
  · cases h
  · cases h
    exact .inl ⟨e, rfl, rfl⟩
  · exact .inr ⟨a, s', rfl, h⟩

/-! ### What instructions are read as -/

namespace Instruction

variable {i : Instruction} {a : Action}

/-- How an action is read off an instruction of each category. -/
inductive Reads (i : Instruction) (a : Action) : Prop
  | sequential {form : ActionForm} : i.flow = .sequential →
      sequentialForms.lookup i.mnemonic = some form → i.formAction form = .ok a → Reads i a
  | branch {target : Nat} : i.flow.isBranch = true →
      branchAction? target i.mnemonic = some a → Reads i a
  | call {m : MethodRef} : i.flow = .call → callAction? m i.mnemonic = some a → Reads i a
  | leave : i.flow = .ret → a = .leave → Reads i a

theorem reads_of_action? (h : i.action? = .ok a) : i.Reads a := by
  unfold action? at h
  cases hflow : i.flow with
  | sequential =>
      rw [hflow] at h
      dsimp only at h
      rcases hform : sequentialForms.lookup i.mnemonic with - | form <;> rw [hform] at h
      · cases h
      · exact .sequential hflow hform h
  | conditionalBranch | unconditionalBranch =>
      rw [hflow] at h
      obtain ⟨target, -, h⟩ := bind_eq_ok h
      rcases hbranch : branchAction? target i.mnemonic with - | a' <;> rw [hbranch] at h <;> cases h
      exact .branch (by rw [hflow]; rfl) hbranch
  | call =>
      rw [hflow] at h
      obtain ⟨m, -, h⟩ := bind_eq_ok h
      rcases hcall : callAction? m i.mnemonic with - | a' <;> rw [hcall] at h <;> cases h
      exact .call hflow hcall
  | ret =>
      rw [hflow] at h
      dsimp only at h
      split at h <;> cases h
      exact .leave hflow rfl
  | _ =>
      rw [hflow] at h
      cases h

end Instruction

namespace Machine

variable {ctx : Context} {i : Instruction} {s u : Machine}

theorem lift_eq_ok {x : Except ExecError α} {a : α} (h : (liftM x : Op α) s = (.ok a, u)) :
    x = .ok a ∧ s = u := by
  rw [lift_apply] at h
  rcases x with e | a' <;> cases h
  exact ⟨rfl, rfl⟩

theorem readHeap_eq_ok {f : Heap → Except ExecError α} {a : α}
    (h : readHeap f s = (.ok a, u)) : f s.heap = .ok a ∧ s = u :=
  lift_eq_ok h

/-- To read is to ask the heap, and nothing else. -/
theorem readHeap_eq (f : Heap → Except ExecError α) (s : Machine) :
    readHeap f s = ((f s.heap).mapError .execution, s) := by
  show (liftM (f s.heap) : Op α) s = _
  rw [lift_apply]

theorem readHeap_apply {f : Heap → Except ExecError α} {a : α} (h : f s.heap = .ok a) :
    readHeap f s = (.ok a, s) := by
  rw [readHeap_eq, h]
  rfl

theorem writeHeap_eq_ok {f : Heap → Except ExecError Heap} (h : writeHeap f s = (.ok (), u)) :
    ∃ k, f s.heap = .ok k ∧ u = { s with heap := k } := by
  rw [Correspondence.writeHeap_apply] at h
  rcases hf : f s.heap with e | k <;> rw [hf] at h <;> cases h
  exact ⟨k, rfl, rfl⟩

theorem recordIf_eq_ok {traced : Bool} {e : Event} (h : recordIf traced e s = (.ok (), u)) :
    u = { s with log := u.log } := by
  rw [recordIf_apply] at h
  cases h
  rfl

/-- An instruction does what its action does. -/
theorem performInstruction_eq_ok {a : Action} {e : Effect} (ha : i.action? = .ok a)
    (h : performInstruction ctx i s = (.ok e, u)) : perform ctx a s = (.ok e, u) := by
  obtain ⟨a', s₁, hlift, h⟩ := op_bind_eq_ok h
  obtain ⟨ha', rfl⟩ := lift_eq_ok hlift
  rw [ha] at ha'
  cases ha'
  exact h

theorem performInstruction_of_action {a : Action} (ha : i.action? = .ok a) (s : Machine) :
    performInstruction ctx i s = perform ctx a s := by
  rw [performInstruction, op_bind_apply, lift_apply, ha]
  rfl

theorem step_of_outcome {a : Action} {o : Outcome} (ha : i.action? = .ok a)
    (h : perform ctx a s = (.ok (.outcome o), u)) (fuel : Nat) :
    step ctx fuel i s = some (.ok o, u) := by
  rw [step, stepWith_apply, performInstruction_of_action ha, h]

theorem step_of_error {a : Action} {e : Failure} (ha : i.action? = .ok a)
    (h : perform ctx a s = (.error e, u)) (fuel : Nat) :
    step ctx fuel i s = some (.error e, u) := by
  rw [step, stepWith_apply, performInstruction_of_action ha, h]

/-! ### The top frame -/

theorem onFrame_eq_ok {φ : Frame → Except ExecError (α × Frame)} {a : α}
    (h : onFrame φ s = (.ok a, u)) :
    ∃ f F g, s.calls.frames = f :: F ∧ φ f = .ok (a, g) ∧
      u = { s with calls := { s.calls with frames := g :: F } } := by
  obtain ⟨heap, ⟨frames, entries, limit⟩, dispatch, stats, log⟩ := s
  rw [Correspondence.onFrame_apply] at h
  rcases frames with - | ⟨f, F⟩
  · cases h
  · simp only [CallStack.current, bind, Except.bind] at h
    rcases hφ : φ f with e | ⟨a', g⟩ <;> rw [hφ] at h <;> cases h
    exact ⟨f, F, g, rfl, hφ, rfl⟩

theorem onStack_eq_ok {φ : OperandStack → Except ExecError (α × OperandStack)} {a : α}
    (h : onStack φ s = (.ok a, u)) :
    ∃ f F stack, s.calls.frames = f :: F ∧ φ f.stack = .ok (a, stack) ∧
      u = { s with calls := { s.calls with frames := { f with stack } :: F } } := by
  obtain ⟨f, F, g, hs, hφ, rfl⟩ := onFrame_eq_ok h
  rcases hstack : φ f.stack with e | ⟨a', stack⟩ <;> rw [hstack] at hφ <;> cases hφ
  exact ⟨f, F, stack, hs, hstack, rfl⟩

theorem push_eq_ok {v : Value} (h : push v s = (.ok (), u)) :
    ∃ f F, s.calls.frames = f :: F ∧
      u = { s with calls := { s.calls with frames := f.push v :: F } } := by
  obtain ⟨f, F, stack, hs, hφ, rfl⟩ := onStack_eq_ok h
  cases hφ
  exact ⟨f, F, hs, rfl⟩

theorem pop_eq_ok {v : Value} (h : pop s = (.ok v, u)) :
    ∃ f F stack, s.calls.frames = f :: F ∧ f.stack = v :: stack ∧
      u = { s with calls := { s.calls with frames := { f with stack } :: F } } := by
  obtain ⟨f, F, stack, hs, hφ, rfl⟩ := onStack_eq_ok h
  rcases hstack : f.stack with - | ⟨v', rest⟩
  · rw [hstack] at hφ
    cases hφ
  · rw [hstack] at hφ
    cases hφ
    exact ⟨f, F, _, hs, hstack, rfl⟩

/-- The values that are popped lie on top of the rest, the last one uppermost. -/
theorem popMany_eq_ok {n : Nat} {vs : List Value} (h : popMany n s = (.ok vs, u)) :
    ∃ f F stack, s.calls.frames = f :: F ∧ vs.length = n ∧ f.stack = vs.reverse ++ stack ∧
      u = { s with calls := { s.calls with frames := { f with stack } :: F } } := by
  obtain ⟨f, F, stack, hs, hφ, rfl⟩ := onStack_eq_ok h
  unfold OperandStack.popMany at hφ
  split at hφ
  · cases hφ
    have hlength : (f.stack.take n).reverse.length = n := by simp [‹n ≤ _›]
    exact ⟨f, F, f.stack.drop n, hs, hlength, by simp, rfl⟩
  · cases hφ

theorem popInteger_eq_ok {op : Operation} {n : Int64} (h : popInteger op s = (.ok n, u)) :
    ∃ v, pop s = (.ok v, u) ∧ v.integer? = some n := by
  obtain ⟨v, s', hpop, h⟩ := op_bind_eq_ok h
  rcases hn : v.integer? with - | n' <;> simp only [hn] at h <;> cases h
  exact ⟨v, hpop, hn⟩

theorem popObject_eq_ok {op : Operation} {r : Handle} (h : popObject op s = (.ok r, u)) :
    pop s = (.ok (.object r), u) := by
  obtain ⟨v, s', hpop, h⟩ := op_bind_eq_ok h
  cases v with
  | object r' =>
      cases h
      exact hpop
  | _ => cases h

section Operands

variable {f : Frame} {F : List Frame} {S : OperandStack}

/-- What is on top of the operand stack is taken off. -/
theorem pop_apply {v : Value} (hs : s.calls.frames = f :: F) (hf : f.stack = v :: S) :
    pop s = (.ok v, { s with
      calls := { s.calls with frames := { f with stack := S } :: F } }) := by
  obtain ⟨heap, ⟨frames, entries, limit⟩, dispatch, stats, log⟩ := s
  obtain ⟨caller, method, arguments, locals, stack⟩ := f
  obtain rfl : frames = _ := hs
  obtain rfl : stack = _ := hf
  rfl

theorem popInteger_apply {v : Value} {n : Int64} (hs : s.calls.frames = f :: F)
    (hf : f.stack = v :: S) (hn : v.integer? = some n) (op : Operation) :
    popInteger op s = (.ok n, { s with
      calls := { s.calls with frames := { f with stack := S } :: F } }) := by
  rw [popInteger, op_bind_apply, pop_apply hs hf]
  simp only [hn]
  rfl

theorem popObject_apply {r : Handle} (hs : s.calls.frames = f :: F)
    (hf : f.stack = .object r :: S) (op : Operation) :
    popObject op s = (.ok r, { s with
      calls := { s.calls with frames := { f with stack := S } :: F } }) := by
  rw [popObject, op_bind_apply, pop_apply hs hf]
  rfl

end Operands

/-! ### The operand stack by itself -/

/-- The machine with another operand stack in its top frame. -/
def withStack (s : Machine) (S : OperandStack) : Machine :=
  { s with calls.frames := s.calls.frames.modifyHead fun f => { f with stack := S } }

section Stacks

variable {f : Frame} {F : List Frame} {S : OperandStack}

theorem withStack_eq (hs : s.calls.frames = f :: F) (S : OperandStack) :
    s.withStack S = { s with calls.frames := { f with stack := S } :: F } := by
  rw [withStack, hs]
  rfl

theorem withStack_self (hs : s.calls.frames = f :: F) (hf : f.stack = S) : s.withStack S = s := by
  rw [withStack_eq hs, ← hf, ← hs]

theorem withStack_withStack (s : Machine) (S T : OperandStack) :
    (s.withStack S).withStack T = s.withStack T := by
  simp only [withStack, List.modifyHead_modifyHead]
  rfl

/-- The arguments are taken off the stack together, in the order in which they were pushed. -/
theorem popMany_apply {args : List Value} (hs : s.calls.frames = f :: F)
    (hf : f.stack = args.reverse ++ S) {n : Nat} (hn : args.length = n) :
    popMany n s = (.ok args, s.withStack S) := by
  rw [withStack_eq hs]
  obtain ⟨heap, ⟨frames, entries, limit⟩, dispatch, stats, log⟩ := s
  obtain rfl : frames = f :: F := hs
  have hpop : f.stack.popMany n = .ok (args, S) := by
    have hlength : args.reverse.length = n := by rw [List.length_reverse, hn]
    rw [OperandStack.popMany, hf, if_pos (by simp [hn]), ← hlength, List.take_left, List.drop_left,
      List.reverse_reverse]
  rw [popMany, onStack, Correspondence.onFrame_apply]
  simp only [CallStack.current, bind, Except.bind, hpop, Except.map]
  rfl

/-- What is left is one value shorter when that has been popped. -/
theorem pop_withStack (hs : s.calls.frames = f :: F) (v : Value) :
    pop (s.withStack (v :: S)) = (.ok v, s.withStack S) := by
  rw [withStack_eq hs, withStack_eq hs]
  exact pop_apply (f := { f with stack := v :: S }) rfl rfl

theorem popInteger_withStack (hs : s.calls.frames = f :: F) {v : Value} {n : Int64}
    (hn : v.integer? = some n) (op : Operation) :
    popInteger op (s.withStack (v :: S)) = (.ok n, s.withStack S) := by
  rw [withStack_eq hs, withStack_eq hs]
  exact popInteger_apply (f := { f with stack := v :: S }) rfl rfl hn op

theorem popObject_withStack (hs : s.calls.frames = f :: F) (r : Handle) (op : Operation) :
    popObject op (s.withStack (.object r :: S)) = (.ok r, s.withStack S) := by
  rw [withStack_eq hs, withStack_eq hs]
  exact popObject_apply (f := { f with stack := .object r :: S }) rfl rfl op

theorem push_withStack (hs : s.calls.frames = f :: F) (v : Value) :
    push v (s.withStack S) = (.ok (), s.withStack (v :: S)) := by
  obtain ⟨heap, ⟨frames, entries, limit⟩, dispatch, stats, log⟩ := s
  obtain rfl : frames = f :: F := hs
  rfl

end Stacks

/-! ### Allocation -/

theorem allocateObject_apply (ctx : Context) (type : TypeRef) (s : Machine) :
    allocateObject ctx type s = match ctx.catalog.instanceFields type with
      | .ok layout => (.ok s.heap.next, { s with
          heap := (s.heap.alloc (.blank type layout)).2
          stats := { s.stats with allocations := s.stats.allocations + 1 }
          log := if ctx.tracing.heap then s.log.push (.allocated type.name s.heap.next)
            else s.log })
      | .error e => (.error (.execution e), s) := by
  rw [allocateObject, op_bind_apply, lift_apply]
  rcases ctx.catalog.instanceFields type with e | layout
  · rfl
  · dsimp only [Except.mapError]
    rw [op_bind_apply, Correspondence.allocate_apply]
    dsimp only
    rw [op_bind_apply, recordIf_apply]
    rfl

theorem allocate_eq_ok {f : Heap → Except ExecError (Handle × Heap)} {r : Handle}
    (h : allocate f s = (.ok r, u)) :
    ∃ k, f s.heap = .ok (r, k) ∧ u = { s with heap := k, stats := u.stats } := by
  rw [Correspondence.allocate_apply] at h
  rcases hf : f s.heap with e | ⟨r', k⟩ <;> rw [hf] at h <;> cases h
  exact ⟨k, rfl, rfl⟩

theorem allocateObject_eq_ok {type : TypeRef} {r : Handle}
    (h : allocateObject ctx type s = (.ok r, u)) :
    ∃ layout, ctx.catalog.instanceFields type = .ok layout ∧ r = s.heap.next ∧
      u = { s with
        heap := (s.heap.alloc (.blank type layout)).2
        stats := u.stats
        log := u.log } := by
  rw [allocateObject_apply] at h
  rcases hlayout : ctx.catalog.instanceFields type with e | layout <;> rw [hlayout] at h <;> cases h
  exact ⟨layout, rfl, rfl, rfl⟩

/-- The call of a constructor is ready: the new object comes before the arguments, and is the only
thing that is new on the heap. -/
theorem prepareConstruction_eq_ok {ctor : MethodRef} {args : List Value} {r : Handle} {c : Call}
    (h : prepareConstruction ctx ctor args s = (.ok (r, c), u)) :
    ∃ m layout, ctx.catalog.resolveConstructor ctor = .ok m ∧ args.length = m.paramCount ∧
      ctx.catalog.instanceFields ctor.declaring = .ok layout ∧ r = s.heap.next ∧
      c = ⟨m, .object r :: args, some r⟩ ∧
      u = { s with
        heap := (s.heap.alloc (.blank ctor.declaring layout)).2
        stats := u.stats
        log := u.log } := by
  obtain ⟨m, s₁, hlift, h⟩ := op_bind_eq_ok h
  obtain ⟨hm, rfl⟩ := lift_eq_ok hlift
  split at h
  · cases h
  · rename_i hlength
    obtain ⟨r', s₂, hr, h⟩ := op_bind_eq_ok h
    obtain ⟨layout, hlayout, rfl, hs₂⟩ := allocateObject_eq_ok hr
    cases h
    exact ⟨m, layout, hm, not_not.1 hlength, hlayout, rfl, rfl, hs₂⟩

end Machine

end CilMachine
