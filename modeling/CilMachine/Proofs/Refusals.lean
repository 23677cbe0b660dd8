/-
CilMachine/Proofs/Refusals.lean

Only decoding refuses an instruction.  Once an instruction has been read, what it does may fail in
many ways, but not in this one: no action says that nothing executes it, or that its operand is of
the wrong kind (`neverRefuses_perform`).

The proof follows the actions.  Each is a chain of basic operations, of which none refuses.
-/
import CilMachine.Proofs.Abstraction

namespace CilMachine

open Correspondence

variable {α β : Type}

/-- The failure is a refusal, and does not say where it arose. -/
def Failure.IsRefusal : Failure → Prop
  | execution e => e.isRefusal = true
  | _ => False

/-- The computation never fails with a refusal. -/
abbrev Unrefused (x : Except ExecError α) : Prop := Only (fun e => e.isRefusal = false) x

theorem OnlyPlain.unrefused {x : Except ExecError α} (h : OnlyPlain x) : Unrefused x :=
  h.imp fun _ he => Bool.not_eq_true' _ ▸ (Bool.and_eq_true_iff.1 he).2

/-! ### The heap -/

namespace Heap

variable (h : Heap) (r : Handle)

theorem get_unrefused : Unrefused (h.get r) := by
  unfold get
  split
  · exact only_ok
  · exact only_error rfl

theorem getRecord_unrefused : Unrefused (h.getRecord r) := by
  refine (h.get_unrefused r).bind fun o _ => ?_
  split
  · exact only_ok
  · exact only_error rfl

theorem getField_unrefused (name : String) : Unrefused (h.getField r name) := by
  refine (h.getRecord_unrefused r).bind fun record _ => ?_
  dsimp only
  split
  · exact only_ok
  · exact only_error rfl

theorem setField_unrefused (name : String) (v : Value) : Unrefused (h.setField r name v) := by
  refine (h.getRecord_unrefused r).bind fun record _ => ?_
  dsimp only
  split
  · exact only_ok
  · exact only_error rfl

theorem getArray_unrefused : Unrefused (h.getArray r) := by
  refine (h.get_unrefused r).bind fun o _ => ?_
  split
  · exact only_ok
  · exact only_error rfl

theorem getValues_unrefused : Unrefused (h.getValues r) := by
  refine (h.get_unrefused r).bind fun o _ => ?_
  split
  · exact only_ok
  · exact only_error rfl

theorem getSlots_unrefused : Unrefused (h.getSlots r) := by
  refine (h.get_unrefused r).bind fun o _ => ?_
  split
  · exact only_ok
  · exact only_error rfl

/-- An access at an index refuses nothing, whatever it comes to where the index is in range. -/
theorem indexed_unrefused {x : Except ExecError β} (hx : Unrefused x) (index : Int)
    (size : β → Nat) (g : β → Nat → α) :
    Unrefused (x >>= fun b => checkedIndex index (size b) >>= fun i => .ok (g b i)) :=
  hx.bind fun _ _ => (checkedIndex_onlyPlain index _).unrefused.bind fun _ _ => only_ok

theorem getElement_unrefused (index : Int) : Unrefused (h.getElement r index) :=
  indexed_unrefused (h.getValues_unrefused r) index _ _

theorem getReference_unrefused (index : Int) : Unrefused (h.getReference r index) :=
  indexed_unrefused (h.getSlots_unrefused r) index _ _

theorem setElement_unrefused (index : Int) (v : Value) : Unrefused (h.setElement r index v) :=
  indexed_unrefused (h.getValues_unrefused r) index _ _

theorem setReference_unrefused (index : Int) (slot : Option Handle) :
    Unrefused (h.setReference r index slot) :=
  indexed_unrefused (h.getSlots_unrefused r) index _ _

theorem allocArray_unrefused (element : TypeRef) (flavor : Flavor) (length : Nat) :
    Unrefused (h.allocArray element flavor length) := by
  unfold allocArray
  split
  · exact only_ok
  · exact only_error rfl

end Heap

/-! ### Frames -/

theorem Locals.get_onlyPlain (ls : Locals) (index : Nat) : OnlyPlain (ls.get index) := by
  unfold get
  split
  · exact only_ok
  · exact only_error rfl

theorem Locals.set_onlyPlain (ls : Locals) (index : Nat) (v : Value) :
    OnlyPlain (ls.set index v) := by
  unfold set
  split
  · split
    · exact only_ok
    · exact only_error rfl
  · exact only_error rfl

theorem Frame.argument_onlyPlain (f : Frame) (index : Nat) : OnlyPlain (f.argument index) := by
  unfold argument
  split
  · exact only_ok
  · exact only_error rfl

namespace Machine

variable {ctx : Context}

/-- The operation never fails with a refusal, whatever the machine. -/
def NeverRefuses (x : Op α) : Prop := ∀ s, Only (fun f => ¬ f.IsRefusal) (x s).1

namespace NeverRefuses

theorem pure (a : α) : NeverRefuses (Pure.pure a : Op α) := fun _ => only_ok

theorem throw {f : Failure} (hf : ¬ f.IsRefusal) : NeverRefuses (MonadExcept.throw f : Op α) :=
  fun _ => only_error hf

theorem throw_bind {f : Failure} (hf : ¬ f.IsRefusal) (g : α → Op β) :
    NeverRefuses ((MonadExcept.throw f : Op α) >>= g) := fun _ => only_error hf

theorem bind {x : Op α} {g : α → Op β} (hx : NeverRefuses x) (hg : ∀ a, NeverRefuses (g a)) :
    NeverRefuses (x >>= g) := by
  intro s
  have hs := hx s
  rw [op_bind_apply]
  rcases h : x s with ⟨e | a, u⟩ <;> rw [h] at hs
  · exact only_error (hs e rfl)
  · exact hg a u

theorem discard {x : Op α} (hx : NeverRefuses x) : NeverRefuses (Functor.discard x) := by
  intro s
  rw [op_discard_apply]
  exact (hx s).map _

theorem thenProceed {x : Op α} (hx : NeverRefuses x) : NeverRefuses (x >>= fun _ => proceed) :=
  hx.bind fun _ => pure _

end NeverRefuses

/-! ### Basic operations -/

theorem not_isRefusal_rejected (op : Operation) (v : Value) : ¬ (rejected op v).IsRefusal := nofun

theorem neverRefuses_lift {x : Except ExecError α} (hx : Unrefused x) :
    NeverRefuses (liftM x : Op α) := by
  intro s
  rw [lift_apply]
  rcases x with e | a
  · exact only_error (Bool.eq_false_iff.1 (hx e rfl))
  · exact only_ok

theorem neverRefuses_plain {x : Except ExecError α} (hx : OnlyPlain x) :
    NeverRefuses (liftM x : Op α) := neverRefuses_lift hx.unrefused

theorem neverRefuses_frame : NeverRefuses frame := by
  intro s
  refine neverRefuses_plain (?_ : OnlyPlain s.calls.current) s
  unfold CallStack.current
  split
  · exact only_ok
  · exact only_error rfl

theorem neverRefuses_onFrame {φ : Frame → Except ExecError (α × Frame)}
    (h : ∀ f, OnlyPlain (φ f)) : NeverRefuses (onFrame φ) := by
  refine neverRefuses_frame.bind fun f => (neverRefuses_plain (h f)).bind fun p => ?_
  exact fun _ => only_ok

theorem neverRefuses_onStack {φ : OperandStack → Except ExecError (α × OperandStack)}
    (h : ∀ S, OnlyPlain (φ S)) : NeverRefuses (onStack φ) :=
  neverRefuses_onFrame fun f => (h f.stack).map _

theorem neverRefuses_push (v : Value) : NeverRefuses (push v) :=
  neverRefuses_onStack fun _ => only_ok

theorem neverRefuses_pop : NeverRefuses pop := by
  refine neverRefuses_onStack fun S => ?_
  unfold OperandStack.pop
  split
  · exact only_error rfl
  · exact only_ok

theorem neverRefuses_popMany (n : Nat) : NeverRefuses (popMany n) := by
  refine neverRefuses_onStack fun S => ?_
  unfold OperandStack.popMany
  split
  · exact only_ok
  · exact only_error rfl

theorem neverRefuses_dup : NeverRefuses dup := by
  refine neverRefuses_onStack fun S => Only.map ?_ _
  unfold OperandStack.dup
  split
  · exact only_error rfl
  · exact only_ok

theorem neverRefuses_setLocal (index : Nat) (v : Value) : NeverRefuses (setLocal index v) :=
  neverRefuses_onFrame fun f => (f.locals.set_onlyPlain index v).map _

theorem neverRefuses_popInteger (op : Operation) : NeverRefuses (popInteger op) := by
  refine neverRefuses_pop.bind fun v => ?_
  split
  · exact .pure _
  · exact .throw (not_isRefusal_rejected _ _)

theorem neverRefuses_popObject (op : Operation) : NeverRefuses (popObject op) := by
  refine neverRefuses_pop.bind fun v => ?_
  split
  · exact .pure _
  · exact .throw nofun
  · exact .throw (not_isRefusal_rejected _ _)

theorem neverRefuses_popSlot : NeverRefuses popSlot := by
  refine neverRefuses_pop.bind fun v => ?_
  split
  · exact .pure _
  · exact .pure _
  · exact .throw (not_isRefusal_rejected _ _)

theorem neverRefuses_readHeap {g : Heap → Except ExecError α} (h : ∀ k, Unrefused (g k)) :
    NeverRefuses (readHeap g) :=
  fun s => neverRefuses_lift (h s.heap) s

theorem neverRefuses_writeHeap {g : Heap → Except ExecError Heap} (h : ∀ k, Unrefused (g k)) :
    NeverRefuses (writeHeap g) := by
  intro s
  refine ((neverRefuses_lift (h s.heap)).bind fun k => ?_) s
  exact fun _ => only_ok

theorem neverRefuses_allocate {g : Heap → Except ExecError (Handle × Heap)}
    (h : ∀ k, Unrefused (g k)) : NeverRefuses (allocate g) := by
  intro s
  refine ((neverRefuses_lift (h s.heap)).bind fun p => ?_) s
  exact fun _ => only_ok

theorem neverRefuses_recordIf (traced : Bool) (e : Event) : NeverRefuses (recordIf traced e) := by
  intro s
  rw [recordIf_apply]
  exact only_ok

theorem neverRefuses_allocateObject (type : TypeRef) : NeverRefuses (allocateObject ctx type) := by
  refine (neverRefuses_plain (ctx.catalog.instanceFields_onlyPlain type)).bind fun layout => ?_
  refine (neverRefuses_allocate fun _ => only_ok).bind fun r => ?_
  exact (neverRefuses_recordIf _ _).bind fun _ => .pure _

/-! ### Objects -/

theorem neverRefuses_loadString (text : String) : NeverRefuses (loadString ctx text) := by
  refine (neverRefuses_plain (ctx.catalog.resolveType_onlyPlain _)).bind fun type => ?_
  refine (neverRefuses_allocate fun _ => only_ok).bind fun r => ?_
  exact (neverRefuses_recordIf _ _).bind fun _ => (neverRefuses_push _).thenProceed

theorem neverRefuses_typeTest (target : TypeRef) : NeverRefuses (typeTest ctx target) := by
  refine neverRefuses_pop.bind fun v => ?_
  split
  · exact (neverRefuses_push .null).thenProceed
  · refine (neverRefuses_plain (ctx.catalog.resolveType_onlyPlain target)).discard.bind fun _ => ?_
    refine (neverRefuses_readHeap fun k => k.get_unrefused _).bind fun o => ?_
    refine (neverRefuses_plain (isInstance_onlyPlain ctx target o)).bind fun b => ?_
    exact (neverRefuses_push _).thenProceed
  · exact .throw_bind (not_isRefusal_rejected _ _) _

theorem neverRefuses_loadField (f : FieldRef) : NeverRefuses (loadField ctx f) := by
  refine (neverRefuses_plain (ctx.catalog.resolveField_onlyPlain f)).discard.bind fun _ => ?_
  refine (neverRefuses_popObject _).bind fun r => ?_
  refine (neverRefuses_readHeap fun k => k.getField_unrefused r f.name).bind fun v => ?_
  exact (neverRefuses_push v).thenProceed

theorem neverRefuses_storeField (f : FieldRef) : NeverRefuses (storeField ctx f) := by
  refine (neverRefuses_plain (ctx.catalog.resolveField_onlyPlain f)).bind fun declared => ?_
  refine (neverRefuses_plain (ctx.catalog.flavorOf_onlyPlain _)).bind fun flavor => ?_
  refine neverRefuses_pop.bind fun v => (neverRefuses_popObject _).bind fun r => ?_
  split
  · exact (neverRefuses_writeHeap fun k => k.setField_unrefused r f.name v).thenProceed
  · exact .throw_bind (not_isRefusal_rejected _ _) _

theorem neverRefuses_storeIndirect : NeverRefuses storeIndirect := by
  refine (neverRefuses_popObject _).bind fun source => ?_
  refine (neverRefuses_popObject _).bind fun destination => ?_
  refine (neverRefuses_readHeap fun k => k.getField_unrefused source textField).bind fun v => ?_
  exact (neverRefuses_writeHeap fun k => k.setField_unrefused _ _ v).thenProceed

/-! ### Arrays -/

theorem neverRefuses_newArray (element : TypeRef) : NeverRefuses (newArray ctx element) := by
  refine (neverRefuses_plain (ctx.catalog.resolveType_onlyPlain element)).bind fun type => ?_
  refine (neverRefuses_popInteger _).bind fun n => ?_
  split
  · refine .throw_bind ?_ _
    nofun
  · refine (neverRefuses_allocate fun k => k.allocArray_unrefused _ _ _).bind fun r => ?_
    exact (neverRefuses_recordIf _ _).bind fun _ => (neverRefuses_push _).thenProceed

theorem neverRefuses_arrayLength : NeverRefuses arrayLength := by
  refine (neverRefuses_popObject _).bind fun r => ?_
  refine (neverRefuses_readHeap fun k => (k.getArray_unrefused r).bind fun _ _ => only_ok).bind
    fun length => ?_
  exact (neverRefuses_push _).thenProceed

theorem neverRefuses_loadElement (width : ElementWidth) : NeverRefuses (loadElement width) := by
  refine (neverRefuses_popInteger _).bind fun index => (neverRefuses_popObject _).bind fun r => ?_
  refine (neverRefuses_readHeap fun k => k.getElement_unrefused r _).bind fun v => ?_
  split
  · exact (neverRefuses_push _).thenProceed
  · exact .throw_bind (not_isRefusal_rejected _ _) _

theorem neverRefuses_storeElement (width : ElementWidth) : NeverRefuses (storeElement width) := by
  refine neverRefuses_pop.bind fun v => (neverRefuses_popInteger _).bind fun index => ?_
  refine (neverRefuses_popObject _).bind fun r => ?_
  split
  · exact (neverRefuses_writeHeap fun k => k.setElement_unrefused r _ _).thenProceed
  · exact .throw_bind (not_isRefusal_rejected _ _) _

theorem neverRefuses_materialize (r : Handle) (index : Int) :
    NeverRefuses (materialize ctx r index) := by
  refine (neverRefuses_readHeap fun k => k.getReference_unrefused r index).bind fun slot => ?_
  split
  · exact .pure _
  · refine (neverRefuses_readHeap fun k => (k.getArray_unrefused r).bind fun _ _ => only_ok).bind
      fun element => (neverRefuses_allocateObject element).bind fun q => ?_
    exact (neverRefuses_writeHeap fun k => k.setReference_unrefused r index _).bind
      fun _ => .pure _

theorem neverRefuses_loadElementRef : NeverRefuses (loadElementRef ctx) := by
  refine (neverRefuses_popInteger _).bind fun index => (neverRefuses_popObject _).bind fun r => ?_
  exact (neverRefuses_materialize r _).bind fun q => (neverRefuses_push _).thenProceed

theorem neverRefuses_storeElementRef : NeverRefuses storeElementRef := by
  refine neverRefuses_popSlot.bind fun slot => (neverRefuses_popInteger _).bind fun index => ?_
  refine (neverRefuses_popObject _).bind fun r => ?_
  exact (neverRefuses_writeHeap fun k => k.setReference_unrefused r _ slot).thenProceed

/-! ### Calls -/

theorem neverRefuses_runtimeType (r : Handle) : NeverRefuses (runtimeType ctx r) := by
  refine (neverRefuses_readHeap fun k => k.get_unrefused r).bind fun o => ?_
  split
  · exact .pure _
  · exact (neverRefuses_plain (ctx.catalog.resolveType_onlyPlain _)).bind fun _ => .pure _

theorem neverRefuses_dispatchTo (declared : Method) (runtime : TypeRef) :
    NeverRefuses (dispatchTo ctx declared runtime) := by
  intro s
  have hresolve := s.dispatch.resolve_onlyPlain ctx.catalog declared runtime
  refine ((neverRefuses_plain hresolve).bind fun p => ?_) s
  exact fun _ => only_ok

theorem neverRefuses_resolveVirtual (declared : Method) (receiver : Value) :
    NeverRefuses (resolveVirtual ctx declared receiver) := by
  unfold resolveVirtual
  split
  · split
    · exact (neverRefuses_runtimeType _).bind fun type => neverRefuses_dispatchTo declared type
    · exact .pure _
  · exact .throw nofun
  · exact .throw (not_isRefusal_rejected _ _)

theorem neverRefuses_prepareCall (m : MethodRef) (throughReceiver : Bool) :
    NeverRefuses (prepareCall ctx m throughReceiver) := by
  refine (neverRefuses_plain (ctx.catalog.resolveMethod_onlyPlain m)).bind fun declared => ?_
  refine (neverRefuses_popMany _).bind fun arguments => ?_
  split
  · exact .pure _
  · refine neverRefuses_pop.bind fun receiver => ?_
    dsimp only
    split
    · exact (neverRefuses_resolveVirtual declared receiver).bind fun target => .pure _
    · exact .pure _

theorem neverRefuses_prepareConstruction (ctor : MethodRef) (args : List Value) :
    NeverRefuses (prepareConstruction ctx ctor args) := by
  refine (neverRefuses_plain (ctx.catalog.resolveConstructor_onlyPlain ctor)).bind fun m => ?_
  split
  · refine .throw_bind ?_ _
    nofun
  · exact (neverRefuses_allocateObject _).bind fun r => .pure _

/-- **Actions never refuse.** -/
theorem neverRefuses_perform (ctx : Context) (a : Action) : NeverRefuses (perform ctx a) := by
  cases a with
  | nop => exact .pure _
  | pop => exact neverRefuses_pop.discard.thenProceed
  | dup => exact neverRefuses_dup.thenProceed
  | loadConstant n => exact (neverRefuses_push _).thenProceed
  | loadString text => exact neverRefuses_loadString text
  | loadArgument index =>
      refine neverRefuses_frame.bind fun f => ?_
      refine (neverRefuses_plain (f.argument_onlyPlain _)).bind fun v => ?_
      exact (neverRefuses_push v).thenProceed
  | loadLocal index =>
      refine neverRefuses_frame.bind fun f => ?_
      refine (neverRefuses_plain (f.locals.get_onlyPlain _)).bind fun v => ?_
      exact (neverRefuses_push v).thenProceed
  | storeLocal index =>
      exact neverRefuses_pop.bind fun v => (neverRefuses_setLocal _ v).thenProceed
  | arithmetic op =>
      refine neverRefuses_pop.bind fun right => neverRefuses_pop.bind fun left => ?_
      refine (neverRefuses_plain (left.arithmetic_onlyPlain op right)).bind fun v => ?_
      exact (neverRefuses_push v).thenProceed
  | compare op =>
      refine neverRefuses_pop.bind fun right => neverRefuses_pop.bind fun left => ?_
      refine (neverRefuses_plain (left.compare_onlyPlain op right)).bind fun v => ?_
      exact (neverRefuses_push v).thenProceed
  | convert op =>
      refine neverRefuses_pop.bind fun v => ?_
      refine (neverRefuses_plain (v.convert_onlyPlain op)).bind fun v' => ?_
      exact (neverRefuses_push v').thenProceed
  | typeTest target => exact neverRefuses_typeTest target
  | loadField f => exact neverRefuses_loadField f
  | storeField f => exact neverRefuses_storeField f
  | storeIndirect => exact neverRefuses_storeIndirect
  | newArray element => exact neverRefuses_newArray element
  | arrayLength => exact neverRefuses_arrayLength
  | loadElement width => exact neverRefuses_loadElement width
  | storeElement width => exact neverRefuses_storeElement width
  | loadElementRef => exact neverRefuses_loadElementRef
  | storeElementRef => exact neverRefuses_storeElementRef
  | jump target => exact .pure _
  | branch onTrue target =>
      refine neverRefuses_pop.bind fun v => ?_
      split
      · exact .pure _
      · exact .throw (not_isRefusal_rejected _ _)
  | leave => exact .pure _
  | call m => exact (neverRefuses_prepareCall m false).bind fun c => .pure _
  | callVirtual m => exact (neverRefuses_prepareCall m true).bind fun c => .pure _
  | newObject ctor =>
      refine (neverRefuses_popMany _).bind fun arguments => ?_
      exact (neverRefuses_prepareConstruction ctor arguments).bind fun c => .pure _

end Machine

end CilMachine
