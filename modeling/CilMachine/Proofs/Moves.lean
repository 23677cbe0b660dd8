/-
CilMachine/Proofs/Moves.lean

What an instruction can do to the machine, whether it succeeds or fails.  There are four kinds of
moves: the frame on top gets on, a field, element or slot is written, an object is added, and the
dispatcher keeps an answer (`Move`).  An object is added and counted in one move, and with it goes
the event that announces it, if additions are traced.

Every instruction is a sequence of moves (`performInstruction_moves`), and so is what comes before a
constructor (`prepareConstruction_moves`).  A property that every move preserves is therefore
preserved by instructions, up to the calls that they make.

That is one instance of a rule on what may become of a machine (`MoveRule`).  What holds of an
operation because it is put together from others that obey the rule is proved once for all rules
(`obeys_perform`).  Slots are left to the rule: two actions write them.
-/
import CilMachine.Proofs.Persistence

namespace CilMachine

/-- The event says that an object has been added under the handle. -/
def Event.Announces (r : Handle) : Event → Prop
  | .allocated _ q | .stringLoaded _ q | .arrayAllocated _ _ q => q = r
  | _ => False

namespace Machine

/-- What an instruction does in one move. -/
inductive Move (ctx : Context) (s : Machine) : Machine → Prop
  | frame {calls : CallStack} : s.calls.Continues calls → Move ctx s { s with calls }
  | write {heap : Heap} : s.heap.Write heap → Move ctx s { s with heap }
  | add {o : HeapObject} {e : Event} : o.Fresh ctx.catalog → e.Announces s.heap.next →
      Move ctx s { s with
        heap := (s.heap.alloc o).2
        stats := { s.stats with allocations := s.stats.allocations + 1 }
        log := if ctx.tracing.heap then s.log.push e else s.log }
  | ask {declared m : Method} {runtime : TypeRef} {dispatch : Dispatch} :
      s.dispatch.resolve ctx.catalog declared runtime = .ok (m, dispatch) →
      Move ctx s { s with dispatch }

/-- Any number of moves. -/
abbrev Moves (ctx : Context) : Machine → Machine → Prop := Relation.ReflTransGen (Move ctx)

/-- The operation makes moves and does nothing else, also if it fails. -/
def Moving {α : Type} (ctx : Context) (x : Op α) : Prop := ∀ s, Moves ctx s (x s).2

/-! ### Rules -/

/-- A rule on what may become of a machine.  It allows that nothing happens and that one thing
happens after the other, and it lets the frame on top get on. -/
structure Rule where
  allows : Machine → Machine → Prop
  refl : ∀ s, allows s s
  trans : ∀ {s t u : Machine}, allows s t → allows t u → allows s u
  frame : ∀ {s : Machine} {calls : CallStack}, s.calls.Continues calls → allows s { s with calls }

/-- A rule that allows every move but to write a slot. -/
structure MoveRule (ctx : Context) extends Rule where
  field : ∀ {s : Machine} {r : Handle} {name : String} {v : Value} {heap : Heap},
    s.heap.setField r name v = .ok heap → allows s { s with heap }
  element : ∀ {s : Machine} {r : Handle} {index : Int} {v : Value} {heap : Heap},
    s.heap.setElement r index v = .ok heap → allows s { s with heap }
  add : ∀ {s : Machine} {o : HeapObject} {e : Event}, o.Fresh ctx.catalog →
    e.Announces s.heap.next → allows s { s with
      heap := (s.heap.alloc o).2
      stats := { s.stats with allocations := s.stats.allocations + 1 }
      log := if ctx.tracing.heap then s.log.push e else s.log }
  ask : ∀ {s : Machine} {declared m : Method} {runtime : TypeRef} {dispatch : Dispatch},
    s.dispatch.resolve ctx.catalog declared runtime = .ok (m, dispatch) →
      allows s { s with dispatch }

/-- The operation obeys the rule, also if it fails. -/
def Obeys {α : Type} (R : Rule) (x : Op α) : Prop := ∀ s, R.allows s (x s).2

variable {α β : Type} {ctx : Context} {R : Rule}

/-! ### Operations -/

namespace Obeys

theorem pure (a : α) : Obeys R (Pure.pure a : Op α) := fun s => R.refl s

theorem throw (f : Failure) : Obeys R (MonadExcept.throw f : Op α) := fun s => R.refl s

theorem throw_bind (f : Failure) (g : α → Op β) :
    Obeys R ((MonadExcept.throw f : Op α) >>= g) := fun s => R.refl s

theorem bind {x : Op α} {f : α → Op β} (hx : Obeys R x) (hf : ∀ a, Obeys R (f a)) :
    Obeys R (x >>= f) := by
  intro s
  have hs := hx s
  rw [op_bind_apply]
  rcases h : x s with ⟨e | a, u⟩ <;> rw [h] at hs
  · exact hs
  · exact R.trans hs (hf a u)

theorem discard {x : Op α} (hx : Obeys R x) : Obeys R (Functor.discard x) := by
  intro s
  rw [op_discard_apply]
  exact hx s

theorem thenProceed {x : Op α} (hx : Obeys R x) : Obeys R (x >>= fun _ => proceed) :=
  hx.bind fun _ => pure _

end Obeys

theorem obeys_lift (x : Except ExecError α) : Obeys R (liftM x : Op α) := by
  intro s
  rw [lift_apply]
  exact R.refl s

theorem obeys_frame : Obeys R frame := by
  intro s
  rw [frame_apply]
  exact R.refl s

theorem obeys_onFrame {φ : Frame → Except ExecError (α × Frame)}
    (h : ∀ f a g, φ f = .ok (a, g) → f.Continues g) : Obeys R (onFrame φ) := by
  intro s
  rw [Correspondence.onFrame_apply]
  rcases hs : s.calls.current with e | f
  · exact R.refl s
  · rcases hφ : φ f with e | ⟨a, g⟩ <;> simp only [Bind.bind, Except.bind, hφ]
    · exact R.refl s
    · exact R.frame (.setCurrent hs (h f a g hφ))

theorem obeys_onStack {φ : OperandStack → Except ExecError (α × OperandStack)} :
    Obeys R (onStack φ) := by
  refine obeys_onFrame fun f a g h => ?_
  rcases hφ : φ f.stack with e | ⟨a', stack⟩ <;> rw [hφ] at h <;> cases h
  exact .withStack f stack

theorem obeys_push (v : Value) : Obeys R (push v) := obeys_onStack

theorem obeys_pop : Obeys R pop := obeys_onStack

theorem obeys_setLocal (index : Nat) (v : Value) : Obeys R (setLocal index v) := by
  refine obeys_onFrame fun f a g h => ?_
  rcases hset : f.locals.set index v with e | locals <;> rw [hset] at h <;> cases h
  exact .withLocal hset

theorem obeys_popInteger (op : Operation) : Obeys R (popInteger op) := by
  refine obeys_pop.bind fun v => ?_
  split
  · exact .pure _
  · exact .throw _

theorem obeys_popObject (op : Operation) : Obeys R (popObject op) := by
  refine obeys_pop.bind fun v => ?_
  split
  · exact .pure _
  · exact .throw _
  · exact .throw _

theorem obeys_popSlot : Obeys R popSlot := by
  refine obeys_pop.bind fun v => ?_
  split
  · exact .pure _
  · exact .pure _
  · exact .throw _

theorem obeys_readHeap (f : Heap → Except ExecError α) : Obeys R (readHeap f) :=
  fun s => obeys_lift (f s.heap) s

theorem obeys_writeHeap {f : Heap → Except ExecError Heap}
    (h : ∀ s heap, f s.heap = .ok heap → R.allows s { s with heap }) : Obeys R (writeHeap f) := by
  intro s
  rw [Correspondence.writeHeap_apply]
  rcases hf : f s.heap with e | heap
  · exact R.refl s
  · exact h s heap hf

section Moves

variable (R : MoveRule ctx)

theorem obeys_dispatchTo (declared : Method) (runtime : TypeRef) :
    Obeys R.toRule (dispatchTo ctx declared runtime) := by
  intro s
  rw [Correspondence.dispatchTo_apply]
  rcases hresolve : s.dispatch.resolve ctx.catalog declared runtime with e | ⟨m, dispatch⟩
  · exact R.refl s
  · exact R.ask hresolve

/-! ### Additions -/

/-- An object is added and announced before anything else is done. -/
theorem obeys_add {f : Heap → Except ExecError (Handle × Heap)} {e : Handle → Event}
    {rest : Handle → Op α}
    (h : ∀ heap p, f heap = .ok p → ∃ o : HeapObject, o.Fresh ctx.catalog ∧ p = heap.alloc o)
    (he : ∀ r, (e r).Announces r) (hrest : ∀ r, Obeys R.toRule (rest r)) :
    Obeys R.toRule
      (allocate f >>= fun r => recordIf ctx.tracing.heap (e r) >>= fun _ => rest r) := by
  intro s
  rw [op_bind_apply, Correspondence.allocate_apply]
  rcases hf : f s.heap with failure | p
  · exact R.refl s
  · obtain ⟨o, ho, rfl⟩ := h _ _ hf
    dsimp only
    rw [op_bind_apply, recordIf_apply]
    exact R.trans (R.add ho (he s.heap.next)) (hrest _ _)

theorem obeys_allocateObject (type : TypeRef) : Obeys R.toRule (allocateObject ctx type) := by
  intro s
  rw [allocateObject, op_bind_apply, lift_apply]
  rcases hlayout : ctx.catalog.instanceFields type with e | layout
  · exact R.refl s
  · refine obeys_add R (e := .allocated type.name) (fun heap p hp => ?_) (fun _ => rfl)
      (fun r => .pure r) s
    cases hp
    exact ⟨_, .record hlayout, rfl⟩

theorem obeys_loadString (text : String) : Obeys R.toRule (loadString ctx text) := by
  intro s
  rw [loadString, op_bind_apply, lift_apply]
  rcases htype : ctx.catalog.resolveType .string with e | type
  · exact R.refl s
  · refine obeys_add R (e := .stringLoaded text) (fun heap p hp => ?_) (fun _ => rfl)
      (fun r => (obeys_push (.object r)).thenProceed) s
    cases hp
    rw [Catalog.ref_of_resolveType htype]
    exact ⟨_, .string text, rfl⟩

theorem obeys_newArray (element : TypeRef) : Obeys R.toRule (newArray ctx element) := by
  intro s
  rw [newArray, op_bind_apply, lift_apply]
  rcases htype : ctx.catalog.resolveType element with e | type
  · exact R.refl s
  · refine (obeys_popInteger .newArray).bind (fun n => ?_) s
    split
    · exact .throw_bind _ _
    · refine obeys_add R (e := .arrayAllocated element _) (fun heap p hp => ?_) (fun _ => rfl)
        fun r => (obeys_push (.object r)).thenProceed
      unfold Heap.allocArray at hp
      split at hp <;> cases hp
      exact ⟨_, .array _ htype, rfl⟩

/-! ### Actions -/

theorem obeys_typeTest (target : TypeRef) : Obeys R.toRule (typeTest ctx target) := by
  refine obeys_pop.bind fun v => ?_
  split
  · exact (obeys_push .null).thenProceed
  · refine (obeys_lift _).discard.bind fun _ => (obeys_readHeap _).bind fun o => ?_
    exact (obeys_lift _).bind fun b => (obeys_push _).thenProceed
  · exact .throw_bind _ _

theorem obeys_loadField (f : FieldRef) : Obeys R.toRule (loadField ctx f) := by
  refine (obeys_lift _).discard.bind fun _ => (obeys_popObject _).bind fun r => ?_
  exact (obeys_readHeap _).bind fun v => (obeys_push v).thenProceed

theorem obeys_storeField (f : FieldRef) : Obeys R.toRule (storeField ctx f) := by
  refine (obeys_lift _).bind fun declared => (obeys_lift _).bind fun flavor => ?_
  refine obeys_pop.bind fun v => (obeys_popObject _).bind fun r => ?_
  split
  · exact (obeys_writeHeap fun _ _ h => R.field h).thenProceed
  · exact .throw_bind _ _

theorem obeys_storeIndirect : Obeys R.toRule storeIndirect := by
  refine (obeys_popObject _).bind fun source => (obeys_popObject _).bind fun destination => ?_
  exact (obeys_readHeap _).bind fun v => (obeys_writeHeap fun _ _ h => R.field h).thenProceed

theorem obeys_arrayLength : Obeys R.toRule arrayLength := by
  refine (obeys_popObject _).bind fun r => (obeys_readHeap _).bind fun length => ?_
  exact (obeys_push _).thenProceed

theorem obeys_loadElement (width : ElementWidth) : Obeys R.toRule (loadElement width) := by
  refine (obeys_popInteger _).bind fun index => (obeys_popObject _).bind fun r => ?_
  refine (obeys_readHeap _).bind fun v => ?_
  split
  · exact (obeys_push _).thenProceed
  · exact .throw_bind _ _

theorem obeys_storeElement (width : ElementWidth) : Obeys R.toRule (storeElement width) := by
  refine obeys_pop.bind fun v => (obeys_popInteger _).bind fun index => ?_
  refine (obeys_popObject _).bind fun r => ?_
  split
  · exact (obeys_writeHeap fun _ _ h => R.element h).thenProceed
  · exact .throw_bind _ _

theorem obeys_runtimeType (r : Handle) : Obeys R.toRule (runtimeType ctx r) := by
  refine (obeys_readHeap _).bind fun o => ?_
  split
  · exact .pure _
  · exact (obeys_lift _).bind fun _ => .pure _

theorem obeys_resolveVirtual (declared : Method) (receiver : Value) :
    Obeys R.toRule (resolveVirtual ctx declared receiver) := by
  unfold resolveVirtual
  split
  · split
    · exact (obeys_runtimeType R _).bind fun type => obeys_dispatchTo R declared type
    · exact .pure _
  · exact .throw _
  · exact .throw _

theorem obeys_prepareCall (m : MethodRef) (throughReceiver : Bool) :
    Obeys R.toRule (prepareCall ctx m throughReceiver) := by
  refine (obeys_lift _).bind fun declared => obeys_onStack.bind fun arguments => ?_
  split
  · exact .pure _
  · refine obeys_pop.bind fun receiver => ?_
    dsimp only
    split
    · exact (obeys_resolveVirtual R declared receiver).bind fun target => .pure _
    · exact .pure _

theorem obeys_prepareConstruction (ctor : MethodRef) (args : List Value) :
    Obeys R.toRule (prepareConstruction ctx ctor args) := by
  refine (obeys_lift _).bind fun m => ?_
  split
  · exact .throw_bind _ _
  · exact (obeys_allocateObject R _).bind fun r => .pure _

/-- What the actions that write slots do has to be allowed besides. -/
theorem obeys_perform (a : Action)
    (hload : a = .loadElementRef → Obeys R.toRule (loadElementRef ctx))
    (hstore : a = .storeElementRef → Obeys R.toRule storeElementRef) :
    Obeys R.toRule (perform ctx a) := by
  cases a with
  | nop => exact .pure _
  | pop => exact obeys_pop.discard.thenProceed
  | dup => exact obeys_onStack.thenProceed
  | loadConstant n => exact (obeys_push _).thenProceed
  | loadString s => exact obeys_loadString R s
  | loadArgument index =>
      exact obeys_frame.bind fun f => (obeys_lift _).bind fun v => (obeys_push v).thenProceed
  | loadLocal index =>
      exact obeys_frame.bind fun f => (obeys_lift _).bind fun v => (obeys_push v).thenProceed
  | storeLocal index => exact obeys_pop.bind fun v => (obeys_setLocal _ v).thenProceed
  | arithmetic op =>
      refine obeys_pop.bind fun right => obeys_pop.bind fun left => ?_
      exact (obeys_lift _).bind fun v => (obeys_push v).thenProceed
  | compare op =>
      refine obeys_pop.bind fun right => obeys_pop.bind fun left => ?_
      exact (obeys_lift _).bind fun v => (obeys_push v).thenProceed
  | convert op =>
      refine obeys_pop.bind fun v => ?_
      exact (obeys_lift _).bind fun v => (obeys_push v).thenProceed
  | typeTest target => exact obeys_typeTest R target
  | loadField f => exact obeys_loadField R f
  | storeField f => exact obeys_storeField R f
  | storeIndirect => exact obeys_storeIndirect R
  | newArray element => exact obeys_newArray R element
  | arrayLength => exact obeys_arrayLength R
  | loadElement width => exact obeys_loadElement R width
  | storeElement width => exact obeys_storeElement R width
  | loadElementRef => exact hload rfl
  | storeElementRef => exact hstore rfl
  | jump target => exact .pure _
  | branch onTrue target =>
      refine obeys_pop.bind fun v => ?_
      split
      · exact .pure _
      · exact .throw _
  | leave => exact .pure _
  | call m => exact (obeys_prepareCall R m false).bind fun _ => .pure _
  | callVirtual m => exact (obeys_prepareCall R m true).bind fun _ => .pure _
  | newObject ctor =>
      exact obeys_onStack.bind fun arguments =>
        (obeys_prepareConstruction R ctor arguments).bind fun _ => .pure _

end Moves

/-! ### Instructions -/

/-- Moves are what is allowed. -/
def moveRule (ctx : Context) : MoveRule ctx where
  allows := Moves ctx
  refl _ := .refl
  trans := .trans
  frame h := .single (.frame h)
  field h := .single (.write (.field h))
  element h := .single (.write (.element h))
  add ho he := .single (.add ho he)
  ask h := .single (.ask h)

theorem moving_push (v : Value) : Moving ctx (push v) := obeys_push (R := (moveRule ctx).toRule) v

theorem moving_setReference (r : Handle) (index : Int) (slot : Option Handle) :
    Moving ctx (writeHeap (·.setReference r index slot)) :=
  obeys_writeHeap (R := (moveRule ctx).toRule) fun _ _ h => .single (.write (.slot h))

theorem moving_materialize (r : Handle) (index : Int) : Moving ctx (materialize ctx r index) := by
  refine Obeys.bind (R := (moveRule ctx).toRule) (obeys_readHeap _) fun slot => ?_
  split
  · exact .pure _
  · refine (obeys_readHeap _).bind fun element => ?_
    refine (obeys_allocateObject (moveRule ctx) element).bind fun q => ?_
    exact Obeys.bind (moving_setReference r index (some q)) fun _ => .pure q

theorem moving_loadElementRef : Moving ctx (loadElementRef ctx) := by
  refine Obeys.bind (R := (moveRule ctx).toRule) (obeys_popInteger _) fun index => ?_
  refine (obeys_popObject _).bind fun r => ?_
  exact Obeys.bind (moving_materialize r _) fun q => (obeys_push _).thenProceed

theorem moving_storeElementRef : Moving ctx storeElementRef := by
  refine Obeys.bind (R := (moveRule ctx).toRule) obeys_popSlot fun slot => ?_
  refine (obeys_popInteger _).bind fun index => (obeys_popObject _).bind fun r => ?_
  exact Obeys.thenProceed (moving_setReference r _ slot)

/-- **Instructions move.**  Up to the call that it may make, an instruction does nothing to the
machine but a sequence of moves, also if it fails. -/
theorem performInstruction_moves (ctx : Context) (i : Instruction) :
    Moving ctx (performInstruction ctx i) :=
  Obeys.bind (R := (moveRule ctx).toRule) (obeys_lift i.action?) fun a =>
    obeys_perform (moveRule ctx) a (fun _ => moving_loadElementRef) fun _ => moving_storeElementRef

/-- What comes before a constructor is a sequence of moves. -/
theorem prepareConstruction_moves (ctx : Context) (ctor : MethodRef) (args : List Value) :
    Moving ctx (prepareConstruction ctx ctor args) :=
  obeys_prepareConstruction (moveRule ctx) ctor args

/-! ### Lines of the log -/

/-- The log has grown by lines with the property. -/
def Appends (p : Event → Prop) (s u : Machine) : Prop :=
  ∃ lines, u.log.toList = s.log.toList ++ lines ∧ ∀ e ∈ lines, p e

section Lines

variable {p q : Event → Prop} {s t u : Machine}

theorem appends_of_eq (h : u.log = s.log) : Appends p s u :=
  ⟨[], by rw [h, List.append_nil], List.forall_mem_nil _⟩

theorem appends_of_push {e : Event} (traced : Bool) (he : p e)
    (hlog : u.log = if traced then s.log.push e else s.log) : Appends p s u := by
  cases traced with
  | false => exact appends_of_eq hlog
  | true =>
      refine ⟨[e], ?_, List.forall_mem_singleton.2 he⟩
      rw [hlog]
      exact Array.toList_push

theorem Appends.trans (hst : Appends p s t) (htu : Appends p t u) : Appends p s u := by
  obtain ⟨lines, hlog, hlines⟩ := hst
  obtain ⟨lines', hlog', hlines'⟩ := htu
  exact ⟨lines ++ lines', by rw [hlog', hlog, List.append_assoc],
    List.forall_mem_append.2 ⟨hlines, hlines'⟩⟩

theorem Appends.mono (h : Appends p s u) (hpq : ∀ e, p e → q e) : Appends q s u := by
  obtain ⟨lines, hlog, hlines⟩ := h
  exact ⟨lines, hlog, fun e he => hpq e (hlines e he)⟩

/-- Moves log nothing but announcements. -/
theorem Moves.appends (h : Moves ctx s u) : Appends (fun e => ∃ r, e.Announces r) s u := by
  induction h with
  | refl => exact appends_of_eq rfl
  | tail _ hmove ih =>
      refine ih.trans ?_
      cases hmove with
      | frame _ => exact appends_of_eq rfl
      | write _ => exact appends_of_eq rfl
      | add _ hannounces => exact appends_of_push ctx.tracing.heap ⟨_, hannounces⟩ rfl
      | ask _ => exact appends_of_eq rfl

end Lines

/-- Of the counters, moves change that of the allocations only. -/
theorem Moves.stats_eq {s u : Machine} (h : Moves ctx s u) :
    u.stats = { s.stats with allocations := u.stats.allocations } := by
  induction h with
  | refl => rfl
  | tail _ hmove ih =>
      cases hmove with
      | frame _ => exact ih
      | write _ => exact ih
      | add _ _ =>
          dsimp only
          rw [ih]
      | ask _ => exact ih

end Machine

end CilMachine
