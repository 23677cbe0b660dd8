/-
CilMachine/Proofs/Abstraction.lean

The machine is indifferent to what its handles are.  Every action agrees with itself under every
lawful correspondence (`agree_perform`): from corresponding machines it fails alike, or asks for the
same outcome or for a call of the same method with related arguments.

The proofs follow the actions.  Each is a chain of basic operations, and the relation between the
values that one of them yields is carried along to the next, into a later world where need be.
-/
import CilMachine.Proofs.Correspondence

namespace CilMachine

namespace Correspondence

variable {W : Type} {α β : Type} {R : Correspondence W} {ctx ctx' : Context} {w : W}

/-- Two calls of one method that may be run, with related arguments. -/
structure Calls (R : Correspondence W) (w : W) (c c' : Call) : Prop where
  method : c'.method = c.method
  runs : R.method c.method
  arguments : ValuesRel (R.handle w) c.arguments c'.arguments
  created : Option.Rel (R.handle w) c.created c'.created

/-- The same outcome, or related calls. -/
inductive Effects (R : Correspondence W) (w : W) : Effect → Effect → Prop
  | outcome (o : Outcome) : Effects R w (.outcome o) (.outcome o)
  | call {c c' : Call} : R.Calls w c c' → Effects R w (.call c) (.call c')

theorem agree_proceed (hR : R.Lawful ctx ctx') :
    R.Agree w Machine.proceed Machine.proceed R.Effects :=
  .pure hR (.outcome .next)

/-- What is done for its effect on the frame, before the next instruction. -/
theorem Agree.thenProceed (hR : R.Lawful ctx ctx') {x y : Machine.Op α} {A : W → α → α → Prop}
    (h : R.Agree w x y A) :
    R.Agree w (x >>= fun _ => Machine.proceed) (y >>= fun _ => Machine.proceed) R.Effects :=
  h.bind hR fun _ _ _ _ _ => agree_proceed hR

/-! ### Heap operations -/

theorem agree_readHeap (hR : R.Lawful ctx ctx') {f : Heap → Except ExecError α}
    {g : Heap → Except ExecError β} {A : W → α → β → Prop}
    (h : ∀ h k, R.heap w h k → Alike R.error (A w) (f h) (g k)) :
    R.Agree w (Machine.readHeap f) (Machine.readHeap g) A := by
  intro s t hst
  exact Agree.lift hR (h _ _ hst.heap) s t hst

theorem writeHeap_apply (f : Heap → Except ExecError Heap) (s : Machine) :
    Machine.writeHeap f s = match f s.heap with
      | .ok h => (.ok (), { s with heap := h })
      | .error e => (.error (Failure.execution e), s) := by
  show (liftM (f s.heap) >>= _ : Machine.Op Unit) s = _
  rw [op_bind_apply, Machine.lift_apply]
  rcases f s.heap with e | h <;> rfl

/-- To read the heap and then to write it is one way of writing it. -/
theorem readHeap_bind_writeHeap (f : Heap → Except ExecError α)
    (g : α → Heap → Except ExecError Heap) (z : Unit → Machine.Op β) :
    (Machine.readHeap f >>= fun a => Machine.writeHeap (g a) >>= z) =
      Machine.writeHeap (fun h => f h >>= fun a => g a h) >>= z := by
  funext s
  have hread : Machine.readHeap f s = ((f s.heap).mapError .execution, s) := by
    show (liftM (f s.heap) : Machine.Op α) s = _
    rw [Machine.lift_apply]
  rw [op_bind_apply, op_bind_apply, hread, writeHeap_apply]
  rcases f s.heap with e | a
  · rfl
  · show (Machine.writeHeap (g a) >>= z) s = _
    rw [op_bind_apply, writeHeap_apply]
    rfl

theorem agree_writeHeap (hR : R.Lawful ctx ctx') {f g : Heap → Except ExecError Heap}
    (h : ∀ h k, R.heap w h k → Alike R.error (R.heap w) (f h) (g k)) :
    R.Agree w (Machine.writeHeap f) (Machine.writeHeap g) fun _ _ _ => True := by
  intro s t hst
  rw [writeHeap_apply, writeHeap_apply]
  have hfg := h _ _ hst.heap
  generalize f s.heap = a, g t.heap = b at hfg
  cases hfg with
  | error he => exact ⟨w, hR.refl w, hst, .refl _, .refl _, .error he⟩
  | ok hh =>
      exact ⟨w, hR.refl w, ⟨hh, hst.frame, hst.callStacks, hst.counters, hst.answers, hst.logs⟩,
        .refl _, .refl _, .ok trivial⟩

theorem allocate_apply (f : Heap → Except ExecError (Handle × Heap)) (s : Machine) :
    Machine.allocate f s = match f s.heap with
      | .ok (r, h) =>
        (.ok r,
          { s with heap := h, stats := { s.stats with allocations := s.stats.allocations + 1 } })
      | .error e => (.error (Failure.execution e), s) := by
  show (liftM (f s.heap) >>= _ : Machine.Op Handle) s = _
  rw [op_bind_apply, Machine.lift_apply]
  rcases f s.heap with e | ⟨r, h⟩ <;> rfl

/-- Both sides add the same fresh object, or fail alike. -/
inductive Allocates (R : Correspondence W) (c : Catalog)
    (f : Heap → Except ExecError (Handle × Heap)) : Prop
  | fresh {o : HeapObject} : o.Fresh c → (∀ h, f h = .ok (h.alloc o)) → Allocates R c f
  | error (e : ExecError) : R.error e → (∀ h, f h = .error e) → Allocates R c f

theorem agree_allocate (hR : R.Lawful ctx ctx')
    {f : Heap → Except ExecError (Handle × Heap)} (h : R.Allocates ctx.catalog f) :
    R.Agree w (Machine.allocate f) (Machine.allocate f) R.handle := by
  intro s t hst
  rw [allocate_apply, allocate_apply]
  cases h with
  | fresh ho hf =>
      rw [hf, hf]
      obtain ⟨w', hle, hheap, hnext⟩ := hR.alloc hst.heap ho
      refine ⟨w', hle, ⟨hheap, hR.frame_mono hle hst.frame, hst.callStacks,
        hR.count (fun st => { st with allocations := st.allocations + 1 }) hst.counters,
        hst.answers, hst.logs⟩, .refl _, .refl _, .ok hnext⟩
  | error e he hf =>
      rw [hf, hf]
      exact ⟨w, hR.refl w, hst, .refl _, .refl _, .error he⟩

theorem allocates_array (hR : R.Lawful ctx ctx') {element : TypeRef} {type : TypeDef}
    (htype : ctx.catalog.resolveType element = .ok type) (length : Nat) :
    R.Allocates ctx.catalog (·.allocArray type.ref type.flavor length) := by
  by_cases hlength : length ≤ maxArrayLength
  · exact .fresh (.array length htype) fun h => if_pos hlength
  · have herror : R.error (.arrayTooLarge (min length maxReportedLength : Nat)) :=
      hR.ordinary rfl
    exact .error _ herror fun h => if_neg hlength

theorem agree_allocateObject (hR : R.Lawful ctx ctx') (type : TypeRef) :
    R.Agree w (Machine.allocateObject ctx type) (Machine.allocateObject ctx' type)
      R.handle := by
  unfold Machine.allocateObject
  rw [hR.catalog]
  refine (Agree.liftSelf hR (ctx.catalog.instanceFields_onlyPlain type).ordinary).bind hR
    fun w₁ _ layout _ hlayout => ?_
  obtain ⟨rfl, hlayout⟩ := hlayout
  refine (agree_allocate hR (.fresh (.record hlayout) fun _ => rfl)).bind hR
    fun w₂ _ r q hr => ?_
  refine (agree_recordIf hR (·.heap) (.allocated _ hr)).bind hR fun w₃ hle _ _ _ => ?_
  exact .pure hR (hR.mono hle hr)

/-! ### Objects -/

theorem agree_loadString (hR : R.Lawful ctx ctx') (s : String) :
    R.Agree w (Machine.loadString ctx s) (Machine.loadString ctx' s) R.Effects := by
  unfold Machine.loadString
  rw [hR.catalog]
  refine (Agree.liftSelf hR (ctx.catalog.resolveType_onlyPlain _).ordinary).bind hR
    fun w₁ _ type _ htype => ?_
  obtain ⟨rfl, htype⟩ := htype
  rw [Catalog.ref_of_resolveType htype]
  refine (agree_allocate hR (.fresh (.string s) fun _ => rfl)).bind hR fun w₂ _ r q hr => ?_
  refine (agree_recordIf hR (·.heap) (.stringLoaded _ hr)).bind hR fun w₃ hle _ _ _ => ?_
  exact (agree_push hR (.object (hR.mono hle hr))).thenProceed hR

theorem isInstance_onlyPlain (ctx : Context) (target : TypeRef) (o : HeapObject) :
    OnlyPlain (Machine.isInstance ctx target o) := by
  cases o with
  | record type _ => exact ctx.catalog.isAssignable_onlyPlain type target
  | array => exact only_ok

/-- Being an instance is a matter of the type alone. -/
theorem isInstance_eq {H : Handle → Handle → Prop} {o p : HeapObject} (h : o.Rel H p)
    (ctx : Context) (target : TypeRef) :
    Machine.isInstance ctx target p = Machine.isInstance ctx target o := by
  cases h <;> rfl

theorem isInstance_congr (h : ctx'.catalog = ctx.catalog) (target : TypeRef) (o : HeapObject) :
    Machine.isInstance ctx' target o = Machine.isInstance ctx target o := by
  unfold Machine.isInstance
  rw [h]

theorem agree_typeTest (hR : R.Lawful ctx ctx') (target : TypeRef) :
    R.Agree w (Machine.typeTest ctx target) (Machine.typeTest ctx' target) R.Effects := by
  unfold Machine.typeTest
  simp only [hR.catalog, isInstance_congr hR.catalog]
  refine (agree_pop hR).bind hR fun w₁ _ v u hv => ?_
  cases hv with
  | object hr =>
      refine (Agree.liftSelf hR
        (ctx.catalog.resolveType_onlyPlain target).ordinary).discard.bind hR fun w₂ hle₂ _ _ _ => ?_
      have hr := hR.mono hle₂ hr
      refine (agree_readHeap (A := fun w => HeapObject.Rel (R.handle w)) hR
        fun h k hh => hR.get hh hr).bind hR fun w₃ hle₃ o p hop => ?_
      rw [isInstance_eq hop]
      refine (Agree.liftSelf hR (isInstance_onlyPlain ctx target o).ordinary).bind hR
        fun w₄ hle₄ b _ hb => ?_
      obtain ⟨rfl, -⟩ := hb
      have hr := hR.mono hle₄ (hR.mono hle₃ hr)
      cases b with
      | true => exact (agree_push hR (.object hr)).thenProceed hR
      | false => exact (agree_push hR (.same rfl)).thenProceed hR
  | same hv =>
      cases v with
      | object r => cases hv
      | null => exact (agree_push hR (.same rfl)).thenProceed hR
      | _ => exact .throw_bind hR (hR.ordinary (ordinary_rejected _ _))

theorem agree_loadField (hR : R.Lawful ctx ctx') (f : FieldRef) :
    R.Agree w (Machine.loadField ctx f) (Machine.loadField ctx' f) R.Effects := by
  unfold Machine.loadField
  rw [hR.catalog]
  refine (Agree.liftSelf hR (ctx.catalog.resolveField_onlyPlain f).ordinary).discard.bind hR
    fun w₁ _ _ _ _ => ?_
  refine (agree_popObject hR _).bind hR fun w₂ _ r q hr => ?_
  refine (agree_readHeap (A := fun w => Value.Rel (R.handle w)) hR
    fun h k hh => hR.getField hh hr f.name).bind hR fun w₃ _ v u hv => ?_
  exact (agree_push hR hv).thenProceed hR

theorem agree_storeField (hR : R.Lawful ctx ctx') (f : FieldRef) :
    R.Agree w (Machine.storeField ctx f) (Machine.storeField ctx' f) R.Effects := by
  unfold Machine.storeField
  rw [hR.catalog]
  refine (Agree.liftSelf hR (ctx.catalog.resolveField_onlyPlain f).ordinary).bind hR
    fun w₁ _ declared _ hdeclared => ?_
  obtain ⟨rfl, hdeclared⟩ := hdeclared
  refine (Agree.liftSelf hR (ctx.catalog.flavorOf_onlyPlain _).ordinary).bind hR
    fun w₂ _ flavor _ hflavor => ?_
  obtain ⟨rfl, hflavor⟩ := hflavor
  refine (agree_pop hR).bind hR fun w₃ _ v u hv => ?_
  refine (agree_popObject hR _).bind hR fun w₄ hle r q hr => ?_
  have hv := hv.mono fun r q => hR.mono hle
  simp only [hv.fits_eq, Machine.rejected, hv.kind_eq]
  split
  · refine Agree.thenProceed hR (agree_writeHeap hR fun h k hh => ?_)
    have hstores : h.Stores ctx.catalog f.name v := .declared hdeclared hflavor ‹_› rfl
    exact hR.writeField hh hr hv hstores
  · exact .throw_bind hR (hR.ordinary rfl)

theorem agree_storeIndirect (hR : R.Lawful ctx ctx') :
    R.Agree w Machine.storeIndirect Machine.storeIndirect R.Effects := by
  unfold Machine.storeIndirect
  refine (agree_popObject hR _).bind hR fun w₁ _ r q hr => ?_
  refine (agree_popObject hR _).bind hR fun w₂ hle₂ r' q' hr' => ?_
  have hr := hR.mono hle₂ hr
  -- what is copied comes from the heap that it is written to
  rw [readHeap_bind_writeHeap, readHeap_bind_writeHeap]
  refine Agree.thenProceed hR (agree_writeHeap hR fun h k hh => ?_)
  refine (hR.getField hh hr textField).self.bind fun v u hvu => ?_
  obtain ⟨hv, hcopied⟩ := hvu
  exact hR.writeField hh hr' hv (.copied hcopied rfl)

/-! ### Arrays -/

theorem agree_newArray (hR : R.Lawful ctx ctx') (element : TypeRef) :
    R.Agree w (Machine.newArray ctx element) (Machine.newArray ctx' element) R.Effects := by
  unfold Machine.newArray
  rw [hR.catalog]
  refine (Agree.liftSelf hR (ctx.catalog.resolveType_onlyPlain _).ordinary).bind hR
    fun w₁ _ type _ htype => ?_
  obtain ⟨rfl, htype⟩ := htype
  refine (agree_popInteger hR _).bind hR fun w₂ _ n _ hn => ?_
  subst hn
  dsimp only
  split
  · exact .throw_bind hR (hR.ordinary rfl)
  · refine (agree_allocate hR (allocates_array hR htype _)).bind hR fun w₃ _ r q hr => ?_
    refine (agree_recordIf hR (·.heap) (.arrayAllocated _ _ hr)).bind hR
      fun w₄ hle _ _ _ => ?_
    exact (agree_push hR (.object (hR.mono hle hr))).thenProceed hR

theorem agree_arrayLength (hR : R.Lawful ctx ctx') :
    R.Agree w Machine.arrayLength Machine.arrayLength R.Effects := by
  unfold Machine.arrayLength
  refine (agree_popObject hR _).bind hR fun w₁ _ r q hr => ?_
  refine (agree_readHeap (A := fun _ => Eq) hR fun h k hh => hR.arrayLength hh hr).bind hR
    fun w₂ _ n _ hn => ?_
  subst hn
  exact (agree_push hR (.same rfl)).thenProceed hR

theorem agree_loadElement (hR : R.Lawful ctx ctx') (width : ElementWidth) :
    R.Agree w (Machine.loadElement width) (Machine.loadElement width) R.Effects := by
  unfold Machine.loadElement
  refine (agree_popInteger hR _).bind hR fun w₁ _ n _ hn => ?_
  subst hn
  refine (agree_popObject hR _).bind hR fun w₂ _ r q hr => ?_
  refine (agree_readHeap (A := fun _ => Value.Rel fun _ _ => True) hR
    fun h k hh => hR.getElement hh hr n.toInt).bind hR fun w₃ _ v u hv => ?_
  simp only [Machine.rejected, hv.int32?_eq, hv.kind_eq]
  split
  · exact (agree_push hR (.same rfl)).thenProceed hR
  · exact .throw_bind hR (hR.ordinary rfl)

theorem agree_storeElement (hR : R.Lawful ctx ctx') (width : ElementWidth) :
    R.Agree w (Machine.storeElement width) (Machine.storeElement width) R.Effects := by
  unfold Machine.storeElement
  refine (agree_pop hR).bind hR fun w₁ _ v u hv => ?_
  refine (agree_popInteger hR _).bind hR fun w₂ _ n _ hn => ?_
  subst hn
  refine (agree_popObject hR _).bind hR fun w₃ _ r q hr => ?_
  simp only [Machine.rejected, hv.integer?_eq, hv.kind_eq]
  split
  · exact (agree_writeHeap hR fun h k hh => hR.writeElement hh hr _ _).thenProceed hR
  · exact .throw_bind hR (hR.ordinary rfl)

theorem agree_materialize (hR : R.Lawful ctx ctx') {r q : Handle} (hr : R.handle w r q)
    (index : Int) :
    R.Agree w (Machine.materialize ctx r index) (Machine.materialize ctx' q index)
      R.handle := by
  unfold Machine.materialize
  refine (agree_readHeap (A := fun w => Option.Rel (R.handle w)) hR
    fun h k hh => hR.getReference hh hr index).bind hR fun w₁ hle₁ a b hab => ?_
  cases hab with
  | some hslot => exact .pure hR hslot
  | none =>
      -- an empty slot is filled with a fresh object on both sides
      have hr := hR.mono hle₁ hr
      refine (agree_readHeap (A := fun _ => Eq) hR fun h k hh => hR.elementType hh hr).bind hR
        fun w₂ hle₂ type _ htype => ?_
      subst htype
      refine (agree_allocateObject hR type).bind hR fun w₃ hle₃ r' q' hr' => ?_
      have hr := hR.mono hle₃ (hR.mono hle₂ hr)
      refine (agree_writeHeap hR fun h k hh => hR.writeReference hh hr index
        (.some hr')).bind hR fun w₄ hle₄ _ _ _ => ?_
      exact .pure hR (hR.mono hle₄ hr')

theorem agree_loadElementRef (hR : R.Lawful ctx ctx') :
    R.Agree w (Machine.loadElementRef ctx) (Machine.loadElementRef ctx') R.Effects := by
  unfold Machine.loadElementRef
  refine (agree_popInteger hR _).bind hR fun w₁ _ n _ hn => ?_
  subst hn
  refine (agree_popObject hR _).bind hR fun w₂ _ r q hr => ?_
  refine (agree_materialize hR hr n.toInt).bind hR fun w₃ _ r' q' hr' => ?_
  exact (agree_push hR (.object hr')).thenProceed hR

theorem agree_popSlot (hR : R.Lawful ctx ctx') :
    R.Agree w Machine.popSlot Machine.popSlot fun w => Option.Rel (R.handle w) := by
  unfold Machine.popSlot
  refine (agree_pop hR).bind hR fun w₁ _ v u hv => ?_
  cases hv with
  | object hr => exact .pure hR (.some hr)
  | same hv =>
      cases v with
      | object r => cases hv
      | null => exact .pure hR .none
      | _ => exact .throw hR (hR.ordinary (ordinary_rejected _ _))

theorem agree_storeElementRef (hR : R.Lawful ctx ctx') :
    R.Agree w Machine.storeElementRef Machine.storeElementRef R.Effects := by
  unfold Machine.storeElementRef
  refine (agree_popSlot hR).bind hR fun w₁ _ a b hab => ?_
  refine (agree_popInteger hR _).bind hR fun w₂ hle₂ n _ hn => ?_
  subst hn
  refine (agree_popObject hR _).bind hR fun w₃ hle₃ r q hr => ?_
  -- the slot is popped first and written last
  have hab : Option.Rel (R.handle w₃) a b := by
    cases hab with
    | none => exact .none
    | some hslot => exact .some (hR.mono hle₃ (hR.mono hle₂ hslot))
  exact (agree_writeHeap hR fun h k hh => hR.writeReference hh hr _ hab).thenProceed hR

/-! ### Calls -/

theorem agree_runtimeType (hR : R.Lawful ctx ctx') {r q : Handle} (hr : R.handle w r q) :
    R.Agree w (Machine.runtimeType ctx r) (Machine.runtimeType ctx' q) fun _ => Eq := by
  unfold Machine.runtimeType
  rw [hR.catalog]
  refine (agree_readHeap (A := fun w => HeapObject.Rel (R.handle w)) hR
    fun h k hh => hR.get hh hr).bind hR fun w₁ _ o p hop => ?_
  have hobject : R.Agree w₁
      (do return (← (ctx.catalog.resolveType .object)).ref : Machine.Op TypeRef)
      (do return (← (ctx.catalog.resolveType .object)).ref : Machine.Op TypeRef)
      fun _ => Eq :=
    (Agree.liftSelf hR (ctx.catalog.resolveType_onlyPlain _).ordinary).bind hR
      fun _ _ _ _ ht => .pure hR (congrArg (fun t : TypeDef => t.ref) ht.1)
  cases hop with
  | record type _ => exact .pure hR rfl
  | values => exact hobject
  | references => exact hobject

theorem dispatchTo_apply (ctx : Context) (declared : Method) (runtime : TypeRef) (s : Machine) :
    Machine.dispatchTo ctx declared runtime s =
      match s.dispatch.resolve ctx.catalog declared runtime with
      | .ok (m, d) => (.ok m, { s with dispatch := d })
      | .error e => (.error (Failure.execution e), s) := by
  show (liftM (s.dispatch.resolve ctx.catalog declared runtime) >>= _ : Machine.Op Method) s = _
  rw [op_bind_apply, Machine.lift_apply]
  rcases s.dispatch.resolve ctx.catalog declared runtime with e | ⟨m, d⟩ <;> rfl

theorem agree_dispatchTo (hR : R.Lawful ctx ctx') (declared : Method) (runtime : TypeRef) :
    R.Agree w (Machine.dispatchTo ctx declared runtime) (Machine.dispatchTo ctx' declared runtime)
      fun _ m m' => m' = m ∧ R.method m := by
  intro s t hst
  rw [dispatchTo_apply, dispatchTo_apply, hR.catalog]
  have h := hR.dispatch declared runtime hst.answers
  generalize s.dispatch.resolve ctx.catalog declared runtime = a,
    t.dispatch.resolve ctx.catalog declared runtime = b at h
  cases h with
  | error he => exact ⟨w, hR.refl w, hst, .refl _, .refl _, .error he⟩
  | ok hm =>
      obtain ⟨hm, hruns, hanswers⟩ := hm
      exact ⟨w, hR.refl w, ⟨hst.heap, hst.frame, hst.callStacks, hst.counters, hanswers, hst.logs⟩,
        .refl _, .refl _, .ok ⟨hm, hruns⟩⟩

theorem agree_resolveVirtual (hR : R.Lawful ctx ctx') {declared : Method}
    (hdeclared : R.method declared) {v u : Value} (hv : Value.Rel (R.handle w) v u) :
    R.Agree w (Machine.resolveVirtual ctx declared v) (Machine.resolveVirtual ctx' declared u)
      fun _ m m' => m' = m ∧ R.method m := by
  unfold Machine.resolveVirtual
  cases hv with
  | object hr =>
      dsimp only
      split
      · refine (agree_runtimeType hR hr).bind hR fun w₁ _ type _ htype => ?_
        subst htype
        exact agree_dispatchTo hR declared type
      · exact .pure hR ⟨rfl, hdeclared⟩
  | same hv =>
      cases v with
      | object r => cases hv
      | null => exact .throw hR (hR.ordinary rfl)
      | _ => exact .throw hR (hR.ordinary (ordinary_rejected _ _))

theorem agree_prepareCall (hR : R.Lawful ctx ctx') (m : MethodRef) (throughReceiver : Bool) :
    R.Agree w (Machine.prepareCall ctx m throughReceiver)
      (Machine.prepareCall ctx' m throughReceiver) R.Calls := by
  unfold Machine.prepareCall
  rw [hR.catalog]
  refine (Agree.liftSelf hR (ctx.catalog.resolveMethod_onlyPlain m).ordinary).bind hR
    fun w₁ _ declared _ hm => ?_
  obtain ⟨rfl, hm⟩ := hm
  have hdeclared : R.method declared := hR.declared (Catalog.declares_of_resolveMethod hm)
  refine (agree_popMany hR _).bind hR fun w₂ _ args args' hargs => ?_
  split
  · exact .pure hR ⟨rfl, hdeclared, hargs, .none⟩
  · -- the receiver lies below the arguments
    refine (agree_pop hR).bind hR fun w₃ hle₃ v u hv => ?_
    have hargs := hargs.mono fun r q => hR.mono hle₃
    dsimp only
    split
    · refine (agree_resolveVirtual hR hdeclared hv).bind hR fun w₄ hle₄ target _ ht => ?_
      obtain ⟨rfl, hruns⟩ := ht
      have hargs : ValuesRel _ _ _ := .cons hv hargs
      exact .pure hR ⟨rfl, hruns, hargs.mono fun r q => hR.mono hle₄, .none⟩
    · exact .pure hR ⟨rfl, hdeclared, .cons hv hargs, .none⟩

theorem agree_prepareConstruction (hR : R.Lawful ctx ctx') (ctor : MethodRef)
    {args args' : List Value} (hargs : ValuesRel (R.handle w) args args') :
    R.Agree w (Machine.prepareConstruction ctx ctor args)
      (Machine.prepareConstruction ctx' ctor args')
      fun w p q => R.handle w p.1 q.1 ∧ R.Calls w p.2 q.2 := by
  unfold Machine.prepareConstruction
  rw [hR.catalog, ← hargs.length_eq]
  refine (Agree.liftSelf hR (ctx.catalog.resolveConstructor_onlyPlain ctor).ordinary).bind hR
    fun w₁ hle₁ m _ hm => ?_
  obtain ⟨rfl, hm⟩ := hm
  have hruns : R.method m := hR.declared (Catalog.declares_of_resolveConstructor hm)
  dsimp only
  split
  · exact .throw_bind hR (hR.ordinary trivial)
  · refine (agree_allocateObject hR ctor.declaring).bind hR fun w₂ hle₂ r q hr => ?_
    have hargs := hargs.mono fun r q h => hR.mono hle₂ (hR.mono hle₁ h)
    exact .pure hR ⟨hr, rfl, hruns, .cons (.object hr) hargs, .some hr⟩

/-! ### All actions -/

/-- **The machine is indifferent to its handles**: every action agrees with itself under every
lawful correspondence. -/
theorem agree_perform (hR : R.Lawful ctx ctx') (a : Action) :
    R.Agree w (Machine.perform ctx a) (Machine.perform ctx' a) R.Effects := by
  cases a with
  | nop => exact agree_proceed hR
  | pop => exact (agree_pop hR).discard.thenProceed hR
  | dup => exact (agree_dup hR).thenProceed hR
  | loadConstant n => exact (agree_push hR (.same rfl)).thenProceed hR
  | loadString s => exact agree_loadString hR s
  | loadArgument index =>
      refine (agree_frame hR).bind hR fun w₁ _ f g hfg => ?_
      refine (Agree.lift (A := fun w => Value.Rel (R.handle w)) hR
        ((Frame.argument_alike hfg index.toNat).mono (fun e he => hR.ordinary he)
          fun _ _ hv => hv)).bind hR fun w₂ _ v u hv => ?_
      exact (agree_push hR hv).thenProceed hR
  | loadLocal index =>
      refine (agree_frame hR).bind hR fun w₁ _ f g hfg => ?_
      refine (Agree.lift (A := fun w => Value.Rel (R.handle w)) hR
        ((Locals.get_alike hfg.locals index.toNat).mono (fun e he => hR.ordinary he)
          fun _ _ hv => hv)).bind hR fun w₂ _ v u hv => ?_
      exact (agree_push hR hv).thenProceed hR
  | storeLocal index =>
      refine (agree_pop hR).bind hR fun w₁ _ v u hv => ?_
      exact (agree_setLocal hR index.toNat hv).thenProceed hR
  | arithmetic op =>
      refine (agree_pop hR).bind hR fun w₁ _ right right' hright => ?_
      refine (agree_pop hR).bind hR fun w₂ hle left left' hleft => ?_
      have hright := hright.mono fun r q => hR.mono hle
      rw [hleft.arithmetic_eq hright]
      refine (Agree.liftSelf hR (left.arithmetic_onlyPlain op right).ordinary).bind hR
        fun w₃ _ v _ hv => ?_
      obtain ⟨rfl, hv⟩ := hv
      exact (agree_push hR (.same (Value.handle?_of_arithmetic hv))).thenProceed hR
  | compare op =>
      refine (agree_pop hR).bind hR fun w₁ _ right right' hright => ?_
      refine (agree_pop hR).bind hR fun w₂ hle left left' hleft => ?_
      have hright := hright.mono fun r q => hR.mono hle
      rw [hleft.compare_eq (hR.biUnique w₂) hright]
      refine (Agree.liftSelf hR (left.compare_onlyPlain op right).ordinary).bind hR
        fun w₃ _ v _ hv => ?_
      obtain ⟨rfl, hv⟩ := hv
      exact (agree_push hR (.same (Value.handle?_of_compare hv))).thenProceed hR
  | convert op =>
      refine (agree_pop hR).bind hR fun w₁ _ v u hv => ?_
      rw [hv.convert_eq]
      refine (Agree.liftSelf hR (v.convert_onlyPlain op).ordinary).bind hR fun w₂ _ v' _ hv' => ?_
      obtain ⟨rfl, hv'⟩ := hv'
      exact (agree_push hR (.same (Value.handle?_of_convert hv'))).thenProceed hR
  | typeTest target => exact agree_typeTest hR target
  | loadField f => exact agree_loadField hR f
  | storeField f => exact agree_storeField hR f
  | storeIndirect => exact agree_storeIndirect hR
  | newArray element => exact agree_newArray hR element
  | arrayLength => exact agree_arrayLength hR
  | loadElement width => exact agree_loadElement hR width
  | storeElement width => exact agree_storeElement hR width
  | loadElementRef => exact agree_loadElementRef hR
  | storeElementRef => exact agree_storeElementRef hR
  | jump target => exact .pure hR (.outcome (.jump target))
  | branch onTrue target =>
      refine (agree_pop hR).bind hR fun w₁ _ v u hv => ?_
      rw [Machine.rejected, Machine.rejected, hv.condition?_eq, hv.kind_eq]
      split
      · exact .pure hR (.outcome _)
      · exact .throw hR (hR.ordinary rfl)
  | leave => exact .pure hR (.outcome .leave)
  | call m => exact (agree_prepareCall hR m false).bind hR fun _ _ _ _ hc => .pure hR (.call hc)
  | callVirtual m =>
      exact (agree_prepareCall hR m true).bind hR fun _ _ _ _ hc => .pure hR (.call hc)
  | newObject ctor =>
      refine (agree_popMany hR _).bind hR fun w₁ _ args args' hargs => ?_
      refine (agree_prepareConstruction hR ctor hargs).bind hR fun w₂ _ p q hpq => ?_
      exact .pure hR (.call hpq.2)

theorem agree_performInstruction (hR : R.Lawful ctx ctx') (i : Instruction) :
    R.Agree w (Machine.performInstruction ctx i) (Machine.performInstruction ctx' i)
      R.Effects := by
  refine (Agree.liftSelf hR i.action?_onlyOrdinary).bind hR fun w₁ _ a _ ha => ?_
  obtain ⟨rfl, -⟩ := ha
  exact agree_perform hR a

end Correspondence

end CilMachine
