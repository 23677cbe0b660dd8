/-
CilMachine/Proofs/CallTargets.lean

Which method a call instruction runs, and on what.  A call finds its method along the bases of the
type that the reference names, by name and number of parameters; a virtual call then looks along the
bases of the receiver's runtime type, by the name alone, for the first method with a body
(`MostDerived`).  `PushesFrame` says of an instruction in a machine that it pushes a frame for a
method over what is left to its caller, and `FailsWith` that it fails before there is a frame; the
operands on the stack decide which of the two it is (`call_targets`).

The two searches go by different keys, so the number of arguments is right only if methods of one
name go together: if they do on every chain of bases (`Uniform`), and the chain of the receiver has
the method that the reference means.
-/
import CilMachine.Proofs.Ancestry
import CilMachine.Proofs.Memoization
import CilMachine.Proofs.Operations

namespace CilMachine

/-! ### The most derived method -/

/-- The first method of the name with a body that the type declares. -/
def TypeDef.DeclaresFirst (u : TypeDef) (name : String) (t : Method) : Prop :=
  ∃ earlier later, u.methods = earlier ++ t :: later ∧ t.name = name ∧ t.isAbstract = false ∧
    ∀ m ∈ earlier, m.name = name → m.isAbstract = true

theorem TypeDef.concrete?_eq_some_iff {u : TypeDef} {name : String} {t : Method} :
    u.concrete? name = some t ↔ u.DeclaresFirst name t := by
  rw [concrete?, List.find?_eq_some_iff_append]
  constructor
  · rintro ⟨hfound, earlier, later, hmethods, hearlier⟩
    simp only [Bool.and_eq_true, beq_iff_eq, Bool.not_eq_true'] at hfound
    refine ⟨earlier, later, hmethods, hfound.1, hfound.2, fun m hm hname => ?_⟩
    simpa [hname] using hearlier m hm
  · rintro ⟨earlier, later, hmethods, hname, hbody, hearlier⟩
    refine ⟨by simp [hname, hbody], earlier, later, hmethods, fun m hm => ?_⟩
    by_cases hm' : m.name = name
    · simp [hearlier m hm hm']
    · simp [hm']

theorem TypeDef.concrete?_eq_none_iff {u : TypeDef} {name : String} :
    u.concrete? name = none ↔ ∀ m ∈ u.methods, m.name = name → m.isAbstract = true := by
  rw [concrete?, List.find?_eq_none]
  refine forall₂_congr fun m _ => ?_
  simp

/-- The type that an object has for a virtual call.  For an array that is the root. -/
def HeapObject.runtime (o : HeapObject) : TypeRef := o.type?.getD .object

namespace Catalog

variable {P : Native → Prop} {c c' : Catalog} {r : TypeRef} {name : String} {m t : Method}
  {d u v : TypeDef} {ts : List TypeDef}

/-- Of the methods of the name with a body, the one that is met first from the type on along its
bases, each of which lists its methods in the order of their declaration. -/
def MostDerived (c : Catalog) (r : TypeRef) (name : String) (t : Method) : Prop :=
  ∃ d before u after, c.resolveType r = .ok d ∧ c.Climbs d (before ++ u :: after) ∧
    (∀ v ∈ before, ∀ m ∈ v.methods, m.name = name → m.isAbstract = true) ∧
    u.DeclaresFirst name t

theorem findOverride_eq_ok (hts : c.ancestry r = .ok ts) :
    c.findOverride r name = .ok (ts.findSome? (·.concrete? name)) := by
  rw [findOverride, hts]
  rfl

theorem Grounded.mostDerived_iff (h : c.Grounded) :
    c.MostDerived r name t ↔ c.findOverride r name = .ok (some t) := by
  constructor
  · rintro ⟨d, before, u, after, hd, hclimb, hbefore, hfirst⟩
    obtain ⟨ts, hclimb', -, hts⟩ := h d (mem_of_resolveType hd)
    rw [ref_of_resolveType hd] at hts
    rw [findOverride_eq_ok hts, ← hclimb.unique hclimb']
    exact congrArg Except.ok (List.findSome?_eq_some_iff.2 ⟨before, u, after, rfl,
      TypeDef.concrete?_eq_some_iff.2 hfirst,
      fun v hv => TypeDef.concrete?_eq_none_iff.2 (hbefore v hv)⟩)
  · intro hfound
    obtain ⟨ts, hts, -⟩ := bind_eq_ok hfound
    rcases h.lookup r with ⟨d, ts', hd, hclimb, -, hts'⟩ | hnot
    · cases hts.symm.trans hts'
      rw [findOverride_eq_ok hts] at hfound
      obtain ⟨before, u, after, rfl, hu, hbefore⟩ :=
        List.findSome?_eq_some_iff.1 (Except.ok.inj hfound)
      exact ⟨d, before, u, after, hd, hclimb,
        fun v hv => TypeDef.concrete?_eq_none_iff.1 (hbefore v hv),
        TypeDef.concrete?_eq_some_iff.1 hu⟩
    · cases hts.symm.trans (ancestry_of_not_contains hnot).2

/-- On a registered type there is a most derived method, or the search says that there is none. -/
theorem Grounded.findOverride_of_forall_not (h : c.Grounded) (hr : c.contains r = true)
    (hnone : ∀ t, ¬ c.MostDerived r name t) : c.findOverride r name = .ok none := by
  rcases h.lookup r with ⟨d, ts, -, -, -, hts⟩ | hnot
  · rcases hfound : ts.findSome? (·.concrete? name) with - | t
    · rw [findOverride_eq_ok hts, hfound]
    · refine absurd (h.mostDerived_iff.2 ?_) (hnone t)
      rw [findOverride_eq_ok hts, hfound]
  · cases hr.symm.trans hnot

/-! ### Methods of one name -/

/-- The methods of one name agree in their number of parameters and in whether they are static. -/
def Agree (ts : List TypeDef) : Prop :=
  ∀ u ∈ ts, ∀ v ∈ ts, ∀ m ∈ u.methods, ∀ n ∈ v.methods,
    m.name = n.name → m.paramCount = n.paramCount ∧ m.isStatic = n.isStatic

instance (ts : List TypeDef) : Decidable (Agree ts) :=
  inferInstanceAs (Decidable (∀ u ∈ ts, ∀ v ∈ ts, ∀ m ∈ u.methods, ∀ n ∈ v.methods,
    m.name = n.name → m.paramCount = n.paramCount ∧ m.isStatic = n.isStatic))

/-- The methods of one name agree on each chain of bases. -/
def Uniform (c : Catalog) : Prop := ∀ d ∈ c.types, ∀ ts, c.Climbs d ts → Agree ts

theorem Grounded.uniform_iff (h : c.Grounded) :
    c.Uniform ↔ ∀ d ∈ c.types, Agree ((c.ancestry d.ref).toOption.getD []) := by
  refine forall₂_congr fun d hd => ?_
  obtain ⟨ts, hclimb, -, hts⟩ := h d hd
  rw [hts]
  exact ⟨fun hagree => hagree ts hclimb, fun hagree us hus => hclimb.unique hus ▸ hagree⟩

/-- The methods of a type name it as the one that declares them. -/
def NamesDeclaring (c : Catalog) : Prop := ∀ u ∈ c.types, ∀ m ∈ u.methods, m.declaring = u.ref

theorem declaring_of_bind {natives : NativeRegistry} {bound : Method}
    (h : bind natives m = .ok bound) : bound.declaring = m.declaring := by
  unfold bind at h
  split at h
  · split at h <;> cases h
    rfl
  · cases h
    rfl

theorem Extends.namesDeclaring (h : c.Extends P c') (hc : c.NamesDeclaring) :
    c'.NamesDeclaring := by
  induction h with
  | refl => exact hc
  | @register _ _ _ t _ _ hregister ih =>
      obtain ⟨-, hheader, hmethods, rfl⟩ := register_eq_ok hregister
      obtain ⟨-, -, hbound⟩ := bindAll_eq_ok_iff.1 hmethods
      intro u hu m hm
      rcases List.mem_cons.1 hu with rfl | hu
      · obtain ⟨decl, -, hdecl⟩ := forall₂_exists_of_mem hbound.flip hm
        rw [declaring_of_bind hdecl]
        exact (congrArg TypeHeader.ref hheader).symm
      · exact ih u hu m hm
  | registerNative _ _ _ ih => exact ih

/-- In a uniform catalog, the most derived method on a type that derives from the one that declares
a method takes as many arguments as that method. -/
theorem Uniform.argCount_eq (hu : c.Uniform) (hc : c.Grounded) (hnames : c.NamesDeclaring)
    (hm : c.Declares m) (hderives : c.Derives r m.declaring) (ht : c.MostDerived r m.name t) :
    t.argCount = m.argCount := by
  obtain ⟨v, hv, hmv⟩ := hm
  obtain ⟨d, before, u, after, hd, hclimb, -, earlier, later, hmethods, hname, -⟩ := ht
  obtain ⟨ts, hclimb', -, hts⟩ := hc d (mem_of_resolveType hd)
  cases hclimb.unique hclimb'
  rw [ref_of_resolveType hd] at hts
  rw [hnames v hv m hmv] at hderives
  have htu : t ∈ u.methods := by simp [hmethods]
  obtain ⟨hparams, hstatic⟩ := hu d (mem_of_resolveType hd) _ hclimb u (by simp) v
    (hc.mem_ancestry hts hv hderives) t htu m hmv hname
  rw [Method.argCount, Method.argCount, hstatic, hparams]

end Catalog

/-- What the dispatcher answers to a question about a registered type. -/
theorem Dispatch.target_eq_ok_of {c : Catalog} {declared t : Method} {runtime : TypeRef}
    (h : c.findOverride runtime declared.name = .ok (some t)) :
    target c declared runtime = .ok t := by
  rw [target, h]
  rfl

theorem Dispatch.target_eq_error_of {c : Catalog} {declared : Method} {runtime : TypeRef}
    (h : c.findOverride runtime declared.name = .ok none) :
    target c declared runtime = .error (.unresolved (.virtualOverride declared.ref runtime)) := by
  rw [target, h]
  rfl

namespace Machine

variable {ctx : Context} {i : Instruction} {s : Machine} {ref : MethodRef} {m t : Method}
  {f : Frame} {F : List Frame} {S : OperandStack} {args : List Value} {a : Action} {e : Failure}

/-! ### Frames that are pushed -/

/-- The instruction calls the method with these arguments: the operand stack `S` is left to the top
frame, a fresh frame for the method is pushed over that, the method runs in the new frame, and the
next instruction follows. -/
def PushesFrame (ctx : Context) (i : Instruction) (s : Machine) (S : OperandStack) (t : Method)
    (args : List Value) : Prop :=
  ∃ f F d, s.calls.frames = f :: F ∧
    performInstruction ctx i s =
      (.ok (.call ⟨t, args, none⟩), (s.withStack S).withAnswers d) ∧
    ∀ fuel, step ctx (fuel + 1) i s =
      (execute ctx fuel t (entered ctx t
        { s.calls with frames := .ofMethod f.method t args :: { f with stack := S } :: F }
        (s.withAnswers d))).map fun p => (p.1.map fun _ => .next, p.2)

/-- The instruction fails before a frame is pushed; the operand stack `S` is left to the top
frame. -/
def FailsWith (ctx : Context) (i : Instruction) (s : Machine) (S : OperandStack) (e : Failure) :
    Prop :=
  performInstruction ctx i s = (.error e, s.withStack S) ∧
    ∀ fuel, step ctx fuel i s = some (.error e, s.withStack S)

theorem pushesFrame_of_performInstruction (hs : s.calls.frames = f :: F)
    (hroom : s.calls.depth < s.calls.limit) {d : Dispatch}
    (h : performInstruction ctx i s =
      (.ok (.call ⟨t, args, none⟩), (s.withStack S).withAnswers d)) :
    PushesFrame ctx i s S t args := by
  refine ⟨f, F, d, hs, h, fun fuel => ?_⟩
  have hdepth : (s.withStack S).calls.depth < (s.withStack S).calls.limit := by
    rw [withStack_eq hs]
    simpa [CallStack.depth, hs] using hroom
  have hpush : ((s.withStack S).withAnswers d).calls.push t args = .ok { s.calls with
      frames := .ofMethod f.method t args :: { f with stack := S } :: F } := by
    rw [withAnswers, CallStack.push, if_pos hdepth, withStack_eq hs]
    rfl
  have hentered : ∀ calls, entered ctx t calls ((s.withStack S).withAnswers d) =
      entered ctx t calls (s.withAnswers d) := by
    intro calls
    rw [withStack_eq hs]
    rfl
  rw [step, stepWith_apply, h]
  dsimp only
  rw [settle_call_apply, invoke_succ_apply, hpush]
  dsimp only
  rw [hentered, execute]
  rcases executeWith ctx (invoke ctx fuel) fuel t _ with - | ⟨e | v, w⟩ <;> rfl

theorem failsWith_of_performInstruction
    (h : performInstruction ctx i s = (.error e, s.withStack S)) : FailsWith ctx i s S e := by
  refine ⟨h, fun fuel => ?_⟩
  rw [step, stepWith_apply, h]

/-! ### Operands -/

theorem prepareCall_of_static (hm : ctx.catalog.resolveMethod ref = .ok m)
    (hs : s.calls.frames = f :: F) (hargs : args.length = m.paramCount)
    (hstatic : m.isStatic = true) (hf : f.stack = args.reverse ++ S) (throughReceiver : Bool) :
    prepareCall ctx ref throughReceiver s = (.ok ⟨m, args, none⟩, s.withStack S) := by
  rw [prepareCall, op_bind_apply, lift_apply, hm]
  dsimp only [Except.mapError]
  rw [op_bind_apply, popMany_apply hs hf hargs]
  dsimp only
  rw [if_pos hstatic]
  rfl

/-- The method that a call on a receiver runs. -/
def callee (ctx : Context) (throughReceiver : Bool) (m : Method) (r : Value) : Op Method :=
  if throughReceiver then resolveVirtual ctx m r else pure m

/-- The receiver is taken off below the arguments, and comes before them. -/
theorem prepareCall_of_instance (hm : ctx.catalog.resolveMethod ref = .ok m)
    (hs : s.calls.frames = f :: F) (hargs : args.length = m.paramCount)
    (hinstance : m.isStatic = false) {r : Value} (hf : f.stack = args.reverse ++ r :: S)
    (throughReceiver : Bool) :
    prepareCall ctx ref throughReceiver s =
      match callee ctx throughReceiver m r (s.withStack S) with
      | (.ok t, u) => (.ok ⟨t, r :: args, none⟩, u)
      | (.error e, u) => (.error e, u) := by
  rw [prepareCall, op_bind_apply, lift_apply, hm]
  dsimp only [Except.mapError]
  rw [op_bind_apply, popMany_apply hs hf hargs]
  dsimp only
  rw [hinstance, if_neg Bool.false_ne_true, op_bind_apply, pop_withStack hs]
  dsimp only
  cases throughReceiver
  · rfl
  · rw [if_pos rfl, op_bind_apply, callee, if_pos rfl]
    rcases resolveVirtual ctx m r (s.withStack S) with ⟨e | t, u⟩ <;> rfl

theorem runtimeType_apply (hobject : ctx.catalog.contains .object = true) {h : Handle}
    {o : HeapObject} (ho : s.heap.get? h = some o) :
    runtimeType ctx h s = (.ok o.runtime, s) := by
  have hget : s.heap.get h = .ok o := by simp [Heap.get, ho]
  rw [runtimeType, op_bind_apply, readHeap_apply hget]
  dsimp only
  cases o with
  | record => rfl
  | array =>
      obtain ⟨t, ht⟩ := Catalog.contains_iff_resolveType.1 hobject
      have href : t.ref = .object := Catalog.ref_of_resolveType ht
      show (liftM (ctx.catalog.resolveType .object) >>= fun t => pure t.ref : Op TypeRef) s = _
      rw [op_bind_apply, lift_apply, ht]
      dsimp only [Except.mapError]
      rw [href]
      rfl

/-- On a live receiver, a virtual call asks the dispatcher for the object's type. -/
theorem resolveVirtual_apply (hobject : ctx.catalog.contains .object = true)
    (hvirtual : m.isVirtual = true) {h : Handle} {o : HeapObject} (ho : s.heap.get? h = some o) :
    resolveVirtual ctx m (.object h) s = dispatchTo ctx m o.runtime s := by
  simp only [resolveVirtual, hvirtual, if_true]
  rw [op_bind_apply, runtimeType_apply hobject ho]

theorem dispatchTo_of_findOverride (hd : s.dispatch.Faithful ctx.catalog) {r : TypeRef}
    (h : ctx.catalog.findOverride r m.name = .ok (some t)) :
    ∃ d, dispatchTo ctx m r s = (.ok t, s.withAnswers d) := by
  have halike := hd.resolve_alike m r
  rw [Dispatch.target_eq_ok_of h] at halike
  rw [Correspondence.dispatchTo_apply]
  rcases hresolve : s.dispatch.resolve ctx.catalog m r with e | ⟨t', d⟩ <;>
    rw [hresolve] at halike <;> cases halike
  rename_i ht
  obtain rfl : t' = t := ht.1
  exact ⟨d, rfl⟩

theorem dispatchTo_of_findOverride_none (hd : s.dispatch.Faithful ctx.catalog) {r : TypeRef}
    (h : ctx.catalog.findOverride r m.name = .ok none) :
    dispatchTo ctx m r s = (.error (.execution (.unresolved (.virtualOverride m.ref r))), s) := by
  have halike := hd.resolve_alike m r
  rw [Dispatch.target_eq_error_of h] at halike
  rw [Correspondence.dispatchTo_apply]
  rcases hresolve : s.dispatch.resolve ctx.catalog m r with e | ⟨t', d⟩ <;>
    rw [hresolve] at halike <;> cases halike
  rfl

theorem resolveVirtual_eq_ok (hobject : ctx.catalog.contains .object = true)
    (hd : s.dispatch.Faithful ctx.catalog) {r : Value} {u : Machine}
    (h : resolveVirtual ctx m r s = (.ok t, u)) :
    ∃ q, r = .object q ∧ (m.isVirtual = false ∧ t = m ∨ ∃ o, s.heap.get? q = some o ∧
      ctx.catalog.findOverride o.runtime m.name = .ok (some t)) := by
  cases r with
  | object q =>
      refine ⟨q, rfl, ?_⟩
      cases hvirtual : m.isVirtual
      · simp only [resolveVirtual, hvirtual] at h
        cases h
        exact .inl ⟨rfl, rfl⟩
      · right
        rcases ho : s.heap.get? q with - | o
        · have hget : s.heap.get q = .error (.unresolved (.heapObject q)) := by
            simp [Heap.get, ho]
          simp only [resolveVirtual, hvirtual, if_true] at h
          obtain ⟨_, s₁, hruntime, _⟩ := op_bind_eq_ok h
          obtain ⟨o, s₂, hread, _⟩ := op_bind_eq_ok hruntime
          obtain ⟨hread, -⟩ := readHeap_eq_ok hread
          rw [hget] at hread
          cases hread
        · rw [resolveVirtual_apply hobject hvirtual ho, Correspondence.dispatchTo_apply] at h
          have halike := hd.resolve_alike m o.runtime
          rcases hresolve : s.dispatch.resolve ctx.catalog m o.runtime with e | ⟨t', d⟩ <;>
            rw [hresolve] at h halike <;> cases h
          generalize htarget : Dispatch.target ctx.catalog m o.runtime = x at halike
          cases halike with
          | ok ht =>
              obtain ⟨rfl, -⟩ := ht
              exact ⟨o, rfl, Dispatch.target_eq_ok htarget⟩
  | _ => cases h

/-- The arguments of a call that is ready, and where its method comes from. -/
theorem prepareCall_eq_ok (hm : ctx.catalog.resolveMethod ref = .ok m) {throughReceiver : Bool}
    {c : Call} {u : Machine} (h : prepareCall ctx ref throughReceiver s = (.ok c, u)) :
    ∃ args, args.length = m.paramCount ∧
      (m.isStatic = true ∧ c = ⟨m, args, none⟩ ∨
        m.isStatic = false ∧ ∃ r t v, c = ⟨t, r :: args, none⟩ ∧ v.heap = s.heap ∧
          v.dispatch = s.dispatch ∧ callee ctx throughReceiver m r v = (.ok t, u)) := by
  obtain ⟨m', s₁, hlift, h⟩ := op_bind_eq_ok h
  obtain ⟨hm', rfl⟩ := lift_eq_ok hlift
  rw [hm] at hm'
  cases hm'
  obtain ⟨args, s₂, hargs, h⟩ := op_bind_eq_ok h
  obtain ⟨_, _, _, -, hlength, -, hs₂⟩ := popMany_eq_ok hargs
  refine ⟨args, hlength, ?_⟩
  cases hstatic : m.isStatic
  · rw [hstatic, if_neg Bool.false_ne_true] at h
    obtain ⟨r, s₃, hr, h⟩ := op_bind_eq_ok h
    obtain ⟨_, _, _, -, -, hs₃⟩ := pop_eq_ok hr
    have hkept : s₃.heap = s.heap ∧ s₃.dispatch = s.dispatch := by
      rw [hs₃, hs₂]
      exact ⟨rfl, rfl⟩
    refine .inr ⟨rfl, r, ?_⟩
    cases throughReceiver
    · cases h
      exact ⟨m, _, rfl, hkept.1, hkept.2, rfl⟩
    · rw [if_pos rfl] at h
      obtain ⟨t, s₄, ht, h⟩ := op_bind_eq_ok h
      cases h
      exact ⟨t, s₃, rfl, hkept.1, hkept.2, ht⟩
  · rw [hstatic, if_pos rfl] at h
    cases h
    exact .inl ⟨rfl, rfl⟩

/-! ### Targets -/

section Targets

variable (hm : ctx.catalog.resolveMethod ref = .ok m) (hs : s.calls.frames = f :: F)
  (hroom : s.calls.depth < s.calls.limit) (hargs : args.length = m.paramCount)
include hm hs hargs

include hroom in
/-- A static method is run on the arguments alone, whichever instruction calls it. -/
theorem pushesFrame_of_static (hstatic : m.isStatic = true) (hf : f.stack = args.reverse ++ S)
    (hi : i.action? = .ok (.call ref) ∨ i.action? = .ok (.callVirtual ref)) :
    PushesFrame ctx i s S m args := by
  refine pushesFrame_of_performInstruction hs hroom (d := s.dispatch) ?_
  rcases hi with hi | hi
  · rw [performInstruction_of_action hi, perform, op_bind_apply,
      prepareCall_of_static hm hs hargs hstatic hf]
    rfl
  · rw [performInstruction_of_action hi, perform, op_bind_apply,
      prepareCall_of_static hm hs hargs hstatic hf]
    rfl

variable {r : Value} (hinstance : m.isStatic = false) (hf : f.stack = args.reverse ++ r :: S)
include hinstance hf

theorem performInstruction_callVirtual (hi : i.action? = .ok (.callVirtual ref)) :
    performInstruction ctx i s =
      match resolveVirtual ctx m r (s.withStack S) with
      | (.ok t, u) => (.ok (.call ⟨t, r :: args, none⟩), u)
      | (.error e, u) => (.error e, u) := by
  rw [performInstruction_of_action hi, perform, op_bind_apply,
    prepareCall_of_instance hm hs hargs hinstance hf]
  simp only [callee, if_true]
  rcases resolveVirtual ctx m r (s.withStack S) with ⟨e | t, u⟩ <;> rfl

include hroom in
theorem pushesFrame_of_call (hi : i.action? = .ok (.call ref)) :
    PushesFrame ctx i s S m (r :: args) := by
  refine pushesFrame_of_performInstruction hs hroom (d := s.dispatch) ?_
  rw [performInstruction_of_action hi, perform, op_bind_apply,
    prepareCall_of_instance hm hs hargs hinstance hf]
  rfl

include hroom in
theorem pushesFrame_of_resolveVirtual (hi : i.action? = .ok (.callVirtual ref)) {d : Dispatch}
    (h : resolveVirtual ctx m r (s.withStack S) = (.ok t, (s.withStack S).withAnswers d)) :
    PushesFrame ctx i s S t (r :: args) := by
  refine pushesFrame_of_performInstruction hs hroom (d := d) ?_
  rw [performInstruction_callVirtual hm hs hargs hinstance hf hi, h]

theorem failsWith_of_resolveVirtual (hi : i.action? = .ok (.callVirtual ref))
    (h : resolveVirtual ctx m r (s.withStack S) = (.error e, s.withStack S)) :
    FailsWith ctx i s S e := by
  refine failsWith_of_performInstruction ?_
  rw [performInstruction_callVirtual hm hs hargs hinstance hf hi, h]

end Targets

/-- The number of arguments that a call passes, if it reaches a method on the bases of a type that
derives from the one that declares the method it names. -/
theorem argCount_of_performInstruction (hc : Catalog.Extends (fun _ => True) {} ctx.catalog)
    (hobject : ctx.catalog.contains .object = true) (hd : s.dispatch.Faithful ctx.catalog)
    (hm : ctx.catalog.resolveMethod ref = .ok m) (hu : ctx.catalog.Uniform)
    (hi : i.action? = .ok (.call ref) ∨ i.action? = .ok (.callVirtual ref)) {u : Machine}
    (h : performInstruction ctx i s = (.ok (.call ⟨t, args, none⟩), u))
    (hderives : i.action? = .ok (.callVirtual ref) → m.isStatic = false →
      ∀ q o, args.head? = some (.object q) → s.heap.get? q = some o →
        ctx.catalog.Derives o.runtime m.declaring) :
    args.length = t.argCount := by
  have hgrounded : ctx.catalog.Grounded := hc.grounded Catalog.grounded_empty
  have hnames : ctx.catalog.NamesDeclaring :=
    hc.namesDeclaring fun _ hu => absurd hu List.not_mem_nil
  obtain ⟨throughReceiver, hthrough, u', hprepare⟩ : ∃ throughReceiver,
      (throughReceiver = true → i.action? = .ok (.callVirtual ref)) ∧
      ∃ u', prepareCall ctx ref throughReceiver s = (.ok ⟨t, args, none⟩, u') := by
    rcases hi with hi | hi
    · obtain ⟨c, u', hcall, h⟩ := op_bind_eq_ok (performInstruction_eq_ok hi h)
      cases h
      exact ⟨false, nofun, _, hcall⟩
    · obtain ⟨c, u', hcall, h⟩ := op_bind_eq_ok (performInstruction_eq_ok hi h)
      cases h
      exact ⟨true, fun _ => hi, _, hcall⟩
  obtain ⟨args', hlength, ⟨hstatic, hcall⟩ | ⟨hinstance, r, t', v, hcall, hheap, hdispatch, ht⟩⟩ :=
    prepareCall_eq_ok hm hprepare
  · cases hcall
    rw [Method.argCount, hstatic, if_pos rfl, hlength]
  · cases hcall
    have hcount : (r :: args').length = m.argCount := by
      rw [Method.argCount, hinstance, if_neg Bool.false_ne_true, List.length_cons, hlength]
    cases hthrough' : throughReceiver <;> rw [hthrough'] at ht hthrough
    · cases ht
      exact hcount
    · obtain ⟨q, rfl, ⟨-, rfl⟩ | ⟨o, ho, hfound⟩⟩ :=
        resolveVirtual_eq_ok hobject (hdispatch ▸ hd) ht
      · exact hcount
      · rw [hheap] at ho
        have hreceiver := hderives (hthrough rfl) hinstance q o rfl ho
        rw [hcount, hu.argCount_eq hgrounded hnames (Catalog.declares_of_resolveMethod hm) hreceiver
          (hgrounded.mostDerived_iff.2 hfound)]

/-- **What a call runs, and on what.**  With room for a frame, and with the receiver, if there is to
be one, and the arguments on the stack: `call` pushes a frame for just the method that its reference
means, on the receiver and the arguments in the order in which they were pushed, and so does
`callvirt` if that method is static or not virtual.  On an instance method, `callvirt` fails for
null and for what is no handle.  If the method is virtual and the receiver is a live object, the
frame is for the most derived method of its name with a body, on the bases of the object's type, and
the instruction fails for want of an override exactly if there is none.

If methods of one name go together on every chain of bases, a call passes as many arguments as the
method takes, as long as the receiver of a virtual call has the method that the reference means. -/
theorem call_targets {c₀ : Catalog} (hc : Catalog.Extends (fun _ => True) {} ctx.catalog)
    (hobject : ctx.catalog.contains .object = true)
    (hd : s.dispatch.Interleaved c₀ ctx.catalog) (hs : s.calls.frames = f :: F)
    (hroom : s.calls.depth < s.calls.limit) (hm : ctx.catalog.resolveMethod ref = .ok m)
    (hargs : args.length = m.paramCount) :
    (m.isStatic = true → f.stack = args.reverse ++ S →
      ∀ i, i.action? = .ok (.call ref) ∨ i.action? = .ok (.callVirtual ref) →
        PushesFrame ctx i s S m args) ∧
    (m.isStatic = false → ∀ r, f.stack = args.reverse ++ r :: S →
      (∀ i, i.action? = .ok (.call ref) → PushesFrame ctx i s S m (r :: args)) ∧
      ∀ i, i.action? = .ok (.callVirtual ref) →
        (r = .null → FailsWith ctx i s S (.execution .nullReference)) ∧
        (r ≠ .null → (∀ q, r ≠ .object q) →
          FailsWith ctx i s S (.execution (.invalidOperationTypes .callVirtual [r.kind]))) ∧
        ∀ q, r = .object q →
          (m.isVirtual = false → PushesFrame ctx i s S m (r :: args)) ∧
          (m.isVirtual = true → ∀ o, s.heap.get? q = some o →
            ctx.catalog.contains o.runtime = true →
            (∀ t, ctx.catalog.MostDerived o.runtime m.name t →
              PushesFrame ctx i s S t (r :: args)) ∧
            (FailsWith ctx i s S
                (.execution (.unresolved (.virtualOverride m.ref o.runtime))) ↔
              ¬ ∃ t, ctx.catalog.MostDerived o.runtime m.name t))) ∧
    (ctx.catalog.Uniform → ∀ i S t args,
      i.action? = .ok (.call ref) ∨ i.action? = .ok (.callVirtual ref) →
      PushesFrame ctx i s S t args →
      (i.action? = .ok (.callVirtual ref) → m.isStatic = false →
        ∀ q o, args.head? = some (.object q) → s.heap.get? q = some o →
          ctx.catalog.Derives o.runtime m.declaring) →
      args.length = t.argCount) := by
  have hgrounded : ctx.catalog.Grounded := hc.grounded Catalog.grounded_empty
  refine ⟨fun hstatic hf i hi => pushesFrame_of_static hm hs hroom hargs hstatic hf hi, ?_, ?_⟩
  · intro hinstance r hf
    refine ⟨fun i hi => pushesFrame_of_call hm hs hroom hargs hinstance hf hi, fun i hi => ?_⟩
    refine ⟨?_, ?_, ?_⟩
    · rintro rfl
      exact failsWith_of_resolveVirtual hm hs hargs hinstance hf hi rfl
    · intro hnull hhandle
      refine failsWith_of_resolveVirtual hm hs hargs hinstance hf hi ?_
      cases r with
      | null => exact absurd rfl hnull
      | object q => exact absurd rfl (hhandle q)
      | _ => rfl
    · rintro q rfl
      refine ⟨fun hvirtual => ?_, fun hvirtual o ho hcontains => ?_⟩
      · refine pushesFrame_of_resolveVirtual hm hs hroom hargs hinstance hf hi (d := s.dispatch) ?_
        simp only [resolveVirtual, hvirtual]
        rfl
      · -- the dispatcher sees the same heap when the operands have been popped
        have hasked : resolveVirtual ctx m (.object q) (s.withStack S) =
            dispatchTo ctx m o.runtime (s.withStack S) :=
          resolveVirtual_apply hobject hvirtual ho
        have hfaithful : (s.withStack S).dispatch.Faithful ctx.catalog := hd.faithful
        have hreached : ∀ t, ctx.catalog.MostDerived o.runtime m.name t →
            PushesFrame ctx i s S t (.object q :: args) := by
          intro t ht
          obtain ⟨d, hanswer⟩ :=
            dispatchTo_of_findOverride hfaithful (hgrounded.mostDerived_iff.1 ht)
          exact pushesFrame_of_resolveVirtual hm hs hroom hargs hinstance hf hi
            (hasked.trans hanswer)
        refine ⟨hreached, fun hfails hexists => ?_, fun hnone => ?_⟩
        · obtain ⟨t, ht⟩ := hexists
          obtain ⟨_, _, _, _, hperform, _⟩ := hreached t ht
          cases hfails.1.symm.trans hperform
        · have hfound := hgrounded.findOverride_of_forall_not hcontains (not_exists.1 hnone)
          exact failsWith_of_resolveVirtual hm hs hargs hinstance hf hi
            (hasked.trans (dispatchTo_of_findOverride_none hfaithful hfound))
  · intro hu i S t args hi hpushes hderives
    obtain ⟨_, _, _, _, hperform, _⟩ := hpushes
    exact argCount_of_performInstruction hc hobject hd.faithful hm hu hi hperform hderives

end Machine

namespace Sample

/-- A class with an abstract method. -/
def shape : TypeDecl :=
  (TypeDecl.ofRef ⟨"app", "Shape"⟩).withMethod
    ({ name := "Scale", params := [.corelib "System.Int32"] } : MethodDecl).asAbstract

/-- A class that overrides the method. -/
def square : TypeDecl :=
  ((TypeDecl.ofRef ⟨"app", "Square"⟩).withBase shape.ref).withMethod
    ({ name := "Scale", params := [.corelib "System.Int32"]
       native := some (.nothing "Scale") } : MethodDecl).asVirtual

/-- Another class, whose method of the name has one parameter more. -/
def slider : TypeDecl :=
  (TypeDecl.ofRef ⟨"app", "Slider"⟩).withMethod
    ({ name := "Scale", params := [.corelib "System.Int32", .corelib "System.Int32"]
       native := some (.nothing "Scale") } : MethodDecl).asVirtual

/-- The three classes, under the root. -/
def shapes : Context where
  catalog := [TypeDecl.ofRef .object, shape, square, slider].foldl
    (fun c d => (Catalog.add d c).2) {}

/-- A machine about to call the method on a handle; there are a square and a slider. -/
def drawing (r : Handle) : Machine where
  heap := ((Heap.alloc {} (.record square.ref [])).2.alloc (.record slider.ref [])).2
  calls := { frames := [{ stack := [.int32 5, .object r] }], entries := 1, limit := 2 }

/-- The virtual call. -/
def scale : Instruction := ⟨0, 5, "callvirt", .call, .method ⟨shape.ref, "Scale", 1⟩⟩

end Sample

namespace Machine

/-- On a square, the call runs the override and passes what that takes.  On a slider, which is no
shape, it runs a method that takes one argument more than it is passed. -/
theorem call_targets_shapes :
    Sample.shapes.catalog.Uniform ∧
      (∃ t, t.declaring = Sample.square.ref ∧ t.argCount = 2 ∧
        PushesFrame Sample.shapes Sample.scale (Sample.drawing ⟨1⟩) [] t
          [.object ⟨1⟩, .int32 5]) ∧
      ∃ t, t.declaring = Sample.slider.ref ∧ t.argCount = 3 ∧
        PushesFrame Sample.shapes Sample.scale (Sample.drawing ⟨2⟩) [] t
          [.object ⟨2⟩, .int32 5] := by
  have hreached : Catalog.Extends (fun _ => True) {} Sample.shapes.catalog :=
    (((Catalog.Extends.refl.add fun _ _ _ _ => trivial).add fun _ _ _ _ => trivial).add
      fun _ _ _ _ => trivial).add fun _ _ _ _ => trivial
  have hgrounded : Sample.shapes.catalog.Grounded := hreached.grounded Catalog.grounded_empty
  have hmethod : (Sample.shapes.catalog.resolveMethod ⟨Sample.shape.ref, "Scale", 1⟩).toOption.map
      (fun m => (m.paramCount, m.isStatic, m.isVirtual, m.name)) =
        some (1, false, true, "Scale") := by decide +kernel
  rcases hm : Sample.shapes.catalog.resolveMethod ⟨Sample.shape.ref, "Scale", 1⟩ with e | m <;>
    rw [hm] at hmethod
  · cases hmethod
  obtain ⟨hparams, hstatic, hvirtual, hname⟩ :
      m.paramCount = 1 ∧ m.isStatic = false ∧ m.isVirtual = true ∧ m.name = "Scale" := by
    simpa [Except.toOption] using hmethod
  have hreaches : ∀ (r : Handle) (type : TypeRef) (count : Nat),
      (Sample.drawing r).heap.get? r = some (.record type []) →
      Sample.shapes.catalog.contains type = true →
      ((Sample.shapes.catalog.findOverride type "Scale").toOption.join.map fun t =>
        (t.declaring, t.argCount)) = some (type, count) →
      ∃ t, t.declaring = type ∧ t.argCount = count ∧
        PushesFrame Sample.shapes Sample.scale (Sample.drawing r) [] t
          [.object r, .int32 5] := by
    intro r type count ho hcontains hfound
    rcases ht : Sample.shapes.catalog.findOverride type "Scale" with e | - | t <;>
      rw [ht] at hfound
    · cases hfound
    · cases hfound
    obtain ⟨hdeclaring, hcount⟩ : t.declaring = type ∧ t.argCount = count := by
      simpa [Except.toOption] using hfound
    have hargs : [Value.int32 5].length = m.paramCount := hparams.symm
    obtain ⟨-, hinstance, -⟩ := call_targets (s := Sample.drawing r) (S := []) hreached
      (by decide +kernel) Dispatch.Interleaved.start rfl Nat.zero_lt_two hm hargs
    obtain ⟨-, hcall⟩ := hinstance hstatic (.object r) rfl
    obtain ⟨-, -, hhandle⟩ := hcall Sample.scale (by decide +kernel)
    exact ⟨t, hdeclaring, hcount, ((hhandle r rfl).2 hvirtual _ ho hcontains).1 t
      (hname ▸ hgrounded.mostDerived_iff.2 ht)⟩
  exact ⟨hgrounded.uniform_iff.2 (by decide +kernel),
    hreaches ⟨1⟩ Sample.square.ref 2 rfl (by decide +kernel) (by decide +kernel),
    hreaches ⟨2⟩ Sample.slider.ref 3 rfl (by decide +kernel) (by decide +kernel)⟩

end Machine

end CilMachine
