/-
CilMachine/Proofs/Natives.lean

Native routines up to their handles.  `AgreeHeap w x y A` says of two computations on the heap what
`Agree` says of operations of the machine, and passes through binds like that.  A routine is a
`Routine` of a correspondence if it agrees with itself on related arguments.

The routines of the core library are routines of every lawful correspondence (`corelib_routine`):
like the machine, they are indifferent to what their handles are.
-/
import CilMachine.Proofs.Abstraction
import CilMachine.Proofs.Registration

namespace CilMachine

namespace Correspondence

variable {W : Type} {ε α β γ δ : Type} {R : Correspondence W} {ctx ctx' : Context} {w : W}
  {H : Handle → Handle → Prop}

/-! ### Routines -/

/-- On related arguments and heaps, a routine of the host comes out alike, with related heaps. -/
def Routine (R : Correspondence W) (headers : Headers) (routine : Native) : Prop :=
  ∀ {w h k args args'}, R.heap w h k → ValuesRel (R.handle w) args args' →
    ∃ w', R.le w w' ∧
      R.heap w' ((routine.run headers args).run.run h).2 ((routine.run headers args').run.run k).2 ∧
      Alike R.failure (Option.Rel (Value.Rel (R.handle w')))
        ((routine.run headers args).run.run h).1 ((routine.run headers args').run.run k).1

/-- A routine comes out alike on one heap, if its failures may come out. -/
theorem sameHeap_routine {callStacks : CallStack → CallStack → Prop}
    {counters : Stats → Stats → Prop} {answers : Dispatch → Dispatch → Prop}
    {logs : Array Event → Array Event → Prop} {method : Method → Prop} {failure : Failure → Prop}
    {headers : Headers} {routine : Native}
    (hfailure : ∀ args h, Only failure ((routine.run headers args).run.run h).1) :
    (sameHeap callStacks counters answers logs method failure).Routine headers routine := by
  intro _ h _ args _ hh hargs
  obtain rfl : h = _ := hh
  obtain rfl := hargs.eq
  refine ⟨(), trivial, rfl, ?_⟩
  rcases hrun : ((routine.run headers args).run.run h).1 with e | - | v
  · exact .error (hfailure args h e hrun)
  · exact .ok .none
  · exact .ok (.some v.rel_eq)

/-! ### Computations on the heap -/

/-- From related heaps, the computations come out alike, with heaps that are related in a later
world. -/
def AgreeHeap (R : Correspondence W) (w : W) (x : Heap.Op α) (y : Heap.Op β)
    (A : W → α → β → Prop) : Prop :=
  ∀ h k, R.heap w h k → ∃ w', R.le w w' ∧ R.heap w' (x h).2 (y k).2 ∧
    Alike R.failure (A w') (x h).1 (y k).1

namespace AgreeHeap

variable {A : W → α → β → Prop} {C : W → γ → δ → Prop}

theorem bind (hR : R.Lawful ctx ctx') {x : Heap.Op α} {y : Heap.Op β} {f : α → Heap.Op γ}
    {g : β → Heap.Op δ} (h : R.AgreeHeap w x y A)
    (hfg : ∀ w', R.le w w' → ∀ a b, A w' a b → R.AgreeHeap w' (f a) (g b) C) :
    R.AgreeHeap w (x >>= f) (y >>= g) C := by
  intro h₀ k₀ hh
  obtain ⟨w', hle, hh', ho⟩ := h h₀ k₀ hh
  rw [op_bind_apply, op_bind_apply]
  rcases hx : x h₀ with ⟨a, h'⟩
  rcases hy : y k₀ with ⟨b, k'⟩
  rw [hx, hy] at hh' ho
  cases ho with
  | error he => exact ⟨w', hle, hh', .error he⟩
  | ok ha =>
      obtain ⟨w'', hle', hh'', ho'⟩ := hfg w' hle _ _ ha h' k' hh'
      exact ⟨w'', hR.trans hle hle', hh'', ho'⟩

theorem pure (hR : R.Lawful ctx ctx') {a : α} {b : β} (h : A w a b) :
    R.AgreeHeap w (pure a) (pure b) A :=
  fun _ _ hh => ⟨w, hR.refl w, hh, .ok h⟩

theorem throw (hR : R.Lawful ctx ctx') {e : Failure} (h : R.failure e) :
    R.AgreeHeap w (throw e : Heap.Op α) (throw e : Heap.Op β) A :=
  fun _ _ hh => ⟨w, hR.refl w, hh, .error h⟩

theorem lift (hR : R.Lawful ctx ctx') {x : Except ExecError α} {y : Except ExecError β}
    (h : Alike R.error (A w) x y) :
    R.AgreeHeap w (liftM x : Heap.Op α) (liftM y : Heap.Op β) A := by
  cases h with
  | ok ha => exact fun _ _ hh => ⟨w, hR.refl w, hh, .ok ha⟩
  | error he => exact fun _ _ hh => ⟨w, hR.refl w, hh, .error he⟩

theorem get (hR : R.Lawful ctx ctx') : R.AgreeHeap w get get R.heap :=
  fun _ _ hh => ⟨w, hR.refl w, hh, .ok hh⟩

theorem set (hR : R.Lawful ctx ctx') {h k : Heap} (hh : R.heap w h k) :
    R.AgreeHeap w (set h) (set k) fun _ _ _ => True :=
  fun _ _ _ => ⟨w, hR.refl w, hh, .ok trivial⟩

/-- A routine whose computations agree is a routine of the correspondence. -/
theorem routine {headers : Headers} {native : Native}
    (h : ∀ {w args args'}, ValuesRel (R.handle w) args args' →
      R.AgreeHeap w (native.run headers args) (native.run headers args')
        fun w => Option.Rel (Value.Rel (R.handle w))) : R.Routine headers native :=
  fun hh hargs => h hargs _ _ hh

end AgreeHeap

/-! ### Arguments -/

theorem receiver_alike {args args' : List Value} (h : ValuesRel H args args') :
    AlikeOrdinary H (receiver args) (receiver args') := by
  cases h with
  | nil => exact .error rfl
  | @cons v _ _ _ hv _ =>
      cases hv with
      | object hr => exact .ok hr
      | same hv =>
          cases v with
          | object => cases hv
          | _ => exact .error rfl

theorem charArrayArgument_alike {args args' : List Value} (h : ValuesRel H args args') :
    AlikeOrdinary H (Native.charArrayArgument args) (Native.charArrayArgument args') := by
  unfold Native.charArrayArgument
  have harg := forall₂_getElem? h 1
  generalize args[1]? = a, args'[1]? = b at harg
  cases harg with
  | none => exact .error rfl
  | some hv =>
      cases hv with
      | object hr => exact .ok hr
      | same hv =>
          rename_i v
          cases v with
          | object => cases hv
          | _ => exact .error rfl

theorem codeUnit_alike {v u : Value} (h : Value.Rel H v u) :
    AlikeOrdinary Eq (Native.codeUnit v) (Native.codeUnit u) := by
  cases h with
  | object _ => exact .error rfl
  | @same v _ =>
      cases v with
      | int32 => exact .ok rfl
      | _ => exact .error rfl

theorem mapM_alike {P : ε → Prop} {A : α → β → Prop} {C : γ → δ → Prop} {f : α → Except ε γ}
    {g : β → Except ε δ} {as : List α} {bs : List β} (h : List.Forall₂ A as bs)
    (hfg : ∀ a b, A a b → Alike P C (f a) (g b)) :
    Alike P (List.Forall₂ C) (as.mapM f) (bs.mapM g) := by
  induction h with
  | nil => exact .ok .nil
  | cons hab _ ih =>
      rw [List.mapM_cons, List.mapM_cons]
      refine (hfg _ _ hab).bind fun c d hcd => ?_
      exact ih.bind fun cs ds hcs => .ok (.cons hcd hcs)

/-! ### Strings on the heap -/

section Strings

variable {h k : Heap} {r q : Handle}

theorem Lawful.getString (hR : R.Lawful ctx ctx') (hh : R.heap w h k) (hr : R.handle w r q) :
    Alike R.error Eq (h.getString r) (k.getString q) := by
  refine (hR.getField hh hr textField).bind fun v u hv => ?_
  cases hv with
  | object _ => exact .error (hR.ordinary rfl)
  | @same v _ =>
      cases v with
      | text s => exact .ok rfl
      | _ => exact .error (hR.ordinary rfl)

theorem Lawful.readString (hR : R.Lawful ctx ctx') (hh : R.heap w h k) {v u : Value}
    (hv : Value.Rel (R.handle w) v u) : Alike R.error Eq (h.readString v) (k.readString u) := by
  cases hv with
  | object hr => exact hR.getString hh hr
  | @same v hv =>
      cases v with
      | object => cases hv
      | _ => exact .error (hR.ordinary rfl)

theorem Lawful.concatText (hR : R.Lawful ctx ctx') (hh : R.heap w h k) {args args' : List Value}
    (hargs : ValuesRel (R.handle w) args args') :
    Alike R.error Eq (Native.concatText h args) (Native.concatText k args') := by
  -- the texts of the arguments are the same on both sides
  have hparts : Alike R.error (List.Forall₂ Eq) (args.mapM (Native.concatPart h))
      (args'.mapM (Native.concatPart k)) := by
    refine mapM_alike hargs fun v u hv => ?_
    unfold Native.concatPart
    rw [hv.isNull_eq]
    split
    · exact .ok rfl
    · exact hR.readString hh hv
  refine hparts.bind fun xs ys hxy => ?_
  rw [List.forall₂_eq_eq_eq] at hxy
  rw [hxy]
  exact .ok rfl

theorem Lawful.charArrayUnits (hR : R.Lawful ctx ctx') (hh : R.heap w h k)
    (hr : R.handle w r q) :
    Alike R.error Eq (Native.charArrayUnits h r) (Native.charArrayUnits k q) := by
  refine (hR.get hh hr).bind fun o p hop => ?_
  cases hop with
  | record => exact .error (hR.mismatch _ _)
  | references => exact .error (hR.mismatch _ _)
  | values element hitems =>
      have hunits : Alike R.error (List.Forall₂ Eq) (_ : Except ExecError (List UInt16)) _ :=
        (mapM_alike hitems fun v u hv => codeUnit_alike hv).mono (fun e he => hR.ordinary he)
          fun _ _ hc => hc
      refine hunits.imp fun xs ys hxy => ?_
      rwa [List.forall₂_eq_eq_eq] at hxy

theorem agreeHeap_allocString (hR : R.Lawful ctx ctx') (headers : Headers) (s : String) :
    R.AgreeHeap w (Native.allocString headers s) (Native.allocString headers s) R.handle := by
  unfold Native.allocString
  split
  · intro h k hh
    obtain ⟨w', hle, hh', hnext⟩ := hR.alloc hh (.string s)
    exact ⟨w', hle, hh', .ok hnext⟩
  · exact .throw hR (hR.ordinary rfl)

end Strings

/-! ### The routines of the core library -/

theorem nothing_routine (hR : R.Lawful ctx ctx') (headers : Headers) (name : String) :
    R.Routine headers (Native.nothing name) :=
  AgreeHeap.routine fun _ => .pure hR .none

theorem stringConstructor_routine (hR : R.Lawful ctx ctx') (headers : Headers) :
    R.Routine headers Native.stringConstructor := by
  refine AgreeHeap.routine fun hargs => ?_
  refine (AgreeHeap.lift (A := R.handle) hR ((receiver_alike hargs).mono
    (fun e he => hR.ordinary he) fun _ _ h => h)).bind hR fun w₁ hle₁ this this' hthis => ?_
  have hargs := hargs.mono fun _ _ => hR.mono hle₁
  refine (AgreeHeap.lift (A := R.handle) hR ((charArrayArgument_alike hargs).mono
    (fun e he => hR.ordinary he) fun _ _ h => h)).bind hR fun w₂ hle₂ chars chars' hchars => ?_
  refine (AgreeHeap.get hR).bind hR fun w₃ hle₃ h k hh => ?_
  refine (AgreeHeap.lift (A := fun _ => Eq) hR
    (hR.charArrayUnits hh (hR.mono hle₃ hchars))).bind hR fun w₄ hle₄ units _ hunits => ?_
  subst hunits
  refine (AgreeHeap.get hR).bind hR fun w₅ hle₅ h k hh => ?_
  have hthis := hR.mono hle₅ (hR.mono hle₄ (hR.mono hle₃ (hR.mono hle₂ hthis)))
  refine (AgreeHeap.lift (A := R.heap) hR
    (hR.writeField hh hthis (.same rfl) (.text _ rfl rfl))).bind hR fun w₆ _ h k hh => ?_
  refine (AgreeHeap.set hR hh).bind hR fun w₇ _ _ _ _ => ?_
  exact .pure hR .none

theorem stringConcat_routine (hR : R.Lawful ctx ctx') (headers : Headers) :
    R.Routine headers Native.stringConcat := by
  refine AgreeHeap.routine fun hargs => ?_
  refine (AgreeHeap.get hR).bind hR fun w₁ hle₁ h k hh => ?_
  refine (AgreeHeap.lift (A := fun _ => Eq) hR
    (hR.concatText hh (hargs.mono fun _ _ => hR.mono hle₁))).bind hR fun w₂ _ s _ hs => ?_
  subst hs
  refine (agreeHeap_allocString hR headers s).bind hR fun w₃ _ r q hr => ?_
  exact .pure hR (.some (.object hr))

theorem stringLength_routine (hR : R.Lawful ctx ctx') (headers : Headers) :
    R.Routine headers Native.stringLength := by
  refine AgreeHeap.routine fun hargs => ?_
  refine (AgreeHeap.lift (A := R.handle) hR ((receiver_alike hargs).mono
    (fun e he => hR.ordinary he) fun _ _ h => h)).bind hR fun w₁ _ this this' hthis => ?_
  refine (AgreeHeap.get hR).bind hR fun w₂ hle₂ h k hh => ?_
  refine (AgreeHeap.lift (A := fun _ => Eq) hR
    (hR.getString hh (hR.mono hle₂ hthis))).bind hR fun w₃ _ s _ hs => ?_
  subst hs
  exact .pure hR (.some (.same rfl))

end Correspondence

/-! ### Catalogs whose native routines are all in one class -/

/-- If the method is native, its routine is in `P`. -/
def Method.Runs (P : Native → Prop) (m : Method) : Prop :=
  ∀ routine, m.body = .native routine → P routine

theorem Method.Runs.and {P Q : Native → Prop} {m : Method} (hP : m.Runs P) (hQ : m.Runs Q) :
    m.Runs fun routine => P routine ∧ Q routine :=
  fun routine h => ⟨hP routine h, hQ routine h⟩

namespace Catalog

variable {P : Native → Prop} {c c' : Catalog}

/-- All native routines are in `P`, those that are registered and those of methods. -/
structure Runs (P : Native → Prop) (c : Catalog) : Prop where
  natives : ∀ entry ∈ c.natives, P entry.2
  methods : ∀ m, c.Declares m → m.Runs P

theorem Runs.registerNative (hc : c.Runs P) (m : MethodRef) {routine : Native}
    (h : P routine) : (c.registerNative m routine).Runs P := by
  refine ⟨fun entry hentry => ?_, hc.methods⟩
  rcases List.mem_cons.1 hentry with rfl | hentry
  · exact h
  · exact hc.natives entry (List.mem_filter.1 hentry).1

theorem runs_build {d : MethodDecl} (hd : ∀ routine, d.native = some routine → P routine)
    (t : TypeRef) : (d.build t).Runs P := by
  intro routine hbody
  change d.body = .native routine at hbody
  unfold MethodDecl.body at hbody
  split at hbody
  · cases hbody
    exact hd _ ‹_›
  · split at hbody <;> cases hbody

theorem runs_of_bind {natives : NativeRegistry} (hnatives : ∀ entry ∈ natives, P entry.2)
    {m bound : Method} (hm : m.Runs P) (h : bind natives m = .ok bound) : bound.Runs P := by
  unfold bind at h
  split at h
  · split at h
    · rename_i routine hget
      cases h
      obtain ⟨l₁, l₂, hl, -⟩ := List.lookup_eq_some_iff.1 hget
      have hroutine : P routine := hnatives (m.ref, routine) (by simp [hl])
      rintro _ ⟨⟩
      exact hroutine
    · cases h
  · cases h
    exact hm

theorem runs_of_bindAll {natives : NativeRegistry} (hnatives : ∀ entry ∈ natives, P entry.2)
    {t : TypeRef} {ds : List MethodDecl} {taken : List (String × Nat)} {ms : List Method}
    (hds : ∀ d ∈ ds, ∀ routine, d.native = some routine → P routine)
    (h : bindAll natives t taken ds = .ok ms) : ∀ m ∈ ms, m.Runs P := by
  induction ds generalizing taken ms with
  | nil =>
      cases h
      rintro m ⟨⟩
  | cons d ds ih =>
      have hd := hds d List.mem_cons_self
      have hrest := fun d' hd' => hds d' (List.mem_cons_of_mem d hd')
      rw [bindAll] at h
      dsimp only at h
      split at h
      · cases h
      · obtain ⟨bound, hbound, h⟩ := bind_eq_ok h
        obtain ⟨ms', hms, h⟩ := bind_eq_ok h
        cases h
        intro m hm
        rcases List.mem_cons.1 hm with rfl | hm
        · exact runs_of_bind hnatives (runs_build hd t) hbound
        · exact ih hrest hms m hm

/-- A registered type brings along no native routines but its own. -/
theorem Runs.register (hc : c.Runs P) {d : TypeDecl} {t : TypeDef}
    (hd : ∀ m ∈ d.methods, ∀ routine, m.native = some routine → P routine)
    (h : c.register d = .ok (t, c')) : c'.Runs P := by
  obtain ⟨-, -, hmethods, rfl⟩ := register_eq_ok h
  refine ⟨hc.natives, ?_⟩
  rintro m ⟨t', ht', hm⟩
  rcases List.mem_cons.1 ht' with rfl | ht'
  · exact runs_of_bindAll hc.natives hd hmethods m hm
  · exact hc.methods m ⟨t', ht', hm⟩

/-- The computation keeps to native routines in `P`, whether it succeeds or fails. -/
def KeepsTo (P : Native → Prop) (x : Op α) : Prop := ∀ c : Catalog, c.Runs P → (x c).2.Runs P

theorem KeepsTo.seq {x : Op α} {y : Op β} (hx : KeepsTo P x) (hy : KeepsTo P y) :
    KeepsTo P (x >>= fun _ => y) := by
  intro c hc
  have hx := hx c hc
  rw [op_bind_apply]
  rcases hr : x c with ⟨e | a, c'⟩ <;> rw [hr] at hx
  · exact hx
  · exact hy c' hx

theorem keepsTo_add {d : TypeDecl}
    (hd : ∀ m ∈ d.methods, ∀ routine, m.native = some routine → P routine) :
    KeepsTo P (discard (add d)) := by
  intro c hc
  rw [op_discard_apply, add_apply]
  rcases hr : c.register d with e | ⟨t, c'⟩
  · exact hc
  · exact hc.register hd hr

theorem keepsTo_addNative (m : MethodRef) {routine : Native} (h : P routine) :
    KeepsTo P (addNative m routine) :=
  fun _ hc => hc.registerNative m h

theorem keepsTo_forM {f : α → Op Unit} (hf : ∀ a, KeepsTo P (f a)) (as : List α) :
    KeepsTo P (as.forM f) := by
  induction as with
  | nil => exact fun _ hc => hc
  | cons a as ih => exact (hf a).seq ih

/-- The core library has no native routines but four. -/
theorem withCorelib_runs (hnothing : ∀ name, P (.nothing name)) (hctor : P .stringConstructor)
    (hconcat : P .stringConcat) (hlength : P .stringLength) : withCorelib.Runs P := by
  have hempty : ({} : Catalog).Runs P := by
    refine ⟨?_, ?_⟩
    · rintro entry ⟨⟩
    · rintro m ⟨t, ⟨⟩, -⟩
  have hkeeps : KeepsTo P addCorelib := by
    refine (keepsTo_addNative _ (hnothing _)).seq (.seq (keepsTo_add ?_) (.seq
      (keepsTo_addNative _ hctor) (.seq (keepsTo_addNative _ hconcat) (.seq
      (keepsTo_addNative _ hlength) (.seq (keepsTo_add ?_) (keepsTo_forM (fun p => ?_) _))))))
    · intro m hm routine hroutine
      obtain rfl := List.mem_singleton.1 hm
      cases hroutine
    · intro m hm routine hroutine
      rcases List.mem_cons.1 hm with rfl | hm
      · cases hroutine
      · rcases List.mem_cons.1 hm with rfl | hm
        · cases hroutine
        · obtain rfl := List.mem_singleton.1 hm
          cases hroutine
    · exact keepsTo_add fun m hm => by cases hm
  exact hkeeps {} hempty

end Catalog

/-- **The routines of the core library are indifferent to their handles.** -/
theorem Correspondence.corelib_routine {W : Type} {R : Correspondence W} {ctx ctx' : Context}
    (hR : R.Lawful ctx ctx') (headers : Headers) :
    Catalog.withCorelib.Runs (R.Routine headers) :=
  Catalog.withCorelib_runs (nothing_routine hR headers) (stringConstructor_routine hR headers)
    (stringConcat_routine hR headers) (stringLength_routine hR headers)

end CilMachine
