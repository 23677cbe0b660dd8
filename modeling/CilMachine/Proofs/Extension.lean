/-
CilMachine/Proofs/Extension.lean

How a catalog grows.  A registration puts a type in front of the others under a name that none of
them has; so what the catalog has answered once it answers ever after (`Extends.upholds`).  All its
answers about members and layouts come from two lookups, that of a type and that of a chain of bases
(`upholds_of_lookups`), and these two a registration does not change.  `register_exact` says all
that a registration does.

Every field of a layout is a declared field of some type (`instanceFields_mem`).
-/
import CilMachine.Proofs.Natives

namespace CilMachine

/-! ### Folds that may fail -/

section Folds

variable {ε α β : Type} {f g : β → α → Except ε β} {as : List α} {b b' : β}

/-- What each step preserves, the fold preserves. -/
theorem foldlM_induct {I : β → Prop} (hf : ∀ b a b', a ∈ as → I b → f b a = .ok b' → I b')
    (hb : I b) (h : as.foldlM f b = .ok b') : I b' := by
  induction as generalizing b with
  | nil =>
      cases h
      exact hb
  | cons a as ih =>
      rw [List.foldlM_cons] at h
      obtain ⟨b₁, hb₁, h⟩ := bind_eq_ok h
      have hI : I b₁ := hf b a b₁ List.mem_cons_self hb hb₁
      exact ih (fun b a b' ha => hf b a b' (List.mem_cons_of_mem _ ha)) hI h

/-- If each step that succeeds succeeds alike in another fold, then so does the whole. -/
theorem foldlM_eq_ok_of_step (hfg : ∀ b a b', f b a = .ok b' → g b a = .ok b')
    (h : as.foldlM f b = .ok b') : as.foldlM g b = .ok b' := by
  induction as generalizing b with
  | nil => exact h
  | cons a as ih =>
      rw [List.foldlM_cons] at h ⊢
      obtain ⟨b₁, hb₁, h⟩ := bind_eq_ok h
      rw [hfg b a b₁ hb₁]
      exact ih h

end Folds

namespace Catalog

variable {P Q : Native → Prop} {c c' c₁ : Catalog} {r : TypeRef}

/-! ### Layouts -/

/-- A field of the name and the flavor is declared by some type. -/
def DeclaresField (c : Catalog) (name : String) (flavor : Flavor) : Prop :=
  ∃ d ∈ c.types, ∃ f ∈ d.fields, f.name = name ∧ c.flavorOf f.type = .ok flavor

theorem extendLayout_mem {layout layout' : Named Flavor} {d : TypeDef} (hd : d ∈ c.types)
    (hlayout : ∀ p ∈ layout, c.DeclaresField p.1 p.2)
    (h : c.extendLayout layout d.fields = .ok layout') :
    ∀ p ∈ layout', c.DeclaresField p.1 p.2 := by
  refine foldlM_induct (I := fun layout => ∀ p ∈ layout, c.DeclaresField p.1 p.2) ?_ hlayout h
  intro l f l' hf hl hstep p hp
  obtain ⟨flavor, hflavor, hput⟩ := bind_eq_ok hstep
  cases hput
  rcases Named.mem_put hp with hp | rfl
  · exact hl p hp
  · exact ⟨d, hd, f, hf, rfl, hflavor⟩

/-- Every field of a layout is a declared one. -/
theorem instanceFields_mem {layout : Named Flavor} (h : c.instanceFields r = .ok layout) :
    ∀ p ∈ layout, c.DeclaresField p.1 p.2 := by
  obtain ⟨ts, hts, h⟩ := bind_eq_ok h
  refine foldlM_induct (I := fun layout => ∀ p ∈ layout, c.DeclaresField p.1 p.2) ?_ ?_ h
  · intro l d l' hd hl hstep
    exact extendLayout_mem (mem_of_chain hts d (List.mem_reverse.1 hd)) hl hstep
  · intro p hp
    cases hp

/-- A field that has been resolved is declared by some type under its name. -/
theorem declaresField_of_resolveField {f : FieldRef} {field : Field} {flavor : Flavor}
    (h : c.resolveField f = .ok field) (hflavor : c.flavorOf field.type = .ok flavor) :
    c.DeclaresField f.name flavor := by
  obtain ⟨ts, hts, h⟩ := bind_eq_ok h
  split at h
  · rename_i found hfound
    cases h
    obtain ⟨d, hd, hfield⟩ := List.exists_of_findSome?_eq_some hfound
    have hname : field.name = f.name := by simpa using List.find?_some hfield
    exact ⟨d, mem_of_chain hts d hd, field, List.mem_of_find?_eq_some hfield, hname, hflavor⟩
  · cases h

/-! ### Registration -/

/-- The catalog `c'` has come about from `c` by registrations of types and of native routines, where
all the native routines are in `P`. -/
inductive Extends (P : Native → Prop) (c : Catalog) : Catalog → Prop
  | refl : Extends P c c
  | register {c₁ c₂ : Catalog} {d : TypeDecl} {t : TypeDef} : Extends P c c₁ →
      (∀ m ∈ d.methods, ∀ routine, m.native = some routine → P routine) →
      c₁.register d = .ok (t, c₂) → Extends P c c₂
  | registerNative {c₁ : Catalog} (m : MethodRef) {routine : Native} : Extends P c c₁ →
      P routine → Extends P c (c₁.registerNative m routine)

theorem Extends.trans (h : c.Extends P c₁) (h' : c₁.Extends P c') : c.Extends P c' := by
  induction h' with
  | refl => exact h
  | register _ hd hregister ih => exact .register ih hd hregister
  | registerNative m _ hroutine ih => exact .registerNative m ih hroutine

/-- A registration in place extends the catalog, or it fails and leaves the catalog as it was. -/
theorem Extends.add {d : TypeDecl} (h : c.Extends P c')
    (hd : ∀ m ∈ d.methods, ∀ routine, m.native = some routine → P routine) :
    c.Extends P (Catalog.add d c').2 := by
  rw [add_apply]
  rcases hr : c'.register d with e | ⟨t, c₁⟩
  · exact h
  · exact .register h hd hr

theorem Extends.runs (h : c.Extends P c') (hPQ : ∀ routine, P routine → Q routine)
    (hc : c.Runs Q) : c'.Runs Q := by
  induction h with
  | refl => exact hc
  | register _ hd hregister ih =>
      exact ih.register (fun m hm routine hroutine => hPQ _ (hd m hm routine hroutine)) hregister
  | registerNative m _ hroutine ih => exact ih.registerNative m (hPQ _ hroutine)

theorem contains_of_chain {types ts : List TypeDef} (h : chain types r = .ok ts) :
    ∃ d ∈ types, d.ref = r := by
  fun_induction chain types r generalizing ts with
  | case1 r => cases h
  | case2 t older _ => exact ⟨t, List.mem_cons_self, rfl⟩
  | case3 t older b _ ih => exact ⟨t, List.mem_cons_self, rfl⟩
  | case4 t older r _ ih =>
      obtain ⟨d, hd, hr⟩ := ih h
      exact ⟨d, List.mem_cons_of_mem t hd, hr⟩

/-- The name of a registered type is new. -/
theorem ref_ne_of_register {d : TypeDecl} {t t' : TypeDef} (h : c.register d = .ok (t, c'))
    (ht' : t' ∈ c.types) : t.ref ≠ t'.ref := by
  obtain ⟨hcontains, hheader, -, -⟩ := register_eq_ok h
  intro heq
  have href : t.ref = d.ref := congrArg TypeHeader.ref hheader
  have hfound : (c.get? d.ref).isSome := by
    rw [get?, List.find?_isSome]
    exact ⟨t', ht', by simp [← heq, href]⟩
  rw [contains, hfound] at hcontains
  cases hcontains

theorem ancestry_register {d : TypeDecl} {t : TypeDef} {ts : List TypeDef}
    (h : c.register d = .ok (t, c')) (hts : c.ancestry r = .ok ts) : c'.ancestry r = .ok ts := by
  -- the chain begins at a type that was there, so the new one in front is passed over
  obtain ⟨t', ht', rfl⟩ := contains_of_chain hts
  have hne := ref_ne_of_register h ht'
  obtain ⟨-, -, -, rfl⟩ := register_eq_ok h
  rw [ancestry, chain, if_neg hne]
  exact hts

theorem resolveType_register {d : TypeDecl} {t t' : TypeDef} (h : c.register d = .ok (t, c'))
    (ht' : c.resolveType r = .ok t') : c'.resolveType r = .ok t' := by
  obtain rfl := ref_of_resolveType ht'
  have hget := resolveType_eq_ok.1 ht'
  have hne := ref_ne_of_register h (List.mem_of_find?_eq_some hget)
  obtain ⟨-, -, -, rfl⟩ := register_eq_ok h
  rw [resolveType_eq_ok, get?, List.find?_cons_of_neg (by simpa using hne)]
  exact hget

/-! ### Answers that stay -/

/-- What the catalog `c` answers, the catalog `c'` answers alike.  Failures are no answers. -/
structure Upholds (c' c : Catalog) : Prop where
  type : ∀ r t, c.resolveType r = .ok t → c'.resolveType r = .ok t
  method : ∀ ref m, c.resolveMethod ref = .ok m → c'.resolveMethod ref = .ok m
  constructor : ∀ ref m, c.resolveConstructor ref = .ok m → c'.resolveConstructor ref = .ok m
  field : ∀ ref f, c.resolveField ref = .ok f → c'.resolveField ref = .ok f
  override : ∀ r name found, c.findOverride r name = .ok found → c'.findOverride r name = .ok found
  assignable : ∀ r target b, c.isAssignable r target = .ok b → c'.isAssignable r target = .ok b
  layout : ∀ r fields, c.instanceFields r = .ok fields → c'.instanceFields r = .ok fields

theorem Upholds.refl (c : Catalog) : c.Upholds c :=
  ⟨fun _ _ h => h, fun _ _ h => h, fun _ _ h => h, fun _ _ h => h, fun _ _ _ h => h,
    fun _ _ _ h => h, fun _ _ h => h⟩

theorem Upholds.trans {c₂ : Catalog} (h₂ : c₂.Upholds c') (h : c'.Upholds c) : c₂.Upholds c :=
  ⟨fun _ _ hc => h₂.type _ _ (h.type _ _ hc), fun _ _ hc => h₂.method _ _ (h.method _ _ hc),
    fun _ _ hc => h₂.constructor _ _ (h.constructor _ _ hc),
    fun _ _ hc => h₂.field _ _ (h.field _ _ hc),
    fun _ _ _ hc => h₂.override _ _ _ (h.override _ _ _ hc),
    fun _ _ _ hc => h₂.assignable _ _ _ (h.assignable _ _ _ hc),
    fun _ _ hc => h₂.layout _ _ (h.layout _ _ hc)⟩

/-- A catalog that finds the types and the chains of bases of another upholds its answers. -/
theorem upholds_of_lookups
    (htype : ∀ r t, c.resolveType r = .ok t → c'.resolveType r = .ok t)
    (hancestry : ∀ r ts, c.ancestry r = .ok ts → c'.ancestry r = .ok ts) : c'.Upholds c where
  type := htype
  method ref m h := by
    obtain ⟨ts, hts, h⟩ := bind_eq_ok h
    rw [resolveMethod, hancestry _ ts hts]
    exact h
  constructor ref m h := by
    obtain ⟨t, ht, h⟩ := bind_eq_ok h
    rw [resolveConstructor, htype _ t ht]
    exact h
  field ref f h := by
    obtain ⟨ts, hts, h⟩ := bind_eq_ok h
    rw [resolveField, hancestry _ ts hts]
    exact h
  override r name found h := by
    obtain ⟨ts, hts, h⟩ := bind_eq_ok h
    rw [findOverride, hancestry _ ts hts]
    exact h
  assignable r target b h := by
    obtain ⟨ts, hts, h⟩ := bind_eq_ok h
    rw [isAssignable, hancestry _ ts hts]
    exact h
  layout r fields h := by
    obtain ⟨ts, hts, h⟩ := bind_eq_ok h
    rw [instanceFields, hancestry _ ts hts]
    -- over the types of the chain, and for each over its fields, whose flavors are as they were
    refine foldlM_eq_ok_of_step (fun l d l' hstep => ?_) h
    refine foldlM_eq_ok_of_step (fun l f l' hstep => ?_) hstep
    obtain ⟨flavor, hflavor, hput⟩ := bind_eq_ok hstep
    have hkept : c'.flavorOf f.type = .ok flavor := by
      obtain ⟨t, ht, hflavor⟩ := bind_eq_ok hflavor
      rw [flavorOf, htype _ t ht]
      exact hflavor
    rw [hkept]
    exact hput

theorem upholds_register {d : TypeDecl} {t : TypeDef} (h : c.register d = .ok (t, c')) :
    c'.Upholds c :=
  upholds_of_lookups (fun _ _ => resolveType_register h) fun _ _ => ancestry_register h

/-- The lookups do not ask for native routines. -/
theorem upholds_registerNative (c : Catalog) (m : MethodRef) (routine : Native) :
    (c.registerNative m routine).Upholds c :=
  upholds_of_lookups (fun _ _ h => h) fun _ _ h => h

/-- Whatever is registered, the answers stay. -/
theorem Extends.upholds (h : c.Extends P c') : c'.Upholds c := by
  induction h with
  | refl => exact .refl c
  | register _ _ hregister ih => exact (upholds_register hregister).trans ih
  | registerNative m _ _ ih => exact (upholds_registerNative _ m _).trans ih

theorem Extends.instanceFields {layout : Named Flavor} (h : c.Extends P c')
    (hlayout : c.instanceFields r = .ok layout) : c'.instanceFields r = .ok layout :=
  h.upholds.layout r layout hlayout

/-! ### The core library -/

/-- The computation makes registrations and does nothing else, whether it succeeds or fails. -/
def Registers (x : Op α) : Prop := ∀ c : Catalog, c.Extends (fun _ => True) (x c).2

theorem Registers.seq {x : Op α} {y : Op β} (hx : Registers x) (hy : Registers y) :
    Registers (x >>= fun _ => y) := by
  intro c
  have hx := hx c
  rw [op_bind_apply]
  rcases hr : x c with ⟨e | a, c'⟩ <;> rw [hr] at hx
  · exact hx
  · exact hx.trans (hy c')

theorem registers_add (d : TypeDecl) : Registers (discard (add d)) := by
  intro c
  rw [op_discard_apply]
  exact Extends.refl.add fun _ _ _ _ => trivial

theorem registers_addNative (m : MethodRef) (routine : Native) : Registers (addNative m routine) :=
  fun _ => .registerNative m .refl trivial

theorem registers_forM {f : α → Op Unit} (hf : ∀ a, Registers (f a)) (as : List α) :
    Registers (as.forM f) := by
  induction as with
  | nil => exact fun _ => .refl
  | cons a as ih => exact (hf a).seq ih

/-- The core library is put together by registrations. -/
theorem extends_withCorelib : Extends (fun _ => True) {} withCorelib := by
  have hregisters : Registers addCorelib :=
    (registers_addNative _ _).seq <| (registers_add _).seq <| (registers_addNative _ _).seq <|
      (registers_addNative _ _).seq <| (registers_addNative _ _).seq <| (registers_add _).seq <|
        registers_forM (fun _ => registers_add _) _
  exact hregisters {}

/-! ### Exactness -/

/-- The new type is found under its name, and the others are found as before. -/
theorem get?_register {d : TypeDecl} {t : TypeDef} (h : c.register d = .ok (t, c')) (r : TypeRef) :
    c'.get? r = if r = d.ref then some t else c.get? r := by
  obtain ⟨-, hheader, -, rfl⟩ := register_eq_ok h
  have href : t.ref = d.ref := congrArg TypeHeader.ref hheader
  rw [get?, List.find?_cons, href]
  split
  · rename_i heq
    rw [if_pos (eq_of_beq heq).symm]
  · rename_i hne
    rw [if_neg fun heq => by simp [heq] at hne]
    rfl

theorem isUnbound_of_register {d : TypeDecl} {t : TypeDef} (h : c.register d = .ok (t, c'))
    {m : Method} (hm : m ∈ t.methods) : m.isUnbound = false := by
  obtain ⟨-, -, hmethods, -⟩ := register_eq_ok h
  obtain ⟨-, -, hbind⟩ := bindAll_eq_ok_iff.1 hmethods
  obtain ⟨declared, -, hbound⟩ := forall₂_exists_of_mem hbind.flip hm
  exact isUnbound_of_bind hbound

/-- **Registration is exact, atomic and monotone.**  A type is registered if and only if its
declaration is registrable.  Else the catalog stays as it was.  If it is, then it is the one type
that is added, none of its methods is left without a body to run, and whatever the catalog has
answered it answers ever after, whatever is registered then. -/
theorem register_exact (c : Catalog) (d : TypeDecl) :
    ((∃ t c', c.register d = .ok (t, c')) ↔ c.Registrable d) ∧
      (∀ e, c.register d = .error e → Catalog.add d c = (.error e, c)) ∧
      (∀ t c', c.register d = .ok (t, c') →
        Catalog.add d c = (.ok t, c') ∧ c'.types = t :: c.types ∧ c'.natives = c.natives ∧
          t.toTypeHeader = ⟨d.ref, d.flavor, d.base, d.fields⟩ ∧
          List.Forall₂ (fun declared m => bind c.natives (declared.build d.ref) = .ok m)
            d.methods t.methods ∧
          (∀ m ∈ t.methods, m.isUnbound = false) ∧
          ∀ r, c'.get? r = if r = d.ref then some t else c.get? r) ∧
      ∀ c', c.Extends (fun _ => True) c' → c'.Upholds c := by
  refine ⟨isOk_register_iff, fun e h => ?_, fun t c' h => ?_, fun c' h => h.upholds⟩
  · rw [add_apply, h]
  · obtain ⟨-, hheader, hmethods, hc'⟩ := register_eq_ok h
    obtain ⟨-, -, hbind⟩ := bindAll_eq_ok_iff.1 hmethods
    refine ⟨by rw [add_apply, h], by rw [hc'], by rw [hc'], hheader, hbind, fun m hm => ?_,
      get?_register h⟩
    exact isUnbound_of_register h hm

end Catalog

namespace Sample

/-- A class with a field, a constructor that does nothing, and a method that is built in. -/
def point : TypeDecl :=
  (TypeDecl.ofRef ⟨"app", "Point"⟩).withField "x" (.corelib "System.Int32")
    |>.withDefaultConstructor
    |>.withMethod { name := "norm", returns := some (.corelib "System.Int32") }

/-- The core library, and a routine for the built-in method of the class. -/
def withNorm : Catalog :=
  Catalog.withCorelib.registerNative ⟨⟨"app", "Point"⟩, "norm", 0⟩ (.nothing "norm")

/-- Without the routine the class is refused; with it, it is added, and the core library is what it
was. -/
theorem register_exact_point :
    ¬ Catalog.withCorelib.Registrable point ∧
      (Catalog.add point .withCorelib).2 = .withCorelib ∧
      ∃ t c', withNorm.register point = .ok (t, c') ∧ c'.get? ⟨"app", "Point"⟩ = some t ∧
        c'.Upholds withNorm := by
  have hfails : (Catalog.withCorelib.register point).isOk = false := by decide +kernel
  have hok : (withNorm.register point).isOk = true := by decide +kernel
  refine ⟨fun h => ?_, ?_, ?_⟩
  · obtain ⟨t, c', hr⟩ := (Catalog.register_exact .withCorelib point).1.2 h
    rw [hr] at hfails
    cases hfails
  · rcases hr : Catalog.withCorelib.register point with e | ⟨t, c'⟩
    · rw [(Catalog.register_exact .withCorelib point).2.1 e hr]
    · rw [hr] at hfails
      cases hfails
  · rcases hr : withNorm.register point with e | ⟨t, c'⟩
    · rw [hr] at hok
      cases hok
    obtain ⟨-, -, hadded, hstays⟩ := Catalog.register_exact withNorm point
    obtain ⟨-, -, -, -, -, -, hget⟩ := hadded t c' hr
    refine ⟨t, c', rfl, (hget ⟨"app", "Point"⟩).trans (if_pos rfl), hstays c' ?_⟩
    exact .register .refl (fun _ _ _ _ => trivial) hr

end Sample

end CilMachine
