/-
CilMachine/Proofs/Ordinary.lean

Decoding, the catalog, virtual dispatch and the arithmetic fail with ordinary errors only: they know
neither the place of an instruction nor the heap.  Decoding fails just by refusing the instruction,
and none of the others do so.  The catalog's answers moreover are its own: a method that it finds is
a method of one of its types.
-/
import CilMachine.Proofs.Outcome

namespace CilMachine

/-! ### Decoding -/

/-- The errors that decoding the instruction fails with: nothing executes it, or it lacks an
operand. -/
inductive Instruction.Refuses (i : Instruction) : ExecError → Prop
  | unsupported : Refuses i i.unsupported
  | operand (role : OperandRole) : Refuses i (.invalidOperand i.mnemonic role)

theorem Instruction.Refuses.isOrdinary {i : Instruction} {e : ExecError} (h : i.Refuses e) :
    e.isOrdinary = true := by
  cases h <;> rfl

theorem Instruction.need_refuses {α : Type} (i : Instruction) (role : OperandRole)
    (part : Operand → Option α) : Only i.Refuses (i.need role part) := by
  unfold need
  split
  · exact only_ok
  · exact only_error (.operand role)

theorem Instruction.need_onlyOrdinary {α : Type} (i : Instruction) (role : OperandRole)
    (part : Operand → Option α) : OnlyOrdinary (i.need role part) :=
  (i.need_refuses role part).imp fun _ he => he.isOrdinary

theorem mem_sequentialForms {mnemonic : String} {form : ActionForm}
    (h : sequentialForms.lookup mnemonic = some form) : (mnemonic, form) ∈ sequentialForms := by
  obtain ⟨l₁, l₂, hl, -⟩ := List.lookup_eq_some_iff.1 h
  exact hl ▸ List.mem_append_right l₁ List.mem_cons_self

theorem Instruction.formAction_refuses (i : Instruction) (form : ActionForm) :
    Only i.Refuses (i.formAction form) := by
  cases form with
  | plain a => exact only_ok
  | _ => exact (i.need_refuses _ _).map _

theorem Instruction.action?_refuses (i : Instruction) : Only i.Refuses i.action? := by
  unfold action?
  split
  · -- sequential: the mnemonic is looked up first
    split
    · exact i.formAction_refuses _
    · exact only_error .unsupported
  · -- calls and branches: the operand comes first
    refine (i.need_refuses _ _).bind fun m _ => ?_
    split
    · exact only_ok
    · exact only_error .unsupported
  · refine (i.need_refuses _ _).bind fun target _ => ?_
    split
    · exact only_ok
    · exact only_error .unsupported
  · refine (i.need_refuses _ _).bind fun target _ => ?_
    split
    · exact only_ok
    · exact only_error .unsupported
  · split
    · exact only_ok
    · exact only_error .unsupported
  all_goals exact only_error .unsupported

theorem Instruction.action?_onlyOrdinary (i : Instruction) : OnlyOrdinary i.action? :=
  i.action?_refuses.imp fun _ he => he.isOrdinary

/-! ### Indices -/

theorem checkedIndex_onlyPlain (index : Int) (length : Nat) :
    OnlyPlain (checkedIndex index length) := by
  unfold checkedIndex
  split
  · exact only_ok
  · exact only_error rfl

theorem checkedIndex_lt {index : Int} {length i : Nat} (h : checkedIndex index length = .ok i) :
    i < length := by
  unfold checkedIndex at h
  split at h
  · cases h
    omega
  · cases h

theorem checkedIndex_natCast {length i : Nat} (h : i < length) :
    checkedIndex i length = .ok i := by
  unfold checkedIndex
  rw [if_pos (by omega), Int.toNat_natCast]

/-! ### Types and members -/

namespace Catalog

theorem resolveType_onlyPlain (c : Catalog) (t : TypeRef) :
    OnlyPlain (c.resolveType t) := by
  unfold resolveType
  split
  · exact only_ok
  · exact only_error rfl

theorem flavorOf_onlyPlain (c : Catalog) (t : TypeRef) : OnlyPlain (c.flavorOf t) :=
  (c.resolveType_onlyPlain t).bind fun _ _ => only_ok

theorem chain_onlyPlain (r : TypeRef) (types : List TypeDef) :
    OnlyPlain (chain types r) := by
  fun_induction chain types r with
  | case1 r => exact only_error rfl
  | case2 => exact only_ok
  | case3 t older b _ ih => exact ih.map _
  | case4 t older r _ ih => exact ih

theorem ancestry_onlyPlain (c : Catalog) (r : TypeRef) : OnlyPlain (c.ancestry r) :=
  chain_onlyPlain r c.types

theorem resolveMethod_onlyPlain (c : Catalog) (m : MethodRef) :
    OnlyPlain (c.resolveMethod m) := by
  refine (c.ancestry_onlyPlain _).bind fun ts _ => ?_
  split
  · exact only_ok
  · exact only_error rfl

theorem resolveConstructor_onlyPlain (c : Catalog) (m : MethodRef) :
    OnlyPlain (c.resolveConstructor m) := by
  refine (c.resolveType_onlyPlain _).bind fun t _ => ?_
  split
  · split
    · exact only_ok
    · exact only_error rfl
  · exact only_error rfl

theorem resolveField_onlyPlain (c : Catalog) (f : FieldRef) :
    OnlyPlain (c.resolveField f) := by
  refine (c.ancestry_onlyPlain _).bind fun ts _ => ?_
  split
  · exact only_ok
  · exact only_error rfl

theorem findOverride_onlyPlain (c : Catalog) (r : TypeRef) (name : String) :
    OnlyPlain (c.findOverride r name) :=
  (c.ancestry_onlyPlain r).bind fun _ _ => only_ok

theorem isAssignable_onlyPlain (c : Catalog) (t target : TypeRef) :
    OnlyPlain (c.isAssignable t target) :=
  (c.ancestry_onlyPlain t).bind fun _ _ => only_ok

theorem instanceFields_onlyPlain (c : Catalog) (t : TypeRef) :
    OnlyPlain (c.instanceFields t) := by
  refine (c.ancestry_onlyPlain t).bind fun ts _ => ?_
  refine only_foldlM (fun l d => ?_) _ _
  refine only_foldlM (fun l f => ?_) _ _
  exact (c.flavorOf_onlyPlain _).bind fun _ _ => only_ok

/-! ### Where methods come from -/

/-- A method of one of the registered types. -/
def Declares (c : Catalog) (m : Method) : Prop := ∃ d ∈ c.types, m ∈ d.methods

theorem mem_of_chain {r : TypeRef} {types ts : List TypeDef} (h : chain types r = .ok ts) :
    ∀ d ∈ ts, d ∈ types := by
  fun_induction chain types r generalizing ts with
  | case1 r => cases h
  | case2 => cases h; simp
  | case3 t older b _ ih =>
    rcases hb : chain older b with e | ts'
    · rw [hb] at h
      cases h
    · rw [hb] at h
      cases h
      intro d hd
      rcases List.mem_cons.1 hd with rfl | hd
      · exact List.mem_cons_self
      · exact List.mem_cons_of_mem _ (ih hb d hd)
  | case4 t older r _ ih =>
    intro d hd
    exact List.mem_cons_of_mem _ (ih h d hd)

theorem declares_of_findSome? {c : Catalog} {ts : List TypeDef} {p : TypeDef → Option Method}
    {m : Method} (hts : ∀ d ∈ ts, d ∈ c.types) (hp : ∀ d m, p d = some m → m ∈ d.methods)
    (h : ts.findSome? p = some m) : c.Declares m := by
  obtain ⟨d, hd, hm⟩ := List.exists_of_findSome?_eq_some h
  exact ⟨d, hts d hd, hp d m hm⟩

theorem declares_of_resolveMethod {c : Catalog} {r : MethodRef} {m : Method}
    (h : c.resolveMethod r = .ok m) : c.Declares m := by
  obtain ⟨ts, hts, hm⟩ := bind_eq_ok h
  split at hm
  · cases hm
    refine declares_of_findSome? (mem_of_chain hts) (fun d m hm => ?_) ‹_›
    exact List.mem_of_find?_eq_some hm
  · cases hm

theorem declares_of_resolveConstructor {c : Catalog} {r : MethodRef} {m : Method}
    (h : c.resolveConstructor r = .ok m) : c.Declares m := by
  obtain ⟨d, hd, hm⟩ := bind_eq_ok h
  unfold resolveType at hd
  split at hd
  · cases hd
    split at hm
    · split at hm
      · cases hm
        exact ⟨d, List.mem_of_find?_eq_some ‹_›, List.mem_of_find?_eq_some ‹_›⟩
      · cases hm
    · cases hm
  · cases hd

theorem declares_of_findOverride {c : Catalog} {r : TypeRef} {name : String} {m : Method}
    (h : c.findOverride r name = .ok (some m)) : c.Declares m := by
  obtain ⟨ts, hts, hm⟩ := bind_eq_ok h
  refine declares_of_findSome? (mem_of_chain hts) (fun d m hm => ?_) (Except.ok.inj hm)
  exact List.mem_of_find?_eq_some hm

end Catalog

/-! ### Virtual dispatch -/

namespace Dispatch

theorem target_eq_ok {c : Catalog} {declared : Method} {runtime : TypeRef} {m : Method}
    (h : target c declared runtime = .ok m) :
    c.findOverride runtime declared.name = .ok (some m) := by
  obtain ⟨found, ho, hm⟩ := bind_eq_ok h
  rcases found with - | m'
  · cases hm
  · cases hm
    exact ho

theorem target_onlyPlain (c : Catalog) (declared : Method) (runtime : TypeRef) :
    OnlyPlain (target c declared runtime) := by
  refine (c.findOverride_onlyPlain runtime declared.name).bind fun m _ => ?_
  rcases m with - | m
  · exact only_error rfl
  · exact only_ok

theorem resolve_onlyPlain (d : Dispatch) (c : Catalog) (declared : Method)
    (runtime : TypeRef) : OnlyPlain (d.resolve c declared runtime) := by
  unfold resolve
  split
  · exact only_ok
  · exact (target_onlyPlain c declared runtime).map _

end Dispatch

/-! ### Numbers -/

namespace Value

theorem arithmetic_onlyPlain (op : Arithmetic) (left right : Value) :
    OnlyPlain (left.arithmetic op right) := by
  unfold arithmetic
  split
  · unfold Arithmetic.apply
    split
    case h_9 | h_10 =>
      -- integer division
      split
      · exact only_error rfl
      · exact only_ok
    all_goals exact only_ok
  · exact only_error rfl

theorem compare_onlyPlain (op : Comparison) (left right : Value) :
    OnlyPlain (left.compare op right) := by
  unfold compare
  split
  · exact only_ok
  · split
    · exact only_ok
    · exact only_error rfl

theorem convert_onlyPlain (op : Conversion) (v : Value) : OnlyPlain (v.convert op) := by
  unfold convert
  split
  · exact only_ok
  · exact only_ok
  · split
    · exact only_ok
    · exact only_error rfl

end Value

end CilMachine
