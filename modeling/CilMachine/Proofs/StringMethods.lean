/-
CilMachine/Proofs/StringMethods.lean

The methods of strings, as a program invokes them.  A method with a native routine comes out as its
routine does (`invoke_native`, `invoke_native_fails`), so what is proved of a routine on a heap
holds of every invocation that finds room for its frame.  Whatever is registered on top of the core
library, the methods of strings are found with the routines of the core library.

`Heap.HasText` says which text a value has: null has the empty one, and an instance the one in its
text field.  It is what the routines read, and they fail on every other value.
-/
import CilMachine.Proofs.Extension
import CilMachine.Proofs.FrameDiscipline
import CilMachine.Proofs.Operations
import CilMachine.Proofs.Utf16

namespace CilMachine

/-! ### Computations on all elements of a list -/

/-- All elements are mapped just if each one is. -/
theorem mapM_eq_ok_iff {ε α β : Type} {f : α → Except ε β} {as : List α} {bs : List β} :
    as.mapM f = .ok bs ↔ List.Forall₂ (fun a b => f a = .ok b) as bs := by
  constructor
  · intro h
    induction as generalizing bs with
    | nil =>
        cases h
        exact .nil
    | cons a as ih =>
        rw [List.mapM_cons] at h
        obtain ⟨b, hb, h⟩ := bind_eq_ok h
        obtain ⟨bs', hbs, h⟩ := bind_eq_ok h
        cases h
        exact .cons hb (ih hbs)
  · intro h
    induction h with
    | nil => rfl
    | cons hb _ ih =>
        rw [List.mapM_cons, hb]
        simp only [bind, Except.bind, ih]
        rfl

/-! ### Native methods -/

namespace Machine

variable {ctx : Context} {m : Method} {args : List Value} {s u : Machine} {routine : Native}
  {v : Option Value} {k : Heap} {e : Failure}

/-- A method's frame can be pushed. -/
def HasRoom (s : Machine) : Prop := s.calls.depth < s.calls.limit
deriving Decidable

/-- An invocation that has ended has left the room that it found. -/
theorem HasRoom.of_invoke {fuel : Nat} {r : Except Failure (Option Value)} (hs : s.HasRoom)
    (h : invoke ctx fuel m args s = some (r, u)) : u.HasRoom := by
  have hcalls := invoke_continues h
  rw [HasRoom, hcalls.depth_eq, hcalls.limit]
  exact hs

/-- A native method does in its frame what its routine does with the arguments. -/
theorem runMethod_entered {invoker : Method → List Value → Run (Option Value)} {fuel : Nat}
    {calls : CallStack} (hm : m.body = .native routine) (hpush : s.calls.push m args = .ok calls) :
    runMethod ctx invoker fuel m (entered ctx m calls s) =
      let (r, k) := (routine.run ctx.catalog.headers args).run.run s.heap
      some (r.map fun _ => (), afterNative (entered ctx m calls s) k r) := by
  obtain ⟨-, caller, rfl⟩ := CallStack.push_eq_ok hpush
  rw [runMethod_native hm, runNative_apply (s := entered ctx m _ s) rfl ctx routine]
  rfl

/-- The invocation of a native method returns what its routine does and leaves the heap that its
routine leaves, if this is a value just if the method is to return one. -/
theorem invoke_native (ctx : Context) (hm : m.body = .native routine) (hs : s.HasRoom)
    (hrun : (routine.run ctx.catalog.headers args).run.run s.heap = (.ok v, k))
    (hv : v.isSome = m.returnsValue) :
    ∃ u, (∀ fuel, invoke ctx (fuel + 1) m args s = some (.ok v, u)) ∧ u.heap = k := by
  obtain ⟨calls, hpush⟩ : ∃ calls, s.calls.push m args = .ok calls := ⟨_, if_pos hs⟩
  obtain ⟨f, hf, hfinish⟩ := finish_of_push (u := afterNative (entered ctx m calls s) k (.ok v))
    hpush (.afterCall _ _) ctx
  -- what the routine has yielded is all that is on the stack of the method's frame
  have hreturned : CallStack.returned m f.stack = .ok v := by
    obtain ⟨-, caller, rfl⟩ := CallStack.push_eq_ok hpush
    rcases v with - | v <;> cases hf <;> unfold CallStack.returned <;> rw [← hv] <;> rfl
  rw [hreturned] at hfinish
  refine ⟨left ctx m s.calls (.ok v) (afterNative (entered ctx m calls s) k (.ok v)),
    fun fuel => ?_, rfl⟩
  rw [invoke_succ_apply, hpush]
  show executeWith ctx (invoke ctx fuel) fuel m (entered ctx m calls s) = _
  rw [executeWith_apply, runMethod_entered hm hpush, hrun]
  exact congrArg some hfinish

/-- If the routine fails and has left the heap as it was, then so does the invocation, also where
its frame is refused. -/
theorem invoke_native_fails (hm : m.body = .native routine)
    (hrun : (routine.run ctx.catalog.headers args).run.run s.heap = (.error e, s.heap)) :
    ∃ e u, (∀ fuel, invoke ctx (fuel + 1) m args s = some (.error e, u)) ∧ u.heap = s.heap := by
  rcases hpush : s.calls.push m args with e' | calls
  · refine ⟨.execution e', s, fun fuel => ?_, rfl⟩
    rw [invoke_succ_apply, hpush]
  · let u := afterNative (entered ctx m calls s) s.heap (.error e)
    refine ⟨e, { u with calls := u.calls.discard.2 }, fun fuel => ?_, rfl⟩
    rw [invoke_succ_apply, hpush]
    show executeWith ctx (invoke ctx fuel) fuel m (entered ctx m calls s) = _
    rw [executeWith_apply, runMethod_entered hm hpush, hrun]
    rfl

end Machine

/-- A computation that does not touch the heap, as part of a routine. -/
theorem Heap.lift_apply {α : Type} (x : Except ExecError α) (h : Heap) :
    (liftM x : Heap.Op α) h = (x.mapError .execution, h) := by
  cases x <;> rfl

/-! ### The methods of strings -/

namespace Catalog

variable {P : Native → Prop} {c : Catalog}

/-- The constructor of strings from characters. -/
def stringCtorRef : MethodRef := .constructor .string 1

/-- The concatenation of two strings. -/
def concatRef : MethodRef := ⟨.string, "Concat", 2⟩

/-- The length of a string. -/
def lengthRef : MethodRef := ⟨.string, "get_Length", 0⟩

theorem Extends.exists_stringCtor (h : withCorelib.Extends P c) :
    ∃ m, c.resolveConstructor stringCtorRef = .ok m ∧ m.body = .native .stringConstructor ∧
      m.paramCount = 1 ∧ m.returnsValue = false :=
  ⟨_, h.upholds.constructor stringCtorRef _ rfl, rfl, rfl, rfl⟩

theorem Extends.exists_concat (h : withCorelib.Extends P c) :
    ∃ m, c.resolveMethod concatRef = .ok m ∧ m.body = .native .stringConcat ∧
      m.returnsValue = true :=
  ⟨_, h.upholds.method concatRef _ rfl, rfl, rfl⟩

theorem Extends.exists_length (h : withCorelib.Extends P c) :
    ∃ m, c.resolveMethod lengthRef = .ok m ∧ m.body = .native .stringLength ∧
      m.returnsValue = true :=
  ⟨_, h.upholds.method lengthRef _ rfl, rfl, rfl⟩

/-- The type of strings is there for the routines that make strings. -/
theorem Extends.contains_string (h : withCorelib.Extends P c) :
    c.headers.contains .string = true := by
  have hstring : ∃ t, withCorelib.resolveType .string = .ok t := ⟨_, rfl⟩
  obtain ⟨t, ht⟩ := hstring
  rw [contains_headers, contains, resolveType_eq_ok.1 (h.upholds.type .string t ht)]
  rfl

end Catalog

/-! ### The text of a value -/

namespace Heap

variable {h k : Heap} {v : Value} {x y : String} {r : Handle}

/-- The value has a text: it is null, which has the empty text, or an instance with the text in its
text field. -/
inductive HasText (h : Heap) : Value → String → Prop
  | null : HasText h .null ""
  | object {r : Handle} {type : TypeRef} {fields : Fields} {x : String} :
      h.get? r = some (.record type fields) → fields.get? textField = some (.text x) →
      HasText h (.object r) x

theorem getString_eq_ok : h.getString r = .ok x ↔ h.HasText (.object r) x := by
  constructor
  · intro hstring
    obtain ⟨v, hv, hx⟩ := bind_eq_ok hstring
    obtain ⟨type, fields, hget, hname⟩ := getField_eq_ok.1 hv
    cases v <;> cases hx
    exact .object hget hname
  · rintro ⟨⟩
    rename_i type fields hget hname
    rw [getString, getField_eq_ok.2 ⟨type, fields, hget, hname⟩]
    rfl

/-- A value adds its text to a concatenation, and any other value is refused. -/
theorem concatPart_eq_ok : Native.concatPart h v = .ok x ↔ h.HasText v x := by
  cases v with
  | null =>
      constructor
      · rintro ⟨⟩
        exact .null
      · rintro ⟨⟩
        rfl
  | object r => exact getString_eq_ok
  | _ => exact ⟨nofun, nofun⟩

/-- Objects that are added do not change the text of a value. -/
theorem HasText.mono (hv : h.HasText v x)
    (hk : ∀ r o, h.get? r = some o → k.get? r = some o) : k.HasText v x := by
  cases hv with
  | null => exact .null
  | object hget hname => exact .object (hk _ _ hget) hname

end Heap

/-! ### The length of a string -/

namespace Machine

variable {ctx : Context} {m : Method} {s : Machine} {x : String} {r : Handle}

/-- The method tells the length of the value: null has none, and of an object it returns it. -/
inductive HasLength (ctx : Context) (m : Method) (s : Machine) : Value → Int → Prop
  | null : HasLength ctx m s .null 0
  | object {r : Handle} {n : Int32} :
      (∃ u, ∀ fuel, invoke ctx (fuel + 1) m [.object r] s = some (.ok (some (.int32 n)), u)) →
      HasLength ctx m s (.object r) n.toInt

theorem HasLength.unique {v : Value} {k l : Int} (hk : HasLength ctx m s v k)
    (hl : HasLength ctx m s v l) : k = l := by
  cases hk with
  | null => cases hl; rfl
  | object hk => cases hl with
    | object hl =>
        obtain ⟨u, hk⟩ := hk
        obtain ⟨u', hl⟩ := hl
        have heq := (hk 0).symm.trans (hl 0)
        cases heq
        rfl

/-- The length is the number of units of the text, as far as it can be told. -/
theorem toInt_lengthValue (x : String) :
    (Native.lengthValue x).toInt = (min (Text.Utf16.length x) maxArrayLength : Nat) := by
  have hmax : maxArrayLength = 0x7fffffff := rfl
  exact Int32.toInt_ofNat_of_lt (by omega)

theorem run_stringLength {h : Heap} (hx : h.HasText (.object r) x) (headers : Headers) :
    (Native.stringLength.run headers [.object r]).run.run h =
      (.ok (some (.int32 (Native.lengthValue x))), h) := by
  show (liftM (h.getString r) >>= fun s => pure (some (.int32 (Native.lengthValue s))) :
    Heap.Op (Option Value)) h = _
  rw [op_bind_apply, Heap.lift_apply, Heap.getString_eq_ok.2 hx]
  rfl

theorem hasLength_of_hasText (ctx : Context) {v : Value} (hm : m.body = .native .stringLength)
    (hreturns : m.returnsValue = true) (hs : s.HasRoom) (hv : s.heap.HasText v x) :
    HasLength ctx m s v (min (Text.Utf16.length x) maxArrayLength : Nat) := by
  cases v with
  | null =>
      cases hv
      exact .null
  | object r =>
      obtain ⟨u, hu, -⟩ := invoke_native ctx hm hs (run_stringLength hv _) hreturns.symm
      rw [← toInt_lengthValue]
      exact .object ⟨u, hu⟩
  | _ => cases hv

end Machine

end CilMachine
