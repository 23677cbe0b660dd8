/-
CilMachine/Proofs/StringConstruction.lean

Strings made of arrays of characters.  The constructor reads the units off the array, decodes them
and stores the text in its receiver; a value that is no array of 32-bit integers has no units, and
then it fails before it has written anything (`run_stringConstructor`, `units_eq_ok`).  What the
text has to do with the units is a matter of UTF-16 alone (`Reads`); the length follows from it,
because as many units are encoded as were decoded.
-/
import CilMachine.Proofs.FieldTypes
import CilMachine.Proofs.StringMethods
import CilMachine.Proofs.Texts

namespace CilMachine

open Text.Utf16 (Repairs)

/-! ### The units of an array -/

/-- The value is a 32-bit integer, and the unit is what it is modulo two to the sixteen. -/
inductive Value.HoldsUnit : Value → UInt16 → Prop
  | int32 {n : Int32} {u : UInt16} : (u.toNat : Int) = n.toInt % 0x10000 → HoldsUnit (.int32 n) u

theorem Native.toNat_toUInt16 (n : Int32) :
    (n.toUInt32.toUInt16.toNat : Int) = n.toInt % 0x10000 := by
  have hnat : n.toUInt32.toUInt16.toNat = n.toBitVec.toNat % 2 ^ 16 := n.toUInt32.toNat_toUInt16
  have hint : n.toInt = if 2 * n.toBitVec.toNat < 2 ^ 32 then (n.toBitVec.toNat : Int)
      else n.toBitVec.toNat - (2 ^ 32 : Nat) := n.toBitVec.toInt_eq_toNat_cond
  split at hint <;> omega

theorem Native.codeUnit_eq_ok {v : Value} {u : UInt16} : codeUnit v = .ok u ↔ v.HoldsUnit u := by
  cases v with
  | int32 n =>
      constructor
      · rintro ⟨⟩
        exact .int32 (toNat_toUInt16 n)
      · rintro ⟨hu⟩
        have hn : n.toUInt32.toUInt16 = u := by
          rw [← UInt16.toNat_inj, ← Int.ofNat_inj, hu]
          exact toNat_toUInt16 n
        exact congrArg Except.ok hn
  | _ => exact ⟨nofun, nofun⟩

namespace Heap

variable {h : Heap} {v : Value} {units : List UInt16}

/-- The value is the handle of a value array, and its elements hold the units. -/
inductive HasUnits (h : Heap) : Value → List UInt16 → Prop
  | array {r : Handle} {element : TypeRef} {items : Array Value} {units : List UInt16} :
      h.get? r = some (.array element (.values items)) →
      List.Forall₂ Value.HoldsUnit items.toList units → HasUnits h (.object r) units

/-- Objects that are added do not change the units of a value. -/
theorem HasUnits.mono {k : Heap} (hv : h.HasUnits v units)
    (hk : ∀ r o, h.get? r = some o → k.get? r = some o) : k.HasUnits v units := by
  obtain ⟨hget, hunits⟩ := hv
  exact .array (hk _ _ hget) hunits

theorem charArrayUnits_eq_ok {r : Handle} :
    Native.charArrayUnits h r = .ok units ↔ h.HasUnits (.object r) units := by
  constructor
  · intro hunits
    obtain ⟨o, ho, hunits⟩ := bind_eq_ok hunits
    rcases o with ⟨type, fields⟩ | ⟨element, items | slots⟩
    · cases hunits
    · refine .array (get_eq_ok.1 ho) ((mapM_eq_ok_iff.1 hunits).imp fun v u hu => ?_)
      exact Native.codeUnit_eq_ok.1 hu
    · cases hunits
  · rintro ⟨⟩
    rename_i element items hget hunits
    rw [Native.charArrayUnits, get_eq_ok.2 hget]
    exact mapM_eq_ok_iff.2 (hunits.imp fun v u hu => Native.codeUnit_eq_ok.2 hu)

/-- The constructor finds the units of a value that has some, and of no other value. -/
theorem units_eq_ok {this : Value} :
    Native.charArrayArgument [this, v] >>= Native.charArrayUnits h = .ok units ↔
      h.HasUnits v units := by
  cases v with
  | object r => exact charArrayUnits_eq_ok
  | _ => exact ⟨nofun, nofun⟩

end Heap

/-! ### The text of a sequence of units -/

/-- The text is what the units read as: its own units are these, with U+FFFD for each surrogate
without its partner, and if these are the units of a text then it is that text. -/
structure Reads (units : List UInt16) (x : String) : Prop where
  repairs : Repairs units (Text.Utf16.encode x.toList)
  exact_of_encode : ∀ y : String, units = Text.Utf16.encode y.toList → x = y

/-- Units read as one text only. -/
theorem Reads.unique {units : List UInt16} {x y : String} (hx : Reads units x)
    (hy : Reads units y) : x = y :=
  String.toList_inj.1 (Text.Utf16.encode_injective (hx.repairs.unique hy.repairs))

theorem Reads.length_eq {units : List UInt16} {x : String} (h : Reads units x) :
    Text.Utf16.length x = units.length := h.repairs.length

theorem reads_decode (units : List UInt16) : Reads units (.ofList (Text.Utf16.decode units)) where
  repairs := by
    rw [String.toList_ofList]
    exact Text.Utf16.repairs_encode_decode units
  exact_of_encode := by
    rintro y rfl
    rw [Text.Utf16.decode_encode, String.ofList_toList]

/-! ### The routine -/

namespace Native

variable {h : Heap} {this : Handle} {v : Value} {units : List UInt16} {type : TypeRef}
  {fields : Fields}

/-- The constructor is done with its arguments before it writes, and writes once. -/
theorem run_stringConstructor (headers : Headers) (this : Handle) (v : Value) (h : Heap) :
    (stringConstructor.run headers [.object this, v]).run.run h =
      match charArrayArgument [.object this, v] >>= charArrayUnits h with
      | .error e => (.error (.execution e), h)
      | .ok units => match h.setField this textField
          (.text (.ofList (Text.Utf16.decode units))) with
        | .ok k => (.ok none, k)
        | .error e => (.error (.execution e), h) := by
  show (liftM (charArrayArgument [.object this, v]) >>= fun chars => get >>= fun g =>
    liftM (charArrayUnits g chars) >>= fun units => get >>= fun g =>
      liftM (g.setField this textField (.text (.ofList (Text.Utf16.decode units)))) >>= fun g =>
        set g >>= fun _ => pure none : Heap.Op (Option Value)) h = _
  rw [op_bind_apply, Heap.lift_apply]
  rcases charArrayArgument [.object this, v] with e | chars
  · rfl
  show (liftM (charArrayUnits h chars) >>= fun units => get >>= fun g =>
    liftM (g.setField this textField (.text (.ofList (Text.Utf16.decode units)))) >>= fun g =>
      set g >>= fun _ => pure none : Heap.Op (Option Value)) h = match charArrayUnits h chars with
        | .error e => (.error (.execution e), h)
        | .ok units => _
  rw [op_bind_apply, Heap.lift_apply]
  rcases charArrayUnits h chars with e | units
  · rfl
  show (liftM (h.setField this textField (.text (.ofList (Text.Utf16.decode units)))) >>= fun g =>
    set g >>= fun _ => pure none : Heap.Op (Option Value)) h = _
  rw [op_bind_apply, Heap.lift_apply]
  dsimp only
  rcases h.setField this textField (.text (.ofList (Text.Utf16.decode units))) with e | k <;> rfl

theorem run_stringConstructor_of_hasUnits (hv : h.HasUnits v units)
    (hthis : h.get? this = some (.record type fields)) (hname : (fields.get? textField).isSome)
    (headers : Headers) :
    (stringConstructor.run headers [.object this, v]).run.run h =
      (.ok none, h.replace this (.record type
        (fields.put textField (.text (.ofList (Text.Utf16.decode units)))))) := by
  rw [run_stringConstructor, Heap.units_eq_ok.2 hv]
  dsimp only
  rw [Heap.setField_eq_ok.2 ⟨type, fields, hthis, hname, rfl⟩]

theorem run_stringConstructor_fails (this : Handle) (hv : ∀ units, ¬ h.HasUnits v units)
    (headers : Headers) :
    ∃ e, (stringConstructor.run headers [.object this, v]).run.run h = (.error e, h) := by
  rw [run_stringConstructor]
  rcases hunits : charArrayArgument [.object this, v] >>= charArrayUnits h with e | units
  · exact ⟨_, rfl⟩
  · exact absurd (Heap.units_eq_ok.1 hunits) (hv units)

end Native

/-! ### The invocation -/

namespace Machine

variable {ctx : Context} {P : Native → Prop} {ctor : MethodRef} {m : Method} {args : List Value}
  {layout : Named Flavor} {s : Machine}

/-- A construction begins with a blank object, and is the invocation of the constructor then. -/
theorem construct_of_layout (hctor : ctx.catalog.resolveConstructor ctor = .ok m)
    (hlength : args.length = m.paramCount)
    (hlayout : ctx.catalog.instanceFields ctor.declaring = .ok layout) :
    ∃ t, t.calls = s.calls ∧ t.heap = (s.heap.alloc (.blank ctor.declaring layout)).2 ∧
      ∀ fuel, construct ctx fuel ctor args s =
        (invoke ctx fuel m (.object s.heap.next :: args) t).map fun p =>
          (p.1.map fun _ => s.heap.next, p.2) := by
  have hallocate := allocateObject_apply ctx ctor.declaring s
  rw [hlayout] at hallocate
  dsimp only at hallocate
  refine ⟨(allocateObject ctx ctor.declaring s).2, by rw [hallocate], by rw [hallocate],
    fun fuel => ?_⟩
  have hprepare : prepareConstruction ctx ctor args s =
      (.ok (s.heap.next, ⟨m, .object s.heap.next :: args, some s.heap.next⟩),
        (allocateObject ctx ctor.declaring s).2) := by
    rw [prepareConstruction, op_bind_apply, lift_apply, hctor]
    dsimp only [Except.mapError]
    rw [if_neg (not_not.2 hlength), op_bind_apply, hallocate]
    rfl
  rw [construct_apply, hprepare]

/-- The object has the text that the units read as, and the method tells its length: that of the
units, as far as it can be told. -/
structure Spells (ctx : Context) (length : Method) (u : Machine) (this : Handle)
    (units : List UInt16) (x : String) : Prop where
  reads : Reads units x
  text : u.heap.HasText (.object this) x
  length_min : HasLength ctx length u (.object this) (min units.length maxArrayLength : Nat)
  length_eq : units.length ≤ maxArrayLength → HasLength ctx length u (.object this) units.length

theorem spells_of_reads {length : Method} {u : Machine} {this : Handle} {units : List UInt16}
    {x : String} (hbody : length.body = .native .stringLength)
    (hreturns : length.returnsValue = true) (hroom : u.HasRoom) (hreads : Reads units x)
    (htext : u.heap.HasText (.object this) x) :
    Spells ctx length u this units x := by
  have hlength := hasLength_of_hasText ctx hbody hreturns hroom htext
  rw [hreads.length_eq] at hlength
  refine ⟨hreads, htext, hlength, fun hle => ?_⟩
  rwa [Nat.min_eq_left hle] at hlength

/-- The constructor gives the string object that it runs on the text of the characters. -/
theorem invoke_stringCtor (ctx : Context) {v : Value} {units : List UInt16} {this : Handle}
    {type : TypeRef} {fields : Fields} (hbody : m.body = .native .stringConstructor)
    (hreturns : m.returnsValue = false) (hroom : s.HasRoom) (hv : s.heap.HasUnits v units)
    (hthis : s.heap.get? this = some (.record type fields))
    (hname : (fields.get? textField).isSome) :
    ∃ x u, (∀ fuel, invoke ctx (fuel + 1) m [.object this, v] s = some (.ok none, u)) ∧
      u.heap = s.heap.replace this (.record type (fields.put textField (.text x))) ∧
      Reads units x ∧ u.heap.HasText (.object this) x := by
  have hrun := Native.run_stringConstructor_of_hasUnits hv hthis hname ctx.catalog.headers
  obtain ⟨u, hu, hheap⟩ := invoke_native ctx hbody hroom hrun hreturns.symm
  refine ⟨_, u, hu, hheap, reads_decode units, ?_⟩
  rw [hheap]
  exact .object (Heap.get?_replace_self _ hthis) (Named.get?_put_self _ _ _)

/-- **A string reads as the characters that it is constructed from.**  In every program with the
core library, let a value be given to the constructor of strings.  If it is a value array of 32-bit
integers, the string object that the constructor runs on is given the text that the elements read
as, taken modulo two to the sixteen: its units are these, with U+FFFD for each surrogate without its
partner, and if these are the units of a text it is that text.  So its length is that of the array,
as no array is longer than the greatest length that can be told.  The same holds of the new string
that a construction begins with.  If the value is anything else, the constructor fails and the heap
is as it was. -/
theorem string_construction (hcatalog : Catalog.withCorelib.Extends P ctx.catalog) :
    ∃ ctor length, ctx.catalog.resolveConstructor Catalog.stringCtorRef = .ok ctor ∧
      ctx.catalog.resolveMethod Catalog.lengthRef = .ok length ∧
      ∀ (s : Machine) (v : Value),
        (∀ units, s.heap.HasUnits v units → s.HasRoom →
          (∀ this type fields, s.heap.get? this = some (.record type fields) →
            (fields.get? textField).isSome → ∃ x u,
              (∀ fuel, invoke ctx (fuel + 1) ctor [.object this, v] s = some (.ok none, u)) ∧
              u.heap = s.heap.replace this (.record type (fields.put textField (.text x))) ∧
              Spells ctx length u this units x) ∧
          ∃ x u, (∀ fuel, construct ctx (fuel + 1) Catalog.stringCtorRef [v] s =
              some (.ok s.heap.next, u)) ∧
            (∀ r o, s.heap.get? r = some o → u.heap.get? r = some o) ∧
            Spells ctx length u s.heap.next units x) ∧
        ((∀ units, ¬ s.heap.HasUnits v units) → ∀ this, ∃ e u,
          (∀ fuel, invoke ctx (fuel + 1) ctor [.object this, v] s = some (.error e, u)) ∧
            u.heap = s.heap) := by
  obtain ⟨ctor, hctor, hctorBody, hparams, hctorReturns⟩ := hcatalog.exists_stringCtor
  obtain ⟨length, hlength, hlengthBody, hlengthReturns⟩ := hcatalog.exists_length
  refine ⟨ctor, length, hctor, hlength, fun s v => ⟨fun units hv hroom => ⟨?_, ?_⟩, ?_⟩⟩
  · intro this type fields hthis hname
    obtain ⟨x, u, hu, hheap, hreads, htext⟩ :=
      invoke_stringCtor ctx hctorBody hctorReturns hroom hv hthis hname
    exact ⟨x, u, hu, hheap, spells_of_reads hlengthBody hlengthReturns (hroom.of_invoke (hu 0))
      hreads htext⟩
  · have harity : [v].length = ctor.paramCount := hparams.symm
    obtain ⟨t, hcalls, hheap, hconstruct⟩ :=
      construct_of_layout (s := s) hctor harity hcatalog.hasStrings
    have hnew : t.heap.get? s.heap.next = some (.record .string [(textField, .null)]) := by
      rw [hheap]
      exact s.heap.get?_alloc_next _
    have hkept (r : Handle) (o : HeapObject) (ho : s.heap.get? r = some o) :
        t.heap.get? r = some o := by
      rw [hheap]
      exact Heap.get?_alloc_of_some _ ho
    have hroom' : t.HasRoom := by
      rw [HasRoom, hcalls]
      exact hroom
    obtain ⟨x, u, hu, hheap', hreads, htext⟩ :=
      invoke_stringCtor ctx hctorBody hctorReturns hroom' (hv.mono hkept) hnew rfl
    refine ⟨x, u, fun fuel => ?_, fun r o ho => ?_, spells_of_reads hlengthBody hlengthReturns
      (hroom'.of_invoke (hu 0)) hreads htext⟩
    · rw [hconstruct, hu]
      rfl
    · have hne : r ≠ s.heap.next := by
        rintro rfl
        rw [Heap.get?_next] at ho
        cases ho
      rw [hheap', Heap.get?_replace_of_ne _ hne]
      exact hkept r o ho
  · intro hv this
    obtain ⟨e, hrun⟩ := Native.run_stringConstructor_fails this hv ctx.catalog.headers
    exact invoke_native_fails hctorBody hrun

end Machine

namespace Sample

/-- The units of four halves of surrogate pairs and a letter.  The first is kept with the sign of a
16-bit integer, and the last beyond 16 bits. -/
def letters : Heap :=
  ⟨#[.array (.corelib "System.Char") (.values
    #[.int32 (-10179), .int32 0xD83D, .int32 0xDE00, .int32 0xDC00, .int32 0x10041])]⟩

end Sample

namespace Machine

/-- The two halves in the middle are a pair, and the other two have no partner. -/
theorem string_construction_surrogates :
    ∃ u, construct Sample.library 1 Catalog.stringCtorRef [.object ⟨1⟩]
        { Sample.idle with heap := Sample.letters } = some (.ok ⟨2⟩, u) ∧
      u.heap.HasText (.object ⟨2⟩) "\ufffd😀\ufffdA" ∧
      ∃ length, Sample.library.catalog.resolveMethod Catalog.lengthRef = .ok length ∧
        HasLength Sample.library length u (.object ⟨2⟩) 5 := by
  have hcatalog : Catalog.withCorelib.Extends (fun _ => True) Sample.library.catalog := .refl
  obtain ⟨ctor, length, -, hlength, hconstruction⟩ := string_construction hcatalog
  have hunits : Sample.letters.HasUnits (.object ⟨1⟩) [0xD83D, 0xD83D, 0xDE00, 0xDC00, 0x41] :=
    .array rfl (.cons (.int32 (by decide)) (.cons (.int32 (by decide)) (.cons (.int32 (by decide))
      (.cons (.int32 (by decide)) (.cons (.int32 (by decide)) .nil)))))
  obtain ⟨-, x, u, hu, -, hspells⟩ :=
    (hconstruction { Sample.idle with heap := Sample.letters } (.object ⟨1⟩)).1 _ hunits (by decide)
  have hx : x = "\ufffd😀\ufffdA" :=
    (hspells.reads.unique (reads_decode _)).trans (by decide +kernel)
  exact ⟨u, hu 0, hx ▸ hspells.text, length, hlength, hspells.length_eq (by decide)⟩

end Machine

end CilMachine
