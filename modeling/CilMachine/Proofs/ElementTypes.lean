/-
CilMachine/Proofs/ElementTypes.lean

What the elements of value arrays hold.  An array is added with every element at the default of the
element type's flavor.  A store then gives an element a 32-bit integer, of whatever flavor the array
is: the storage does not know the flavor, and the instruction does not look it up.  So an element
holds its default or a 32-bit integer, and if 32-bit integers are what the flavor is represented by,
then it holds what fits.

Main result: this is so wherever the host gets to, and an element can be loaded if and only if the
flavor is one of those, or the element is no longer at its default (`Host.occurs_elements`).  In an
array of another flavor a store leaves an integer that does not fit (`Host.not_elementsFit`), and
that makes the element one that can be loaded.
-/
import CilMachine.Proofs.FieldTypes

namespace CilMachine

variable {c : Catalog} {v : Value} {flavor : Flavor}

/-! ### Elements -/

/-- Whether values of this flavor are 32-bit integers. -/
def Flavor.isInt32 (f : Flavor) : Bool := f.isValueType && !f.isInt64 && !f.isFloat

/-- What an element of the flavor may hold: its default, or an integer that has been stored. -/
inductive Flavor.Element (flavor : Flavor) : Value → Prop
  | fresh : Element flavor (.default flavor)
  | stored (n : Int32) : Element flavor (.int32 n)

namespace Flavor

theorem ne_void (h : flavor.isValueType) : flavor ≠ .void := by
  rintro rfl
  cases h

/-- The default is a 32-bit integer if and only if such integers fit. -/
theorem isSome_int32?_default (flavor : Flavor) :
    (Value.default flavor).int32?.isSome = flavor.isInt32 := by
  cases flavor <;> rfl

theorem Element.fits (h : flavor.Element v) (hint32 : flavor.isInt32) : v.fits flavor := by
  cases h with
  | fresh =>
      refine Value.fits_default (ne_void ?_)
      rw [isInt32, Bool.and_assoc, Bool.and_eq_true] at hint32
      exact hint32.1
  | stored n => exact hint32

/-- An element is a 32-bit integer if all of them are, or if it is no longer at its default. -/
theorem Element.isSome_int32?_iff (h : flavor.Element v) :
    v.int32?.isSome ↔ flavor.isInt32 ∨ v ≠ .default flavor := by
  rw [← isSome_int32?_default]
  cases h with
  | fresh => exact ⟨.inl, fun h => h.resolve_right fun hne => hne rfl⟩
  | stored n =>
      refine ⟨fun _ => ?_, fun _ => rfl⟩
      rcases eq_or_ne (Value.int32 n) (.default flavor) with heq | hne
      · rw [← heq]
        exact .inl rfl
      · exact .inr hne

end Flavor

/-! ### Arrays -/

/-- The elements of a value array are of a value type, and hold what elements of its flavor may. -/
inductive HeapObject.Elemental (c : Catalog) : HeapObject → Prop
  | record (type : TypeRef) (fields : Fields) : Elemental c (.record type fields)
  | values {element : TypeRef} {type : TypeDef} {items : Array Value} :
      c.resolveType element = .ok type → type.flavor.isValueType →
      (∀ v ∈ items, type.flavor.Element v) → Elemental c (.array element (.values items))
  | references (element : TypeRef) (slots : Array (Option Handle)) :
      Elemental c (.array element (.references slots))

theorem HeapObject.Fresh.elemental {o : HeapObject} (h : o.Fresh c) : o.Elemental c := by
  cases h with
  | record _ => exact .record _ _
  | string s => exact .record _ _
  | @array element type length htype =>
      rw [Catalog.ref_of_resolveType htype]
      unfold Heap.freshStorage
      split
      · rename_i hvalue
        refine .values htype hvalue fun v hv => ?_
        rw [Array.eq_of_mem_replicate hv]
        exact .fresh
      · exact .references _ _

namespace Heap

variable {h k : Heap}

/-- All arrays are so. -/
def Elemental (c : Catalog) (h : Heap) : Prop := ∀ r o, h.get? r = some o → o.Elemental c

theorem elemental_empty (c : Catalog) : ({} : Heap).Elemental c := by
  intro r o ho
  rw [get?_empty] at ho
  cases ho

theorem Change.elemental (hchange : h.Change c k) (hh : h.Elemental c) : k.Elemental c := by
  intro q o ho
  cases hchange with
  | alloc hfresh =>
      rcases get?_alloc_eq_some ho with ⟨-, rfl⟩ | ⟨-, ho⟩
      · exact hfresh.elemental
      · exact hh q o ho
  | setField hget _ _ =>
      rcases get?_replace_eq_some hget ho with ⟨-, rfl⟩ | ⟨-, ho⟩
      · exact .record _ _
      · exact hh q o ho
  | setElement n hget _ =>
      rcases get?_replace_eq_some hget ho with ⟨-, rfl⟩ | ⟨-, ho⟩
      · cases hh _ _ hget with
        | values htype hvalue hitems =>
            -- the one new element is an integer, and the flavor is not asked for
            refine .values htype hvalue fun v hv => ?_
            rcases Array.mem_or_eq_of_mem_setIfInBounds hv with hv | rfl
            · exact hitems v hv
            · exact .stored n
      · exact hh q o ho
  | setReference slot hget _ =>
      rcases get?_replace_eq_some hget ho with ⟨-, rfl⟩ | ⟨-, ho⟩
      · exact .references _ _
      · exact hh q o ho

theorem getElement_of_inRange {r : Handle} {element : TypeRef} {items : Array Value} {index : Int}
    (hget : h.get? r = some (.array element (.values items)))
    (hindex : 0 ≤ index ∧ index < items.size) :
    h.getElement r index = .ok (items.getD index.toNat .null) := by
  rw [getElement, getValues_eq_ok.2 hget]
  simp only [bind, Except.bind, checkedIndex, if_pos hindex]
  rfl

end Heap

namespace Machine

variable {s : Machine} {f : Frame} {F : List Frame} {S : OperandStack} {r : Handle} {index : Int64}

theorem loadElement_apply {w : ElementWidth} (hs : s.calls.frames = f :: F)
    (hf : f.stack = v :: .object r :: S) (hv : v.integer? = some index) :
    loadElement w s = match s.heap.getElement r index.toInt with
      | .ok x => match x.int32? with
        | some y => (.ok (.outcome .next), s.withStack (.int32 (w.cut y.toInt64) :: S))
        | none => (.error (rejected .loadElement x), s.withStack S)
      | .error e => (.error (.execution e), s.withStack S) := by
  conv_lhs => rw [← withStack_self hs hf]
  rw [loadElement, op_bind_apply, popInteger_withStack hs hv]
  dsimp only
  rw [op_bind_apply, popObject_withStack hs]
  dsimp only
  have hread : readHeap (·.getElement r index.toInt) (s.withStack S) =
      ((s.heap.getElement r index.toInt).mapError .execution, s.withStack S) := readHeap_eq _ _
  rw [op_bind_apply, hread]
  rcases s.heap.getElement r index.toInt with e | x
  · rfl
  · dsimp only [Except.mapError]
    rcases x.int32? with - | y
    · rfl
    · dsimp only
      rw [op_bind_apply, push_withStack hs]
      rfl

/-- At an index in range, an element is loaded if and only if it is a 32-bit integer. -/
theorem loadElement_isOk (hs : s.calls.frames = f :: F) (hf : f.stack = v :: .object r :: S)
    (hv : v.integer? = some index) {element : TypeRef} {items : Array Value}
    (hget : s.heap.get? r = some (.array element (.values items)))
    (hindex : 0 ≤ index.toInt ∧ index.toInt < items.size) (width : ElementWidth) :
    (loadElement width s).1.isOk = (items.getD index.toInt.toNat .null).int32?.isSome := by
  rw [loadElement_apply hs hf hv, Heap.getElement_of_inRange hget hindex]
  dsimp only
  rcases (items.getD index.toInt.toNat .null).int32? with - | n
  · rfl
  · rfl

end Machine

/-! ### What the host gets to -/

namespace Host

open Machine

variable {ctx : Context} {s : Machine}

/-- **Elements hold their default or an integer.**  Wherever the host gets to, the elements of a
value array are of a value type; each is at the default of that type's flavor, or is a 32-bit
integer; and if such integers are what the flavor is represented by, then each fits it.  Whatever
the frames, an element at an index in range is loaded if and only if the flavor is one of those, or
the element is no longer at its default. -/
theorem occurs_elements
    (hcatalog : Catalog.withCorelib.Extends (Native.OnlyAdds ctx.catalog) ctx.catalog)
    (h : Occurs ctx s) {r : Handle} {element : TypeRef} {items : Array Value}
    (hget : s.heap.get? r = some (.array element (.values items))) :
    ∃ type, ctx.catalog.resolveType element = .ok type ∧ type.flavor.isValueType ∧
      (∀ v ∈ items, v = .default type.flavor ∨ ∃ n, v = .int32 n) ∧
      (type.flavor.isInt32 → ∀ v ∈ items, v.fits type.flavor) ∧
      ∀ calls f F S v (index : Int64) width, calls.frames = f :: F → f.stack = v :: .object r :: S →
        v.integer? = some index → 0 ≤ index.toInt ∧ index.toInt < items.size →
        ((loadElement width { s with calls }).1.isOk ↔
          type.flavor.isInt32 ∨ items.getD index.toInt.toNat .null ≠ .default type.flavor) := by
  have helemental := h.holds hcatalog Heap.Change.elemental (Heap.elemental_empty _)
  cases helemental r _ hget with
  | @values _ type _ htype hvalue hitems =>
      refine ⟨type, htype, hvalue, fun v hv => ?_, fun hint32 v hv => (hitems v hv).fits hint32, ?_⟩
      · cases hitems v hv with
        | fresh => exact .inl rfl
        | stored n => exact .inr ⟨n, rfl⟩
      · intro calls f F S v index width hframes hstack hv hindex
        have hlt : index.toInt.toNat < items.size := by omega
        have hmem : items.getD index.toInt.toNat .null ∈ items := by
          rw [Array.getD_eq_getD_getElem?, Array.getElem?_eq_getElem hlt]
          exact Array.getElem_mem hlt
        rw [loadElement_isOk (s := { s with calls }) hframes hstack hv hget hindex]
        exact (hitems _ hmem).isSome_int32?_iff

end Host

/-! ### A program that stores in an array of 64-bit integers -/

/-- Every element of a value array fits the flavor of the element type. -/
def Heap.ElementsFit (c : Catalog) (h : Heap) : Prop :=
  ∀ r element items type v, h.get? r = some (.array element (.values items)) →
    c.resolveType element = .ok type → v ∈ items → v.fits type.flavor

namespace Sample

/-- Creates an array of two 64-bit integers and stores 5 in the first one. -/
def storing : MethodDecl where
  name := "Run"
  modifiers := { isStatic := true }
  returns := some .object
  code := some ⟨#[⟨0, 1, "ldc.i4.2", .sequential, .none⟩,
    ⟨1, 5, "newarr", .sequential, .type (.corelib "System.Int64")⟩,
    ⟨6, 1, "dup", .sequential, .none⟩, ⟨7, 1, "ldc.i4.0", .sequential, .none⟩,
    ⟨8, 1, "ldc.i4.5", .sequential, .none⟩, ⟨9, 1, "stelem.i4", .sequential, .none⟩,
    ⟨10, 1, "ret", .ret, .none⟩], by simp⟩

def storer : TypeDecl := (TypeDecl.ofRef ⟨"Sample", "Storer"⟩).withMethod storing

def stored : Context where
  catalog := (Catalog.add storer Catalog.withCorelib).2

/-- The program brings along no native routine. -/
theorem stored_extends (P : Native → Prop) : Catalog.withCorelib.Extends P stored.catalog := by
  have hstorer := (Catalog.Extends.refl (P := P) (c := Catalog.withCorelib)).add (d := storer)
    fun m hm routine hroutine => by
      obtain rfl := List.mem_singleton.1 hm
      cases hroutine
  simpa only [stored] using hstorer

/-- The machine gets to have a 32-bit integer and a 64-bit one in that array. -/
theorem stored_occurs :
    ∃ s, Host.Occurs stored s ∧
      s.heap.get? ⟨1⟩ =
        some (.array (.corelib "System.Int64") (.values #[.int32 5, .int64 0])) := by
  have hrun : (Host.invoke stored 9 ⟨storer.ref, "Run", 0⟩ [] (.ofConfig {})).map
      (fun p => p.2.heap.get? ⟨1⟩) =
      some (some (.array (.corelib "System.Int64") (.values #[.int32 5, .int64 0]))) := by
    decide +kernel
  obtain ⟨⟨r, s⟩, hs, hobject⟩ := Option.map_eq_some_iff.1 hrun
  exact ⟨s, .reached (.invoke (.start {}) hs), hobject⟩

theorem stored_int64 :
    ∃ type, stored.catalog.resolveType (.corelib "System.Int64") = .ok type ∧
      type.flavor = .i8 := by
  have hflavor : (stored.catalog.resolveType (.corelib "System.Int64")).map (·.flavor) =
      .ok .i8 := by
    decide +kernel
  rcases htype : stored.catalog.resolveType (.corelib "System.Int64") with e | type
  · rw [htype] at hflavor
    cases hflavor
  · rw [htype] at hflavor
    exact ⟨type, rfl, Except.ok.inj hflavor⟩

/-- A frame on which an element of the array at this index is about to be loaded. -/
def loading (index : Int32) : CallStack where
  frames := [{ stack := [.int32 index, .object ⟨1⟩] }]
  entries := 1
  limit := 1

end Sample

namespace Host

open Machine

/-- In the array of 64-bit integers the element that has been stored to can be loaded, and the other
one cannot. -/
theorem occurs_elements_stored :
    ∃ s, Occurs Sample.stored s ∧
      s.heap.get? ⟨1⟩ = some (.array (.corelib "System.Int64") (.values #[.int32 5, .int64 0])) ∧
      (loadElement .w32 { s with calls := Sample.loading 0 }).1.isOk ∧
      ¬ (loadElement .w32 { s with calls := Sample.loading 1 }).1.isOk := by
  obtain ⟨s, hs, hobject⟩ := Sample.stored_occurs
  obtain ⟨type', htype', hflavor⟩ := Sample.stored_int64
  obtain ⟨type, htype, -, -, -, hload⟩ := occurs_elements (Sample.stored_extends _) hs hobject
  obtain rfl := Except.ok.inj (htype.symm.trans htype')
  have hfirst := hload (Sample.loading 0) _ [] [] (.int32 0) 0 .w32 rfl rfl rfl (by decide)
  have hsecond := hload (Sample.loading 1) _ [] [] (.int32 1) 1 .w32 rfl rfl rfl (by decide)
  rw [hflavor] at hfirst hsecond
  refine ⟨s, hs, hobject, hfirst.2 (.inr ?_), fun hok => ?_⟩
  · decide
  · rcases hsecond.1 hok with hint32 | hne
    · cases hint32
    · exact hne rfl

/-- It is not so that the elements of an array fit its flavor: here a 32-bit integer is in an array
of 64-bit ones. -/
theorem not_elementsFit :
    ¬ ∀ (ctx : Context) (s : Machine),
      Catalog.withCorelib.Extends (Native.OnlyAdds ctx.catalog) ctx.catalog → Occurs ctx s →
      s.heap.ElementsFit ctx.catalog := by
  intro hclaim
  obtain ⟨s, hs, hobject⟩ := Sample.stored_occurs
  obtain ⟨type, htype, hflavor⟩ := Sample.stored_int64
  have hfit := hclaim _ s (Sample.stored_extends _) hs
  have hfits := hfit ⟨1⟩ _ _ type (.int32 5) hobject htype (by simp)
  rw [hflavor] at hfits
  cases hfits

end Host

end CilMachine
