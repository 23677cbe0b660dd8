/-
CilMachine/Proofs/ArrayLengths.lean

Array lengths and bounds.  A count is a signed integer of either width, and what is reported as the
length later is a 32-bit integer.  Only counts for which these agree are admitted, so an array has
the length that was asked for; and since lengths are part of an object's mold, it has this length
for good.

Each access checks its index against the length before anything else can fail that depends on the
index (`Bounded`).  So it is out of bounds exactly if the index is not between zero and the count,
however much later it is (`array_lengths`).
-/
import CilMachine.Proofs.FieldAccess
import CilMachine.Proofs.Elements

namespace CilMachine

/-! ### Bounds -/

/-- An access at an index of an array of this size succeeds, or it is out of bounds, and then it
says so. -/
def Bounded {α : Type} (size : Nat) (index : Int) (x : Except ExecError α) : Prop :=
  if 0 ≤ index ∧ index < size then ∃ a, x = .ok a
  else x = .error (.arrayIndexOutOfBounds index size)

theorem bounded_checkedIndex {α : Type} (index : Int) (size : Nat) (g : Nat → α) :
    Bounded size index (checkedIndex index size >>= fun k => .ok (g k)) := by
  unfold Bounded checkedIndex
  split
  · exact ⟨_, rfl⟩
  · rfl

namespace Heap

variable {h : Heap} {a : Handle} {element : TypeRef} {items : Array Value}
  {slots : Array (Option Handle)}

theorem bounded_getElement (hget : h.get? a = some (.array element (.values items)))
    (index : Int) : Bounded items.size index (h.getElement a index) := by
  rw [getElement, getValues_eq_ok.2 hget]
  exact bounded_checkedIndex index items.size _

theorem bounded_setElement (hget : h.get? a = some (.array element (.values items)))
    (index : Int) (v : Value) : Bounded items.size index (h.setElement a index v) := by
  rw [setElement, getValues_eq_ok.2 hget]
  exact bounded_checkedIndex index items.size _

theorem bounded_getReference (hget : h.get? a = some (.array element (.references slots)))
    (index : Int) : Bounded slots.size index (h.getReference a index) := by
  rw [getReference, getSlots_eq_ok.2 hget]
  exact bounded_checkedIndex index slots.size _

theorem bounded_setReference (hget : h.get? a = some (.array element (.references slots)))
    (index : Int) (slot : Option Handle) :
    Bounded slots.size index (h.setReference a index slot) := by
  rw [setReference, getSlots_eq_ok.2 hget]
  exact bounded_checkedIndex index slots.size _

theorem size_freshStorage (flavor : Flavor) (length : Nat) :
    (freshStorage flavor length).size = length := by
  unfold freshStorage
  split <;> exact Array.size_replicate

theorem arrayLength_of_get? {storage : Storage} (hget : h.get? a = some (.array element storage)) :
    h.arrayLength a = .ok storage.size := by
  rw [arrayLength, getArray, get_eq_ok.2 hget]
  rfl

/-- What has the mold of an array is one. -/
theorem HasMold.exists_array {shape : Shape} {length : Nat}
    (hmold : h.HasMold a (.array element shape length)) :
    ∃ storage, h.get? a = some (.array element storage) ∧ storage.shape = shape ∧
      storage.size = length := by
  obtain ⟨o, ho, hmold⟩ := hmold
  rcases o with ⟨type, fields⟩ | ⟨element', storage⟩
  · cases hmold
  · cases hmold
    exact ⟨storage, ho, rfl, rfl⟩

end Heap

namespace Catalog

variable {c : Catalog}

theorem chain_unresolved (r : TypeRef) (types : List TypeDef) :
    Only (fun e => ∃ t, e = .unresolved (.type t)) (chain types r) := by
  fun_induction chain types r with
  | case1 r => exact only_error ⟨r, rfl⟩
  | case2 => exact only_ok
  | case3 t older b _ ih => exact ih.map _
  | case4 t older r _ ih => exact ih

/-- A type has no layout only if some type is not registered. -/
theorem instanceFields_unresolved (c : Catalog) (r : TypeRef) :
    Only (fun e => ∃ t, e = .unresolved (.type t)) (c.instanceFields r) := by
  refine (chain_unresolved r c.types).bind fun ts _ => ?_
  intro e he
  obtain ⟨t, -, layout, hextend⟩ := foldlM_eq_error he
  obtain ⟨f, -, -, rfl⟩ := extendLayout_eq_error hextend
  exact ⟨f.type, rfl⟩

end Catalog

/-! ### Instructions -/

namespace Instruction

variable {i : Instruction} {element : TypeRef}

/-- The instruction adds an array of the element type. -/
def AddsArray (element : TypeRef) (i : Instruction) : Prop :=
  i.flow = .sequential ∧ i.mnemonic = "newarr" ∧ i.operand = .type element

/-- The instruction loads the length of an array. -/
def LoadsLength (i : Instruction) : Prop := i.flow = .sequential ∧ i.mnemonic = "ldlen"

theorem AddsArray.action? (hi : i.AddsArray element) : i.action? = .ok (.newArray element) := by
  obtain ⟨hflow, hmnemonic, hoperand⟩ := hi
  have hform : sequentialForms.lookup "newarr" = some .newArray := rfl
  simp only [Instruction.action?, hflow, hmnemonic, hform, formAction, need, hoperand]
  rfl

theorem LoadsLength.action? (hi : i.LoadsLength) : i.action? = .ok .arrayLength := by
  obtain ⟨hflow, hmnemonic⟩ := hi
  simp only [Instruction.action?, hflow, hmnemonic]
  rfl

/-- The instruction accesses, at a 64-bit index, an element of an array of this shape, with the
operands `T`, of which it leaves `S`.  What it stores, if it does, is something that can be
stored. -/
inductive Accesses (i : Instruction) (a : Handle) (index : Int64) (S : OperandStack) :
    Shape → OperandStack → Prop
  | loadElement {w : ElementWidth} {v : Value} : i.LoadsElement w → v.integer? = some index →
      Accesses i a index S .valueArray (v :: .object a :: S)
  | storeElement {w : ElementWidth} {v x : Value} {n : Int64} : i.StoresElement w →
      x.integer? = some n → v.integer? = some index →
      Accesses i a index S .valueArray (x :: v :: .object a :: S)
  | loadSlot {v : Value} : i.LoadsSlot → v.integer? = some index →
      Accesses i a index S .referenceArray (v :: .object a :: S)
  | storeSlot {v : Value} (slot : Option Handle) : i.StoresSlot → v.integer? = some index →
      Accesses i a index S .referenceArray (.ofSlot slot :: v :: .object a :: S)

end Instruction

/-- The failure is that an index is out of bounds. -/
def Failure.IsOutOfBounds (e : Failure) : Prop :=
  ∃ index length, e = .execution (.arrayIndexOutOfBounds index length)

namespace Machine

variable {ctx : Context} {s t u : Machine} {i : Instruction} {a : Handle} {k : Nat}
  {v : Value} {n index : Int64} {S T : OperandStack} {f : Frame} {F : List Frame}
  {element : TypeRef} {type : TypeDef} {slots : Array (Option Handle)} {slot : Option Handle}

/-! ### Lengths -/

theorem newArray_apply (htype : ctx.catalog.resolveType element = .ok type)
    (hs : s.calls.frames = f :: F) (hf : f.stack = v :: S) (hn : v.integer? = some n) :
    newArray ctx element s =
      if n.toInt < 0 then
        (.error (.execution (.arrayIndexOutOfBounds n.toInt 0)), s.withStack S)
      else match s.heap.allocArray type.ref type.flavor n.toInt.toNat with
        | .ok (r, h) => (.ok (.outcome .next), { s.withStack (.object r :: S) with
            heap := h
            stats := { s.stats with allocations := s.stats.allocations + 1 }
            log := if ctx.tracing.heap then
              s.log.push (.arrayAllocated element n.toInt.toNat r) else s.log })
        | .error e => (.error (.execution e), s.withStack S) := by
  have hheap : (s.withStack S).heap = s.heap := rfl
  conv_lhs => rw [← withStack_self hs hf]
  rw [newArray, op_bind_apply, lift_apply, htype]
  dsimp only [Except.mapError]
  rw [op_bind_apply, popInteger_withStack hs hn]
  dsimp only
  split
  · rfl
  · rw [op_bind_apply, Correspondence.allocate_apply, hheap]
    rcases s.heap.allocArray type.ref type.flavor n.toInt.toNat with e | ⟨r, h⟩
    · rfl
    · obtain ⟨heap, ⟨frames, entries, limit⟩, dispatch, stats, log⟩ := s
      obtain rfl : frames = f :: F := hs
      cases htraced : ctx.tracing.heap <;> rfl

theorem arrayLength_apply {length : Nat} (hs : s.calls.frames = f :: F)
    (hf : f.stack = .object a :: S) (hlength : s.heap.arrayLength a = .ok length) :
    arrayLength s = (.ok (.outcome .next), s.withStack (.int32 (.ofNat length) :: S)) := by
  have hread : readHeap (·.arrayLength a) (s.withStack S) = (.ok length, s.withStack S) :=
    readHeap_apply hlength
  conv_lhs => rw [← withStack_self hs hf]
  rw [arrayLength, op_bind_apply, popObject_withStack hs]
  dsimp only
  rw [op_bind_apply, hread]
  dsimp only
  rw [op_bind_apply, push_withStack hs]
  rfl

/-! ### Accesses -/

/-- A slot that there is may be empty and its element type without a layout, but it is not out of
bounds. -/
theorem materialize_inBounds (hget : s.heap.get? a = some (.array element (.references slots)))
    (hk : k < slots.size) {e : Failure} (h : (materialize ctx a k s).1 = .error e) :
    ¬ e.IsOutOfBounds := by
  rintro ⟨j, l, rfl⟩
  rcases hslot : slots[k] with - | q
  · have hempty : slots[k]? = some none := by rw [Array.getElem?_eq_getElem hk, hslot]
    rw [materialize_of_empty hget hempty] at h
    rcases hlayout : ctx.catalog.instanceFields element with e | layout <;> rw [hlayout] at h
    · obtain ⟨t, rfl⟩ := ctx.catalog.instanceFields_unresolved element e hlayout
      cases h
    · cases h
  · have hread : s.heap.getReference a k = .ok (some q) := by
      refine Heap.getReference_eq_ok_iff.2 ⟨k, rfl, ?_⟩
      rw [Heap.slot?_of_get? hget, Array.getElem?_eq_getElem hk, hslot]
    rw [materialize_of_filled hread] at h
    cases h

/-- The access passes the check of the bounds, that is, it does not fail for them, if and only if
the index is between zero and the length.  If it is not, then the error tells the index and the
length, and nothing has been done but to take the operands. -/
structure Checks (index : Int64) (length : Nat) (S : OperandStack) (t : Machine)
    (result : Except Failure Outcome) (u : Machine) : Prop where
  passes : (∀ e, result = .error e → ¬ e.IsOutOfBounds) ↔
    0 ≤ index.toInt ∧ index.toInt < length
  outside : ¬ (0 ≤ index.toInt ∧ index.toInt < length) →
    result = .error (.execution (.arrayIndexOutOfBounds index.toInt length)) ∧ u = t.withStack S

/-- An access checks the bounds if it fails with what a bounded operation on the heap fails with,
and does not say so otherwise. -/
theorem checks_of_bounded {α : Type} {x : Except ExecError α} {length : Nat} {action : Action}
    (ha : i.action? = .ok action) (hcall : action.isCall = false) (ht : t.calls.frames = f :: F)
    (hx : Bounded length index.toInt x)
    (herror : ∀ e, x = .error e →
      perform ctx action t = (.error (.execution e), t.withStack S))
    (hok : ∀ b, x = .ok b → Only (¬ Failure.IsOutOfBounds ·) (perform ctx action t).1) :
    ∃ result u, (∀ fuel, step ctx fuel i t = some (result, u)) ∧
      Checks index length S t result u := by
  by_cases hindex : 0 ≤ index.toInt ∧ index.toInt < length
  · obtain ⟨b, hb⟩ : ∃ b, x = .ok b := by rwa [Bounded, if_pos hindex] at hx
    have honly := hok b hb
    have hcomes : Comes Effect.IsOutcome t (perform ctx action t) := tidy_perform hcall t ⟨f, F, ht⟩
    rcases hp : perform ctx action t with ⟨e | effect, u⟩ <;> rw [hp] at honly hcomes
    · refine ⟨.error e, u, step_of_error ha hp, ⟨fun _ => hindex, fun _ e' he' => ?_⟩,
        fun hout => absurd hindex hout⟩
      cases he'
      exact honly e rfl
    · cases hcomes with
      | succeeds houtcome _ =>
          obtain ⟨o, rfl⟩ := houtcome
          refine ⟨.ok o, u, step_of_outcome ha hp, ⟨fun _ => hindex, fun _ e' he' => ?_⟩,
            fun hout => absurd hindex hout⟩
          cases he'
  · have hfails := herror _ (by rwa [Bounded, if_neg hindex] at hx)
    exact ⟨_, _, step_of_error ha hfails,
      ⟨fun hpasses => absurd ⟨_, _, rfl⟩ (hpasses _ rfl), fun hin => absurd hin hindex⟩,
      fun _ => ⟨rfl, rfl⟩⟩

theorem rejected_inBounds (op : Operation) (v : Value) : ¬ (rejected op v).IsOutOfBounds := by
  rintro ⟨j, l, h⟩
  cases h

/-- **Accesses check the bounds**, whatever instruction they are made by. -/
theorem checks_of_accesses {storage : Storage} {T : OperandStack} (ht : t.calls.frames = f :: F)
    (hf : f.stack = T) (hi : i.Accesses a index S storage.shape T)
    (hget : t.heap.get? a = some (.array element storage)) (ctx : Context) :
    ∃ result u, (∀ fuel, step ctx fuel i t = some (result, u)) ∧
      Checks index storage.size S t result u := by
  generalize hshape : storage.shape = shape at hi
  rcases storage with items | slots
  · cases hi with
    | @loadElement w v hi hv =>
        have hperform : perform ctx (.loadElement w) t = _ := loadElement_apply ht hf hv
        refine checks_of_bounded hi.action? rfl ht (Heap.bounded_getElement hget index.toInt)
          (fun e he => ?_) fun x hx => ?_
        · rw [hperform, he]
        · rw [hperform, hx]
          rcases hint : x.int32? with - | y <;> simp only [hint]
          · exact only_error (rejected_inBounds _ _)
          · exact only_ok
    | @storeElement w v x n hi hx hv =>
        have hperform : perform ctx (.storeElement w) t = _ := storeElement_apply ht hf hx hv
        refine checks_of_bounded hi.action? rfl ht
          (Heap.bounded_setElement hget index.toInt (.int32 (w.cut n))) (fun e he => ?_)
          fun h hset => ?_
        · rw [hperform, he]
        · rw [hperform, hset]
          exact only_ok
    | loadSlot | storeSlot => cases hshape
  · cases hi with
    | @loadSlot v hi hv =>
        have hperform : perform ctx .loadElementRef t = _ := loadElementRef_apply ht hf hv
        refine checks_of_bounded hi.action? rfl ht (Heap.bounded_getReference hget index.toInt)
          (fun e he => ?_) fun slot hslot => ?_
        · have hread : (t.withStack S).heap.getReference a index.toInt = .error e := he
          rw [hperform, materialize_of_error hread]
        · obtain ⟨k, hk, hslot⟩ := Heap.getReference_eq_ok_iff.1 hslot
          rw [Heap.slot?_of_get? hget] at hslot
          obtain ⟨hlt, -⟩ := Array.getElem?_eq_some_iff.1 hslot
          intro e he
          rw [hperform, hk] at he
          rcases hm : materialize ctx a k (t.withStack S) with ⟨e' | q, u⟩ <;> rw [hm] at he <;>
            cases he
          have hget' : (t.withStack S).heap.get? a = _ := hget
          exact materialize_inBounds hget' hlt (congrArg Prod.fst hm)
    | @storeSlot v slot hi hv =>
        have hperform : perform ctx .storeElementRef t = _ := storeElementRef_eq ht hf hv
        refine checks_of_bounded hi.action? rfl ht
          (Heap.bounded_setReference hget index.toInt slot) (fun e he => ?_) fun h hset => ?_
        · rw [hperform, he]
        · rw [hperform, hset]
          exact only_ok
    | loadElement | storeElement => cases hshape

/-! ### New arrays -/

/-- The array has the length: that is what is loaded as its length, and what accesses check the
index against. -/
structure Measures (ctx : Context) (a : Handle) (shape : Shape) (length : Nat) (t : Machine) :
    Prop where
  loads : ∀ i f F S, i.LoadsLength → t.calls.frames = f :: F → f.stack = .object a :: S →
    ∃ m : Int32, m.toInt = length ∧
      ∀ fuel, step ctx fuel i t = some (.ok .next, t.withStack (.int32 m :: S))
  checks : ∀ i index f F S T, t.calls.frames = f :: F → f.stack = T →
    i.Accesses a index S shape T → ∃ result u, (∀ fuel, step ctx fuel i t = some (result, u)) ∧
      Checks index length S t result u

/-- An array of this length has been added, and its handle pushed.  Whatever is executed from then
on, and however the catalog grows, the array has this length. -/
structure Adds (ctx : Context) (type : TypeDef) (length : Nat) (S : OperandStack) (s u : Machine) :
    Prop where
  calls : u.calls = (s.withStack (.object s.heap.next :: S)).calls
  heap : u.heap = (s.heap.alloc (.array type.ref (Heap.freshStorage type.flavor length))).2
  measures : ∀ ctx' t, Sequel (fun _ _ => True) Heap.Evolves ctx u ctx' t →
    t.Measures ctx' s.heap.next (Heap.freshStorage type.flavor length).shape length

/-- No length is admitted that the number that is loaded cannot tell. -/
theorem measures_of_hasMold {shape : Shape} {length : Nat} (hlength : length ≤ maxArrayLength)
    (hmold : t.heap.HasMold a (.array element shape length)) (ctx : Context) :
    t.Measures ctx a shape length := by
  obtain ⟨storage, hget, rfl, rfl⟩ := hmold.exists_array
  refine ⟨fun i f F S hi hs hf => ?_, fun i index f F S T hs hf haccesses => ?_⟩
  · have hlt : storage.size < 2 ^ 31 := Nat.lt_succ_of_le hlength
    exact ⟨.ofNat storage.size, Int32.toInt_ofNat_of_lt hlt,
      step_of_outcome hi.action? (arrayLength_apply hs hf (Heap.arrayLength_of_get? hget))⟩
  · exact checks_of_accesses hs hf haccesses hget ctx

theorem adds_of_alloc {length : Nat} (hlength : length ≤ maxArrayLength)
    (hcalls : u.calls = (s.withStack (.object s.heap.next :: S)).calls)
    (hheap : u.heap = (s.heap.alloc (.array type.ref (Heap.freshStorage type.flavor length))).2) :
    Adds ctx type length S s u := by
  refine ⟨hcalls, hheap, fun ctx' t hsequel => ?_⟩
  have hmold : u.heap.HasMold s.heap.next
      (.array type.ref (Heap.freshStorage type.flavor length).shape length) := by
    refine ⟨.array type.ref (Heap.freshStorage type.flavor length), ?_, ?_⟩
    · rw [hheap]
      exact Heap.get?_alloc_next _ _
    · rw [HeapObject.mold, Heap.size_freshStorage]
  exact measures_of_hasMold hlength (hsequel.holds (fun c => endures_hasMold c _ _ _) hmold) ctx'

/-- **Arrays have the length that was asked for.**  For a registered element type and an integer of
either width, an array is added if and only if the integer is between zero and `2 ^ 31 - 1`.  A
negative count is out of bounds, and a greater one is too large; then nothing has been done but to
take the count off the stack.

At every later point the length that is loaded is the count, and an access passes the check of the
bounds if and only if its index, as an integer of 64 bits, is between zero and the count. -/
theorem array_lengths (hi : i.AddsArray element)
    (htype : ctx.catalog.resolveType element = .ok type) (hs : s.calls.frames = f :: F)
    (hf : f.stack = v :: S) (hn : v.integer? = some n) :
    ∃ result u, (∀ fuel, step ctx fuel i s = some (result, u)) ∧
      ((∃ o, result = .ok o) ↔ 0 ≤ n.toInt ∧ n.toInt ≤ 0x7fffffff) ∧
      (n.toInt < 0 → result = .error (.execution (.arrayIndexOutOfBounds n.toInt 0)) ∧
        u = s.withStack S) ∧
      (0x7fffffff < n.toInt → result = .error (.execution (.arrayTooLarge n.toInt)) ∧
        u = s.withStack S) ∧
      ∀ o, result = .ok o → o = .next ∧ ∃ length : Nat, n.toInt = length ∧
        Adds ctx type length S s u := by
  have hperform : perform ctx (.newArray element) s = _ := newArray_apply htype hs hf hn
  have hmax : maxArrayLength = 0x7fffffff := rfl
  rcases lt_or_ge n.toInt 0 with hnegative | hpositive
  · rw [if_pos hnegative] at hperform
    refine ⟨_, _, step_of_error hi.action? hperform, ⟨?_, fun hrange => absurd hrange.1 (by omega)⟩,
      fun _ => ⟨rfl, rfl⟩, fun hgreat => absurd hgreat (by omega), ?_⟩
    · rintro ⟨o, ⟨⟩⟩
    · rintro o ⟨⟩
  rw [if_neg (by omega)] at hperform
  unfold Heap.allocArray at hperform
  by_cases hlength : n.toInt.toNat ≤ maxArrayLength
  · rw [if_pos hlength] at hperform
    refine ⟨_, _, step_of_outcome hi.action? hperform, ⟨fun _ => by omega, fun _ => ⟨_, rfl⟩⟩,
      fun hnegative => absurd hnegative (by omega), fun hgreat => absurd hgreat (by omega), ?_⟩
    rintro o ⟨⟩
    exact ⟨rfl, n.toInt.toNat, (Int.toNat_of_nonneg hpositive).symm, adds_of_alloc hlength rfl rfl⟩
  · rw [if_neg hlength] at hperform
    -- the error can tell every count that an integer can be
    have hreported : ((min n.toInt.toNat maxReportedLength : Nat) : Int) = n.toInt := by
      have hle : n.toInt < 2 ^ 63 := Int64.toInt_lt n
      have hreport : maxReportedLength = 2 ^ 63 - 1 := rfl
      omega
    rw [hreported] at hperform
    refine ⟨_, _, step_of_error hi.action? hperform, ⟨?_, fun hrange => absurd hrange.2 (by omega)⟩,
      fun hnegative => absurd hnegative (by omega), fun _ => ⟨rfl, rfl⟩, ?_⟩
    · rintro ⟨o, ⟨⟩⟩
    · rintro o ⟨⟩

end Machine

namespace Sample

def addIntegers : Instruction := ⟨0, 5, "newarr", .sequential, .type (.corelib "System.Int32")⟩

def measure : Instruction := ⟨6, 1, "ldlen", .sequential, .none⟩

end Sample

namespace Machine

/-- Three integers are asked for, and one of them is written to.  Then the length is still three,
and there is no element with this index. -/
theorem array_lengths_three :
    ∃ u t, step Sample.constructorContext 1 Sample.addIntegers (Sample.stacked [.int64 3]) =
        some (.ok .next, u) ∧
      Sequel (fun _ _ => True) Heap.Evolves Sample.constructorContext u Sample.constructorContext
        t ∧
      t.heap.getElement ⟨1⟩ 1 = .ok (.int32 7) ∧
      step Sample.constructorContext 1 Sample.measure
          { t with calls := (Sample.stacked [.object ⟨1⟩]).calls } =
        some (.ok .next, { t with calls := (Sample.stacked [.int32 3]).calls }) ∧
      step Sample.constructorContext 1 Sample.takeByte
          { t with calls := (Sample.stacked [.int32 3, .object ⟨1⟩]).calls } =
        some (.error (.execution (.arrayIndexOutOfBounds 3 3)),
          { t with calls := (Sample.stacked []).calls }) := by
  obtain ⟨type, htype⟩ : ∃ type, Sample.constructorContext.catalog.resolveType
      (.corelib "System.Int32") = .ok type ∧ type.flavor = .i4 := ⟨_, rfl, rfl⟩
  obtain ⟨result, u, hstep, hiff, -, -, hadds⟩ := array_lengths (i := Sample.addIntegers)
    (s := Sample.stacked [.int64 3]) ⟨rfl, rfl, rfl⟩ htype.1 rfl rfl rfl
  obtain ⟨o, rfl⟩ := hiff.2 (by decide)
  obtain ⟨rfl, length, hlength, hadded⟩ := hadds o rfl
  obtain rfl : length = 3 := Int.ofNat_inj.1 hlength.symm
  -- an element is written to
  obtain ⟨t, ht⟩ : ∃ t, t = (performInstruction Sample.constructorContext Sample.putShort
      { u with calls := (Sample.stacked [.int32 7, .int32 1, .object ⟨1⟩]).calls }).2 := ⟨_, rfl⟩
  have hwritten : Sequel (fun _ _ => True) Heap.Evolves Sample.constructorContext u
      Sample.constructorContext t := by
    rw [ht]
    exact .instruction (.elsewhere .start rfl) trivial
  have hshape : (Heap.freshStorage type.flavor 3).shape = .valueArray := by
    rw [htype.2]
    rfl
  have hmeasures : ∀ stack, { t with calls := (Sample.stacked stack).calls }.Measures
      Sample.constructorContext ⟨1⟩ .valueArray 3 := fun stack =>
    hshape ▸ hadded.measures _ _ (.elsewhere hwritten rfl)
  refine ⟨u, t, hstep 1, hwritten, ?_, ?_, ?_⟩
  · rw [ht]
    obtain ⟨heap, calls, dispatch, stats, log⟩ := u
    obtain rfl : heap = _ := hadded.heap
    unfold Heap.freshStorage
    rw [htype.2]
    rfl
  · obtain ⟨m, hm, hloads⟩ :=
      (hmeasures [.object ⟨1⟩]).loads Sample.measure _ _ [] ⟨rfl, rfl⟩ rfl rfl
    obtain rfl : m = 3 := Int32.toInt_inj.1 hm
    exact hloads 1
  · have haccess : Sample.takeByte.Accesses ⟨1⟩ 3 [] .valueArray [.int32 3, .object ⟨1⟩] :=
      .loadElement (w := .w8) ⟨rfl, rfl⟩ rfl
    obtain ⟨r, w, haccessed, hchecks⟩ :=
      (hmeasures [.int32 3, .object ⟨1⟩]).checks _ _ _ _ _ _ rfl rfl haccess
    obtain ⟨rfl, rfl⟩ := hchecks.outside (by decide)
    exact haccessed 1

end Machine

end CilMachine
