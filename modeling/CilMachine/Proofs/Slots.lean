/-
CilMachine/Proofs/Slots.lean

Slots of reference arrays.  A load from an empty slot fills it with a new instance first, so it is a
read that writes.  What a slot holds it holds until something is stored in it: a store writes to the
slot that its operands select (`keeps_storeElementRef`), a load writes to an empty slot only
(`keeps_materialize`), and no other instruction writes to slots at all.  So what the first load has
put there, every later one finds, whatever has been executed between them (`slot_filled_once`).
-/
import CilMachine.Proofs.Construction
import CilMachine.Proofs.Sequel

namespace CilMachine

namespace Heap

variable {h l : Heap} {a b : Handle} {k : Nat} {o : HeapObject} {x : Option Handle}
  {element : TypeRef} {slots : Array (Option Handle)}

/-! ### Slots -/

/-- What is in a slot of a reference array: a handle, or nothing.  If there is no such slot, the
answer is `none`. -/
def slot? (h : Heap) (a : Handle) (k : Nat) : Option (Option Handle) :=
  match h.get? a with
  | some (.array _ (.references slots)) => slots[k]?
  | _ => none

theorem slot?_of_get? (ha : h.get? a = some (.array element (.references slots))) (k : Nat) :
    h.slot? a k = slots[k]? := by
  rw [slot?, ha]

theorem slot?_eq_some_iff :
    h.slot? a k = some x ↔
      ∃ element slots, h.get? a = some (.array element (.references slots)) ∧
        slots[k]? = some x := by
  constructor
  · intro hx
    unfold slot? at hx
    split at hx
    · exact ⟨_, _, ‹_›, hx⟩
    · cases hx
  · rintro ⟨element, slots, ha, hx⟩
    rw [slot?_of_get? ha, hx]

theorem slot?_congr (heq : l.get? a = h.get? a) (k : Nat) : l.slot? a k = h.slot? a k := by
  rw [slot?, slot?, heq]

theorem slot?_alloc (o : HeapObject) (hx : h.slot? a k = some x) :
    (h.alloc o).2.slot? a k = some x := by
  obtain ⟨element, slots, ha, hx⟩ := slot?_eq_some_iff.1 hx
  exact slot?_eq_some_iff.2 ⟨element, slots, get?_alloc_of_some o ha, hx⟩

/-- What takes the place of another object leaves the slots of the others alone. -/
theorem slot?_replace_of_ne (o : HeapObject) (hne : a ≠ b) :
    (h.replace b o).slot? a k = h.slot? a k :=
  slot?_congr (get?_replace_of_ne o hne) k

/-- A field is no slot. -/
theorem slot?_setField {name : String} {v : Value} (hset : h.setField b name v = .ok l)
    (hx : h.slot? a k = some x) : l.slot? a k = some x := by
  obtain ⟨type, fields, hget, -, rfl⟩ := setField_eq_ok.1 hset
  rw [slot?_replace_of_ne]
  · exact hx
  · rintro rfl
    rw [slot?, hget] at hx
    cases hx

/-- An element of a value array is no slot. -/
theorem slot?_setElement {index : Int} {v : Value} (hset : h.setElement b index v = .ok l)
    (hx : h.slot? a k = some x) : l.slot? a k = some x := by
  obtain ⟨element, items, i, hget, -, rfl⟩ := setElement_eq_ok.1 hset
  rw [slot?_replace_of_ne]
  · exact hx
  · rintro rfl
    rw [slot?, hget] at hx
    cases hx

theorem checkedIndex_eq_ok_iff {index : Int} {length i : Nat} :
    checkedIndex index length = .ok i ↔ index = i ∧ i < length := by
  unfold checkedIndex
  split
  · simp only [Except.ok.injEq]
    omega
  · simp only [reduceCtorEq, false_iff]
    omega

theorem getReference_eq_ok_iff {index : Int} :
    h.getReference a index = .ok x ↔ ∃ i : Nat, index = i ∧ h.slot? a i = some x := by
  constructor
  · intro hread
    obtain ⟨⟨element, slots⟩, hslots, hread⟩ := bind_eq_ok hread
    obtain ⟨i, hi, hread⟩ := bind_eq_ok hread
    cases hread
    obtain ⟨rfl, hlt⟩ := checkedIndex_eq_ok_iff.1 hi
    exact ⟨i, rfl, slot?_eq_some_iff.2 ⟨element, slots, getSlots_eq_ok.1 hslots, by simp [hlt]⟩⟩
  · rintro ⟨i, rfl, hx⟩
    obtain ⟨element, slots, ha, hx⟩ := slot?_eq_some_iff.1 hx
    obtain ⟨hi, rfl⟩ := Array.getElem?_eq_some_iff.1 hx
    rw [getReference, getSlots_eq_ok.2 ha]
    simp only [bind, Except.bind, checkedIndex_natCast hi]
    simp [pure, Except.pure, hi]

theorem elementType_of_get? {storage : Storage} (ha : h.get? a = some (.array element storage)) :
    h.elementType a = .ok element := by
  rw [elementType, getArray, get_eq_ok.2 ha]
  rfl

/-- What is put in one slot is in no other. -/
theorem slot?_replace_slots {i : Nat} (slot : Option Handle)
    (hget : h.get? b = some (.array element (.references slots))) (hne : a = b → i ≠ k) :
    (h.replace b (.array element (.references (slots.setIfInBounds i slot)))).slot? a k =
      h.slot? a k := by
  by_cases hab : a = b
  · subst hab
    rw [slot?_of_get? (get?_replace_self _ hget), slot?_of_get? hget]
    exact Array.getElem?_setIfInBounds_ne (hne rfl)
  · exact slot?_replace_of_ne _ hab

/-- A routine may do this to the heap: what there is in the slot stays there. -/
def LeavesSlot (a : Handle) (k : Nat) (h l : Heap) : Prop :=
  ∀ x, h.slot? a k = some x → l.slot? a k = some x

end Heap

/-! ### Loads and stores -/

namespace Instruction

variable {i : Instruction}

/-- The instruction loads from a slot of a reference array. -/
def LoadsSlot (i : Instruction) : Prop :=
  i.flow = .sequential ∧ (i.mnemonic = "ldelem.ref" ∨ i.mnemonic = "ldelema")

/-- The instruction stores to a slot of a reference array. -/
def StoresSlot (i : Instruction) : Prop := i.flow = .sequential ∧ i.mnemonic = "stelem.ref"

theorem LoadsSlot.action? (hi : i.LoadsSlot) : i.action? = .ok .loadElementRef := by
  obtain ⟨hflow, hmnemonic | hmnemonic⟩ := hi <;>
    simp only [Instruction.action?, hflow, hmnemonic] <;> rfl

theorem StoresSlot.action? (hi : i.StoresSlot) : i.action? = .ok .storeElementRef := by
  obtain ⟨hflow, hmnemonic⟩ := hi
  simp only [Instruction.action?, hflow, hmnemonic]
  rfl

/-- No other mnemonic stores to slots. -/
theorem storesSlot_of_action? (hi : i.action? = .ok .storeElementRef) : i.StoresSlot := by
  cases reads_of_action? hi with
  | @sequential form hflow hlookup hform =>
      have hplain : form = .plain .storeElementRef := by
        cases form with
        | plain a =>
            cases hform
            rfl
        | _ =>
            obtain ⟨_, -, heq⟩ := map_eq_ok hform
            cases heq
      -- the form stands in the table once
      have htable : ∀ p ∈ sequentialForms, p.2 = .plain .storeElementRef → p.1 = "stelem.ref" := by
        decide
      exact ⟨hflow, htable _ (mem_sequentialForms hlookup) hplain⟩
  | branch _ hbranch =>
      unfold branchAction? at hbranch
      split at hbranch <;> cases hbranch
  | call _ hcall =>
      unfold callAction? at hcall
      split at hcall <;> cases hcall
  | leave _ hleave => cases hleave

end Instruction

/-- What is stored to put this in a slot: a handle, or null to empty it. -/
def Value.ofSlot : Option Handle → Value
  | some r => .object r
  | none => .null

namespace Machine

variable {ctx ctx' : Context} {s t u : Machine} {i : Instruction} {a r q : Handle} {k : Nat}
  {S T : OperandStack} {f : Frame} {F : List Frame} {slot : Option Handle} {element : TypeRef}
  {slots : Array (Option Handle)} {index : Int}

/-- The operands on top of the others select a slot: an array, and above it an index. -/
def Selects (a : Handle) (k : Nat) (S T : OperandStack) : Prop :=
  ∃ (v : Value) (n : Int64), T = v :: .object a :: S ∧ v.integer? = some n ∧ n.toInt = k

/-- The instruction loads from the slot `k` of the array `a`, with the operands `S` left. -/
inductive Loads (i : Instruction) (a : Handle) (k : Nat) (S : OperandStack) (s : Machine) : Prop
  | intro {f : Frame} {F : List Frame} : i.LoadsSlot → s.calls.frames = f :: F →
      Selects a k S f.stack → Loads i a k S s

/-- The instruction stores in the slot `k` of the array `a`, with the operands `S` left. -/
inductive Stores (i : Instruction) (slot : Option Handle) (a : Handle) (k : Nat) (S : OperandStack)
    (s : Machine) : Prop
  | intro {f : Frame} {F : List Frame} {T : OperandStack} : i.StoresSlot →
      s.calls.frames = f :: F → f.stack = .ofSlot slot :: T → Selects a k S T →
      Stores i slot a k S s

/-- The instruction stores in the slot, whatever it is. -/
def StoresTo (a : Handle) (k : Nat) (i : Instruction) (s : Machine) : Prop :=
  ∃ slot S, s.Stores i slot a k S

/-! ### Operands -/

/-- Nothing happens to the heap. -/
def heapRule : Rule where
  allows s u := u.heap = s.heap
  refl _ := rfl
  trans hst htu := htu.trans hst
  frame _ := rfl

theorem popSlot_withStack (hs : s.calls.frames = f :: F) (slot : Option Handle) :
    popSlot (s.withStack (.ofSlot slot :: S)) = (.ok slot, s.withStack S) := by
  rw [popSlot, op_bind_apply, pop_withStack hs]
  rcases slot with - | q <;> rfl

theorem popSlot_eq_ok (h : popSlot s = (.ok slot, u)) : pop s = (.ok (.ofSlot slot), u) := by
  obtain ⟨v, t, hpop, h⟩ := op_bind_eq_ok h
  cases v with
  | object r =>
      cases h
      exact hpop
  | null =>
      cases h
      exact hpop
  | _ => cases h

/-- An operation that pops an index and an array leaves the heap alone, or finds them on top. -/
theorem popSelected_cases {op : Operation} (rest : Int64 → Handle → Op Effect) (s : Machine) :
    ((popInteger op >>= fun n => popObject op >>= rest n) s).2.heap = s.heap ∨
      ∃ f F v n r S, s.calls.frames = f :: F ∧ f.stack = v :: .object r :: S ∧
        v.integer? = some n := by
  rw [op_bind_apply]
  have hkept := obeys_popInteger (R := heapRule) op s
  rcases hn : popInteger op s with ⟨e | n, t⟩ <;> rw [hn] at hkept
  · exact .inl hkept
  obtain ⟨v, hpop, hv⟩ := popInteger_eq_ok hn
  obtain ⟨f, F, T, hs, hstack, rfl⟩ := pop_eq_ok hpop
  dsimp only
  rw [op_bind_apply]
  have hkept' := obeys_popObject (R := heapRule) op
    { s with calls := { s.calls with frames := { f with stack := T } :: F } }
  rcases hr : popObject op _ with ⟨e | r, u⟩ <;> rw [hr] at hkept'
  · exact .inl hkept'
  obtain ⟨f', F', S, hs', hstack', -⟩ := pop_eq_ok (popObject_eq_ok hr)
  cases hs'
  cases hstack'
  exact .inr ⟨f, F, v, n, r, S, hs, hstack, hv⟩

/-! ### Equations -/

/-- What cannot be read is not filled. -/
theorem materialize_of_error {e : ExecError} (hread : s.heap.getReference r index = .error e) :
    materialize ctx r index s = (.error (.execution e), s) := by
  have hfails : readHeap (·.getReference r index) s = (.error (.execution e), s) := by
    rw [readHeap_eq, hread]
    rfl
  rw [materialize, op_bind_apply, hfails]

theorem materialize_of_filled (hread : s.heap.getReference r index = .ok (some q)) :
    materialize ctx r index s = (.ok q, s) := by
  rw [materialize, op_bind_apply, readHeap_apply hread]
  rfl

theorem materialize_of_empty (hget : s.heap.get? r = some (.array element (.references slots)))
    (hempty : slots[k]? = some none) :
    materialize ctx r k s = match ctx.catalog.instanceFields element with
      | .ok layout => (.ok s.heap.next, { s with
          heap := (s.heap.alloc (.blank element layout)).2.replace r
            (.array element (.references (slots.setIfInBounds k (some s.heap.next))))
          stats := { s.stats with allocations := s.stats.allocations + 1 }
          log := if ctx.tracing.heap then s.log.push (.allocated element.name s.heap.next)
            else s.log })
      | .error e => (.error (.execution e), s) := by
  have hslot : s.heap.slot? r k = some none := by rw [Heap.slot?_of_get? hget, hempty]
  have hread : s.heap.getReference r k = .ok none :=
    Heap.getReference_eq_ok_iff.2 ⟨k, rfl, hslot⟩
  have helement : s.heap.elementType r = .ok element := Heap.elementType_of_get? hget
  rw [materialize, op_bind_apply, readHeap_apply hread]
  dsimp only
  rw [op_bind_apply, readHeap_apply helement]
  dsimp only
  rw [op_bind_apply, allocateObject_apply]
  rcases ctx.catalog.instanceFields element with e | layout
  · rfl
  · dsimp only
    -- the array is the same when the instance has been added, so the slot can be written
    have hkept := Heap.get?_alloc_of_some (.blank element layout) hget
    have hlt : k < slots.size := (Array.getElem?_eq_some_iff.1 hempty).1
    have hwrite : (s.heap.alloc (.blank element layout)).2.setReference r k
        (some s.heap.next) = .ok _ :=
      Heap.setReference_eq_ok.2 ⟨element, slots, k, hkept, checkedIndex_natCast hlt, rfl⟩
    rw [op_bind_apply, Correspondence.writeHeap_apply, hwrite]
    rfl

/-- Nothing is done to the machine, or a new object is put in an empty slot. -/
theorem materialize_cases (ctx : Context) (r : Handle) (index : Int) (s : Machine) :
    (materialize ctx r index s).2 = s ∨
      ∃ (k : Nat) (element : TypeRef) (slots : Array (Option Handle)) (layout : Named Flavor),
        index = k ∧ s.heap.get? r = some (.array element (.references slots)) ∧
          slots[k]? = some none ∧ ctx.catalog.instanceFields element = .ok layout := by
  rcases hread : s.heap.getReference r index with e | - | q
  · left
    rw [materialize_of_error hread]
  · obtain ⟨k, rfl, hslot⟩ := Heap.getReference_eq_ok_iff.1 hread
    obtain ⟨element, slots, hget, hempty⟩ := Heap.slot?_eq_some_iff.1 hslot
    rcases hlayout : ctx.catalog.instanceFields element with e | layout
    · left
      rw [materialize_of_empty hget hempty, hlayout]
    · exact .inr ⟨k, element, slots, layout, rfl, hget, hempty, hlayout⟩
  · left
    rw [materialize_of_filled hread]

/-- Whatever comes of a slot that is loaded from, the frames stay. -/
theorem materialize_calls (ctx : Context) (r : Handle) (index : Int) (s : Machine) :
    (materialize ctx r index s).2.calls = s.calls := by
  rcases materialize_cases ctx r index s with
    heq | ⟨k, element, slots, layout, rfl, hget, hempty, hlayout⟩
  · rw [heq]
  · rw [materialize_of_empty hget hempty, hlayout]

theorem loadElementRef_apply {v : Value} {n : Int64} (hs : s.calls.frames = f :: F)
    (hf : f.stack = v :: .object r :: S) (hn : v.integer? = some n) :
    loadElementRef ctx s = match materialize ctx r n.toInt (s.withStack S) with
      | (.ok q, u) => (.ok (.outcome .next), u.withStack (.object q :: S))
      | (.error e, u) => (.error e, u) := by
  conv_lhs => rw [← withStack_self hs hf]
  rw [loadElementRef, op_bind_apply, popInteger_withStack hs hn]
  dsimp only
  rw [op_bind_apply, popObject_withStack hs]
  dsimp only
  rw [op_bind_apply]
  have hcalls := materialize_calls ctx r n.toInt (s.withStack S)
  rcases hm : materialize ctx r n.toInt (s.withStack S) with ⟨e | q, u⟩ <;> rw [hm] at hcalls
  · -- the push cannot fail, since the frame is still there
    have hu : u.calls.frames = { f with stack := S } :: F := by rw [hcalls, withStack_eq hs]
    dsimp only
    rw [op_bind_apply, ← withStack_self hu rfl, push_withStack hu, withStack_withStack]
    rfl

/-- A load that fails does nothing to the heap. -/
theorem heap_of_loadElementRef {e : Failure} (h : loadElementRef ctx s = (.error e, u)) :
    u.heap = s.heap := by
  rcases popSelected_cases _ s with hkept | ⟨f, F, v, n, r, S, hs, hf, hn⟩
  · have hheap : (loadElementRef ctx s).2.heap = s.heap := hkept
    rw [h] at hheap
    exact hheap
  · rw [loadElementRef_apply hs hf hn] at h
    rcases materialize_cases ctx r n.toInt (s.withStack S) with
      heq | ⟨k, element, slots, layout, hk, hget, hempty, hlayout⟩
    · rcases hm : materialize ctx r n.toInt (s.withStack S) with ⟨e' | q, t⟩ <;>
        rw [hm] at h heq <;> cases h
      obtain rfl : u = s.withStack S := heq
      rfl
    · rw [hk, materialize_of_empty hget hempty, hlayout] at h
      cases h

theorem outcome_of_loadElementRef {e : Effect} (h : loadElementRef ctx s = (.ok e, u)) :
    e = .outcome .next := by
  obtain ⟨_, _, -, h⟩ := op_bind_eq_ok h
  obtain ⟨_, _, -, h⟩ := op_bind_eq_ok h
  obtain ⟨_, _, -, h⟩ := op_bind_eq_ok h
  obtain ⟨_, _, -, h⟩ := op_bind_eq_ok h
  cases h
  rfl

theorem loadElementRef_of_filled (hload : s.Loads i a k S)
    (hslot : s.heap.slot? a k = some (some q)) :
    loadElementRef ctx s = (.ok (.outcome .next), s.withStack (.object q :: S)) := by
  obtain ⟨-, hs, v, n, hf, hn, hk⟩ := hload
  have hread : (s.withStack S).heap.getReference a k = .ok (some q) :=
    Heap.getReference_eq_ok_iff.2 ⟨k, rfl, hslot⟩
  rw [loadElementRef_apply hs hf hn, hk, materialize_of_filled hread]
  dsimp only
  rw [withStack_withStack]

theorem loadElementRef_of_empty (hload : s.Loads i a k S)
    (hget : s.heap.get? a = some (.array element (.references slots)))
    (hempty : slots[k]? = some none) :
    loadElementRef ctx s = match ctx.catalog.instanceFields element with
      | .ok layout => (.ok (.outcome .next), { s.withStack (.object s.heap.next :: S) with
          heap := (s.heap.alloc (.blank element layout)).2.replace a
            (.array element (.references (slots.setIfInBounds k (some s.heap.next))))
          stats := { s.stats with allocations := s.stats.allocations + 1 }
          log := if ctx.tracing.heap then s.log.push (.allocated element.name s.heap.next)
            else s.log })
      | .error e => (.error (.execution e), s.withStack S) := by
  obtain ⟨-, hs, v, n, hf, hn, hk⟩ := hload
  rw [loadElementRef_apply hs hf hn, hk, materialize_of_empty (s := s.withStack S) hget hempty]
  rcases ctx.catalog.instanceFields element with e | layout
  · rfl
  · obtain ⟨heap, ⟨frames, entries, limit⟩, dispatch, stats, log⟩ := s
    obtain rfl : frames = _ := hs
    rfl

theorem storeElementRef_eq {v : Value} {n : Int64} (hs : s.calls.frames = f :: F)
    (hf : f.stack = .ofSlot slot :: v :: .object a :: S) (hn : v.integer? = some n) :
    storeElementRef s = match s.heap.setReference a n.toInt slot with
      | .ok h => (.ok (.outcome .next), { s.withStack S with heap := h })
      | .error e => (.error (.execution e), s.withStack S) := by
  have hheap : (s.withStack S).heap = s.heap := rfl
  conv_lhs => rw [← withStack_self hs hf]
  rw [storeElementRef, op_bind_apply, popSlot_withStack hs]
  dsimp only
  rw [op_bind_apply, popInteger_withStack hs hn]
  dsimp only
  rw [op_bind_apply, popObject_withStack hs]
  dsimp only
  rw [op_bind_apply, Correspondence.writeHeap_apply, hheap]
  rcases s.heap.setReference a n.toInt slot with e | h
  · rfl
  · rfl

theorem storeElementRef_apply (hstore : s.Stores i slot a k S)
    (hget : s.heap.get? a = some (.array element (.references slots))) (hk : k < slots.size) :
    storeElementRef s = (.ok (.outcome .next), { s.withStack S with
      heap := s.heap.replace a (.array element (.references (slots.setIfInBounds k slot))) }) := by
  obtain ⟨-, hs, hf, v, n, rfl, hn, hindex⟩ := hstore
  have hset : s.heap.setReference a n.toInt slot =
      .ok (s.heap.replace a (.array element (.references (slots.setIfInBounds k slot)))) := by
    rw [hindex]
    exact Heap.setReference_eq_ok.2 ⟨element, slots, k, hget, checkedIndex_natCast hk, rfl⟩
  rw [storeElementRef_eq hs hf hn, hset]

/-! ### What keeps slots -/

/-- What there is in the slot stays there. -/
def slotRule (ctx : Context) (a : Handle) (k : Nat) (x : Option Handle) : MoveRule ctx where
  allows s u := s.heap.slot? a k = some x → u.heap.slot? a k = some x
  refl _ := id
  trans hst htu := htu ∘ hst
  frame _ := id
  field hset := Heap.slot?_setField hset
  element hset := Heap.slot?_setElement hset
  add _ _ := Heap.slot?_alloc _
  ask _ := id

/-- A load writes to an empty slot only. -/
theorem keeps_materialize (r : Handle) (index : Int) :
    Obeys (slotRule ctx a k (some q)).toRule (materialize ctx r index) := by
  intro s hslot
  rcases materialize_cases ctx r index s with
    heq | ⟨j, element, slots, layout, rfl, hget, hempty, hlayout⟩
  · rw [heq]
    exact hslot
  · rw [materialize_of_empty hget hempty, hlayout]
    -- the slot that is written was empty, so it is not this one
    have hne : a = r → j ≠ k := by
      rintro rfl rfl
      rw [Heap.slot?_of_get? hget, hempty] at hslot
      cases hslot
    exact (Heap.slot?_replace_slots _ (Heap.get?_alloc_of_some _ hget) hne).trans
      (Heap.slot?_alloc _ hslot)

theorem keeps_loadElementRef :
    Obeys (slotRule ctx a k (some q)).toRule (loadElementRef ctx) := by
  refine (obeys_popInteger _).bind fun index => (obeys_popObject _).bind fun r => ?_
  exact (keeps_materialize r _).bind fun q => (obeys_push _).thenProceed

/-- A store writes to the slot that its operands select. -/
theorem keeps_storeElementRef (hi : i.StoresSlot) (hstores : ¬ StoresTo a k i s)
    {x : Option Handle} (hx : s.heap.slot? a k = some x) :
    (storeElementRef s).2.heap.slot? a k = some x := by
  rw [storeElementRef, op_bind_apply]
  have hkept := obeys_popSlot (R := heapRule) s
  rcases hp : popSlot s with ⟨e | slot, t⟩ <;> rw [hp] at hkept
  · rw [← hkept] at hx
    exact hx
  obtain ⟨f, F, T, hs, hf, rfl⟩ := pop_eq_ok (popSlot_eq_ok hp)
  dsimp only
  rcases popSelected_cases _ _ with hkept | ⟨f', F', v, n, r, S, hs', hf', hn⟩
  · rw [hkept]
    exact hx
  cases hs'
  obtain rfl : T = v :: .object r :: S := hf'
  rw [← withStack_eq hs, op_bind_apply, popInteger_withStack hs hn]
  dsimp only
  rw [op_bind_apply, popObject_withStack hs]
  dsimp only
  rw [op_bind_apply, Correspondence.writeHeap_apply]
  rcases hset : (s.withStack S).heap.setReference r n.toInt slot with e | l
  · exact hx
  -- if it wrote to this slot, its operands would have selected it
  obtain ⟨element, slots, j, hget, hj, rfl⟩ := Heap.setReference_eq_ok.1 hset
  refine (Heap.slot?_replace_slots slot hget ?_).trans hx
  rintro rfl rfl
  obtain ⟨hindex, -⟩ := Heap.checkedIndex_eq_ok_iff.1 hj
  exact hstores ⟨slot, S, .intro hi hs hf ⟨v, n, rfl, hn, hindex⟩⟩

/-- What fills a slot endures, unless something is stored there. -/
theorem endures_filled (ctx : Context) (a q : Handle) (k : Nat) :
    Endures ctx (fun i s => ¬ StoresTo a k i s) (Heap.LeavesSlot a k)
      (fun h => h.slot? a k = some (some q)) where
  add _ o hslot := Heap.slot?_alloc o hslot
  instruction i s hstores hslot := by
    rcases ha : i.action? with e | action
    · rw [performInstruction, op_bind_apply, lift_apply, ha]
      exact hslot
    · rw [performInstruction_of_action ha]
      by_cases hstore : action = .storeElementRef
      · subst hstore
        exact keeps_storeElementRef (Instruction.storesSlot_of_action? ha) hstores hslot
      · exact obeys_perform (slotRule ctx a k (some q)) action (fun _ => keeps_loadElementRef)
          (fun heq => absurd heq hstore) s hslot
  routine _ _ hleaves := hleaves _

/-! ### Settled slots -/

/-- Whatever is executed from the machine on, but for stores in the slot, and however the catalog
grows: to load from the slot is to push the handle, and nothing else. -/
def Settled (ctx : Context) (a : Handle) (k : Nat) (q : Handle) (s : Machine) : Prop :=
  ∀ ctx' u, Sequel (fun i t => ¬ StoresTo a k i t) (Heap.LeavesSlot a k) ctx s ctx' u →
    ∀ i S, u.Loads i a k S →
      ∀ fuel, step ctx' fuel i u = some (.ok .next, u.withStack (.object q :: S))

/-- A new instance of the element type has been added, blank, and put in the slot; besides, nothing
has changed on the heap.  Its handle is pushed, and the slot is settled. -/
structure Fills (ctx : Context) (a : Handle) (element : TypeRef) (slots : Array (Option Handle))
    (k : Nat) (layout : Named Flavor) (S : OperandStack) (s u : Machine) : Prop where
  calls : u.calls = (s.withStack (.object s.heap.next :: S)).calls
  allocations : u.stats.allocations = s.stats.allocations + 1
  size : u.heap.size = s.heap.size + 1
  object : u.heap.get? s.heap.next = some (.blank element layout)
  array : u.heap.get? a =
    some (.array element (.references (slots.setIfInBounds k (some s.heap.next))))
  others : ∀ r, r ≠ a → r ≠ s.heap.next → u.heap.get? r = s.heap.get? r
  settled : Settled ctx a k s.heap.next u

/-- The slot has been filled or emptied; besides, nothing has changed on the heap.  If it has been
filled, it is settled. -/
structure Puts (ctx : Context) (slot : Option Handle) (a : Handle) (element : TypeRef)
    (slots : Array (Option Handle)) (k : Nat) (S : OperandStack) (s u : Machine) : Prop where
  calls : u.calls = (s.withStack S).calls
  allocations : u.stats.allocations = s.stats.allocations
  size : u.heap.size = s.heap.size
  reads : u.heap.getReference a k = .ok slot
  array : u.heap.get? a = some (.array element (.references (slots.setIfInBounds k slot)))
  others : ∀ r, r ≠ a → u.heap.get? r = s.heap.get? r
  settled : ∀ q, slot = some q → Settled ctx a k q u

theorem settled_of_filled (hslot : s.heap.slot? a k = some (some q)) : Settled ctx a k q s := by
  intro ctx' u hsequel i S hload fuel
  have hkept := hsequel.holds (fun c => endures_filled c a q k) hslot
  obtain ⟨hi, -, -⟩ := id hload
  exact step_of_outcome hi.action? (loadElementRef_of_filled hload hkept) fuel

/-- A load that fails does nothing to the heap. -/
theorem heap_of_step_loadsSlot {fuel : Nat} {e : Failure} (hi : i.LoadsSlot)
    (h : step ctx fuel i s = some (.error e, u)) : u.heap = s.heap := by
  rw [step, stepWith_apply, performInstruction_of_action hi.action?] at h
  rcases hperform : perform ctx .loadElementRef s with ⟨e' | effect, t⟩ <;> rw [hperform] at h
  · cases h
    exact heap_of_loadElementRef hperform
  · obtain rfl := outcome_of_loadElementRef hperform
    cases h

theorem step_of_empty (hload : s.Loads i a k S)
    (ha : s.heap.get? a = some (.array element (.references slots)))
    (hempty : slots[k]? = some none) {layout : Named Flavor}
    (hlayout : ctx.catalog.instanceFields element = .ok layout) :
    ∃ u, (∀ fuel, step ctx fuel i s = some (.ok .next, u)) ∧
      Fills ctx a element slots k layout S s u := by
  have hequation : loadElementRef ctx s = _ := loadElementRef_of_empty hload ha hempty
  rw [hlayout] at hequation
  obtain ⟨hi, -, -⟩ := hload
  have hlt : k < slots.size := (Array.getElem?_eq_some_iff.1 hempty).1
  have hself := Heap.get?_replace_self
    (.array element (.references (slots.setIfInBounds k (some s.heap.next))))
    (Heap.get?_alloc_of_some (.blank element layout) ha)
  have hne : s.heap.next ≠ a := by
    rintro rfl
    rw [Heap.get?_next] at ha
    cases ha
  refine ⟨_, step_of_outcome hi.action? hequation, rfl, rfl, ?_, ?_, hself, ?_, ?_⟩
  · rw [Heap.size_replace, Heap.size_alloc]
  · rw [Heap.get?_replace_of_ne _ hne, Heap.get?_alloc_next]
  · intro r hr hnew
    rw [Heap.get?_replace_of_ne _ hr, Heap.get?_alloc_of_ne _ hnew]
  · refine settled_of_filled ?_
    rw [Heap.slot?_of_get? hself]
    exact Array.getElem?_setIfInBounds_self_of_lt hlt

theorem step_of_stores (hstore : s.Stores i slot a k S)
    (ha : s.heap.get? a = some (.array element (.references slots))) (hk : k < slots.size) :
    ∃ u, (∀ fuel, step ctx fuel i s = some (.ok .next, u)) ∧
      Puts ctx slot a element slots k S s u := by
  have hself := Heap.get?_replace_self
    (.array element (.references (slots.setIfInBounds k slot))) ha
  have hslot : (s.heap.replace a
      (.array element (.references (slots.setIfInBounds k slot)))).slot? a k = some slot := by
    rw [Heap.slot?_of_get? hself]
    exact Array.getElem?_setIfInBounds_self_of_lt hk
  have hequation := storeElementRef_apply hstore ha hk
  obtain ⟨hi, -, -, -⟩ := hstore
  refine ⟨_, step_of_outcome hi.action? hequation, rfl, rfl, ?_, ?_, hself, ?_, ?_⟩
  · rw [Heap.size_replace]
  · exact Heap.getReference_eq_ok_iff.2 ⟨k, rfl, hslot⟩
  · exact fun r hr => Heap.get?_replace_of_ne _ hr
  · rintro q rfl
    exact settled_of_filled hslot

/-- **A slot is filled once.**  Let a reference array have a slot.  To load from it while it is
empty fills it with a new instance and pushes that; this fails only if the element type has no
instance layout.  A load that fails, for whatever reason, does nothing to the heap.  What the slot
holds, every later load finds, until something is stored in it; and that fills it again, or empties
it. -/
theorem slot_filled_once (ctx : Context) (s : Machine) (a : Handle) (element : TypeRef)
    (slots : Array (Option Handle)) (k : Nat)
    (ha : s.heap.get? a = some (.array element (.references slots))) (hk : k < slots.size) :
    (slots[k] = none → ∀ i S, s.Loads i a k S →
      (∀ layout, ctx.catalog.instanceFields element = .ok layout →
        ∃ u, (∀ fuel, step ctx fuel i s = some (.ok .next, u)) ∧
          Fills ctx a element slots k layout S s u) ∧
      ∀ e, ctx.catalog.instanceFields element = .error e →
        ∀ fuel, step ctx fuel i s = some (.error (.execution e), s.withStack S)) ∧
    (∀ i fuel e u, i.LoadsSlot → step ctx fuel i s = some (.error e, u) → u.heap = s.heap) ∧
    (∀ q, slots[k] = some q → Settled ctx a k q s) ∧
    ∀ i slot S, s.Stores i slot a k S →
      ∃ u, (∀ fuel, step ctx fuel i s = some (.ok .next, u)) ∧
        Puts ctx slot a element slots k S s u := by
  refine ⟨fun hempty i S hload => ?_, fun i fuel e u hi h => heap_of_step_loadsSlot hi h,
    fun q hfilled => ?_, fun i slot S hstore => step_of_stores hstore ha hk⟩
  · have hempty' : slots[k]? = some none := by rw [Array.getElem?_eq_getElem hk, hempty]
    refine ⟨fun layout hlayout => step_of_empty hload ha hempty' hlayout, fun e hlayout => ?_⟩
    have hequation : loadElementRef ctx s = _ := loadElementRef_of_empty hload ha hempty'
    rw [hlayout] at hequation
    obtain ⟨hi, -, -⟩ := hload
    exact step_of_error hi.action? hequation
  · refine settled_of_filled ?_
    rw [Heap.slot?_of_get? ha, Array.getElem?_eq_getElem hk, hfilled]

end Machine

namespace Sample

/-- An array of pairs with two empty slots. -/
def shelf : Heap := ⟨#[.array pair (.references #[none, none])]⟩

/-- A machine with the given heap and operands. -/
def shelving (heap : Heap) (stack : OperandStack) : Machine := { stacked stack with heap }

def fetch : Instruction := ⟨0, 1, "ldelem.ref", .sequential, .none⟩

def fetchAddress : Instruction := ⟨1, 5, "ldelema", .sequential, .type pair⟩

def shelve : Instruction := ⟨6, 1, "stelem.ref", .sequential, .none⟩

end Sample

namespace Machine

/-- What the first slot has been filled with is found there after the same has been stored in the
other slot. -/
theorem slot_filled_once_shelf :
    ∃ u t, step Sample.constructorContext 1 Sample.fetch
        (Sample.shelving Sample.shelf [.int32 0, .object ⟨1⟩]) = some (.ok .next, u) ∧
      u.heap.get? ⟨2⟩ = some (.record Sample.pair [("First", .int32 0), ("Second", .int32 0)]) ∧
      Sequel (fun i t => ¬ StoresTo ⟨1⟩ 0 i t) (Heap.LeavesSlot ⟨1⟩ 0) Sample.constructorContext u
        Sample.constructorContext t ∧
      t.heap.getReference ⟨1⟩ 1 = .ok (some ⟨2⟩) ∧
      step Sample.constructorContext 1 Sample.fetchAddress t =
        some (.ok .next, t.withStack [.object ⟨2⟩]) := by
  have hlayout : Sample.constructorContext.catalog.instanceFields Sample.pair =
      .ok [("First", .i4), ("Second", .i4)] := by decide +kernel
  -- the first slot is filled
  have hload : (Sample.shelving Sample.shelf [.int32 0, .object ⟨1⟩]).Loads Sample.fetch ⟨1⟩ 0 [] :=
    .intro ⟨rfl, .inl rfl⟩ rfl ⟨.int32 0, 0, rfl, rfl, rfl⟩
  obtain ⟨hfills, -, -, -⟩ := slot_filled_once Sample.constructorContext
    (Sample.shelving Sample.shelf [.int32 0, .object ⟨1⟩]) ⟨1⟩ Sample.pair #[none, none] 0 rfl
    (by decide)
  obtain ⟨u, hu, hfilled⟩ := (hfills rfl _ _ hload).1 _ hlayout
  -- the other one is stored in
  have hi : Sample.shelve.StoresSlot := ⟨rfl, rfl⟩
  have hstores : (Sample.shelving u.heap [.object ⟨2⟩, .int32 1, .object ⟨1⟩]).Stores Sample.shelve
      (some ⟨2⟩) ⟨1⟩ 1 [] := .intro hi rfl rfl ⟨.int32 1, 1, rfl, rfl, rfl⟩
  obtain ⟨-, -, -, hputs⟩ := slot_filled_once Sample.constructorContext
    (Sample.shelving u.heap [.object ⟨2⟩, .int32 1, .object ⟨1⟩]) ⟨1⟩ Sample.pair
    #[some ⟨2⟩, none] 1 hfilled.array (by decide)
  obtain ⟨w, hw, hput⟩ := hputs _ _ _ hstores
  have hother : ¬ StoresTo ⟨1⟩ 0 Sample.shelve
      (Sample.shelving u.heap [.object ⟨2⟩, .int32 1, .object ⟨1⟩]) := by
    rintro ⟨slot, S, -, hs, hf, index, n, rfl, hn, hk⟩
    cases hs
    obtain ⟨-, hf⟩ := List.cons.inj hf
    cases hf
    cases hn
    cases hk
  have hperform : w.heap = (performInstruction Sample.constructorContext Sample.shelve
      (Sample.shelving u.heap [.object ⟨2⟩, .int32 1, .object ⟨1⟩])).2.heap := by
    have hstored := storeElementRef_apply hstores hfilled.array (by decide)
    have hstep : step Sample.constructorContext 1 Sample.shelve _ = _ :=
      step_of_outcome hi.action? hstored 1
    have heq := congrArg Prod.snd (Option.some.inj ((hw 1).symm.trans hstep))
    rw [performInstruction_of_action hi.action?]
    exact (congrArg Machine.heap heq).trans (congrArg (fun p => p.2.heap) hstored).symm
  have hbefore : Sequel (fun i t => ¬ StoresTo ⟨1⟩ 0 i t) (Heap.LeavesSlot ⟨1⟩ 0)
      Sample.constructorContext u Sample.constructorContext
      (Sample.shelving u.heap [.object ⟨2⟩, .int32 1, .object ⟨1⟩]) := .elsewhere .start rfl
  have hsequel : Sequel (fun i t => ¬ StoresTo ⟨1⟩ 0 i t) (Heap.LeavesSlot ⟨1⟩ 0)
      Sample.constructorContext u Sample.constructorContext
      (Sample.shelving w.heap [.int64 0, .object ⟨1⟩]) :=
    .elsewhere (.instruction hbefore hother) hperform
  -- and the first one is loaded from again
  have hload' : (Sample.shelving w.heap [.int64 0, .object ⟨1⟩]).Loads Sample.fetchAddress ⟨1⟩ 0
      [] := .intro ⟨rfl, .inr rfl⟩ rfl ⟨.int64 0, 0, rfl, rfl, rfl⟩
  exact ⟨u, _, hu 1, hfilled.object, hsequel, hput.reads,
    hfilled.settled _ _ hsequel _ _ hload' 1⟩

end Machine

end CilMachine
