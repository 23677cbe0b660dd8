/-
CilMachine/Proofs/Stores.lean

The heap as a store: the objects are in a map, by handles that a counter gives out.  Nothing in a
store says that the handles are those below the counter, or that the counter is not at a handle that
is taken; it is so because an addition inserts under the counter and moves that on, and because no
other operation inserts under a handle that it has not found.  So a store that has come about by the
operations *represents* a heap, in which a handle is a position, and each operation does to the
store what it does to the heap (`Mirrors`).

What one operation keeps, any sequence of them keeps (`History.heap`), whether they succeed or fail;
and so the facts on the history of heaps are facts on the history of stores (`History.persists`).
-/
import CilMachine.Proofs.Histories
import Mathlib.Data.List.Induction

namespace CilMachine

/-! ### Writes to an object -/

namespace HeapObject

/-- A record with another value in a field. -/
def withField (name : String) (v : Value) : HeapObject → Except ExecError HeapObject
  | .record type fields =>
    if (fields.get? name).isSome then .ok (.record type (fields.put name v))
    else .error (.unresolved (.instanceField type name))
  | o => .error (o.mismatch .record)

/-- A value array with another value at an index. -/
def withElement (index : Int) (v : Value) : HeapObject → Except ExecError HeapObject
  | .array element (.values items) => do
    let i ← checkedIndex index items.size
    return .array element (.values (items.setIfInBounds i v))
  | o => .error (o.mismatch .valueArray)

/-- A reference array with another slot at an index. -/
def withSlot (index : Int) (slot : Option Handle) : HeapObject → Except ExecError HeapObject
  | .array element (.references slots) => do
    let i ← checkedIndex index slots.size
    return .array element (.references (slots.setIfInBounds i slot))
  | o => .error (o.mismatch .referenceArray)

end HeapObject

namespace Heap

variable (h : Heap) (r : Handle)

theorem setField_eq (name : String) (v : Value) :
    h.setField r name v = h.get r >>= fun o => (o.withField name v).map (h.replace r) := by
  unfold setField getRecord
  rcases h.get r with e | ⟨type, fields⟩ | ⟨element, storage⟩
  · rfl
  · show (if _ then _ else _) = Except.map _ (if _ then _ else _)
    split <;> rfl
  · rfl

theorem setElement_eq (index : Int) (v : Value) :
    h.setElement r index v = h.get r >>= fun o => (o.withElement index v).map (h.replace r) := by
  unfold setElement getValues
  rcases h.get r with e | ⟨type, fields⟩ | ⟨element, items | slots⟩
  · rfl
  · rfl
  · show checkedIndex index items.size >>= _ = Except.map _ (checkedIndex index items.size >>= _)
    rcases checkedIndex index items.size with e | i <;> rfl
  · rfl

theorem setReference_eq (index : Int) (slot : Option Handle) :
    h.setReference r index slot =
      h.get r >>= fun o => (o.withSlot index slot).map (h.replace r) := by
  unfold setReference getSlots
  rcases h.get r with e | ⟨type, fields⟩ | ⟨element, items | slots⟩
  · rfl
  · rfl
  · rfl
  · show checkedIndex index slots.size >>= _ = Except.map _ (checkedIndex index slots.size >>= _)
    rcases checkedIndex index slots.size with e | i <;> rfl

end Heap

/-! ### Stores -/

/-- Objects by their handles, and the number of the handle that comes next.  A map has no room for
as many objects as there are numbers of 64 bits, so the counter does not wrap around. -/
structure Store where
  objects : Std.HashMap Handle HeapObject := ∅
  nextId : Nat := 1

namespace Store

/-- The number of objects. -/
def size (σ : Store) : Nat := σ.objects.size

/-- Whether a handle names an object. -/
def contains (σ : Store) (r : Handle) : Bool := σ.objects.contains r

/-- The object that a handle names. -/
def get? (σ : Store) (r : Handle) : Option HeapObject := σ.objects[r]?

/-- The handle that comes next. -/
def next (σ : Store) : Handle := ⟨σ.nextId⟩

/-! ### Operations -/

/-- An operation on a store, which may fail. -/
abbrev Op (α : Type) := ExceptT ExecError (StateM Store) α

/-- Inserts an object under the handle that comes next. -/
def alloc (o : HeapObject) : Op Handle := do
  let r := (← get).next
  modify fun σ => { σ with nextId := σ.nextId + 1 }
  modify fun σ => { σ with objects := σ.objects.insert r o }
  return r

/-- Adds an array whose elements have a type of the given flavor. -/
def allocArray (element : TypeRef) (flavor : Flavor) (length : Nat) : Op Handle := do
  if length ≤ maxArrayLength then alloc (.array element (Heap.freshStorage flavor length))
  else throw (.arrayTooLarge (min length maxReportedLength : Nat))

/-- The object that a handle names, or the error that there is none. -/
def lookup (r : Handle) : Op HeapObject := do
  match (← get).get? r with
  | some o => return o
  | none => throw (.unresolved (.heapObject r))

/-- Overwrites the object of a handle by what becomes of it. -/
def update (r : Handle) (become : HeapObject → Except ExecError HeapObject) : Op Unit := do
  let o ← become (← lookup r)
  modify fun σ => { σ with objects := σ.objects.insert r o }

/-- Gives a field of a record a value. -/
def setField (r : Handle) (name : String) (v : Value) : Op Unit := update r (·.withField name v)

/-- Gives an element of a value array a value. -/
def setElement (r : Handle) (index : Int) (v : Value) : Op Unit := update r (·.withElement index v)

/-- Fills or clears a slot of a reference array. -/
def setReference (r : Handle) (index : Int) (slot : Option Handle) : Op Unit :=
  update r (·.withSlot index slot)

/-! ### Stores and heaps -/

variable {σ τ : Store} {h k : Heap} {r : Handle} {o : HeapObject} {rs : List Handle} {α : Type}

/-- The store has what the heap has, and will give out the same handle next. -/
structure Represents (σ : Store) (h : Heap) : Prop where
  get?_eq : ∀ r, σ.get? r = h.get? r
  size_eq : σ.size = h.size
  next_eq : σ.next = h.next

theorem represents_empty : Represents {} {} where
  get?_eq r := by simp [get?, Heap.get?]
  size_eq := rfl
  next_eq := rfl

theorem Represents.contains_eq (hσ : σ.Represents h) (r : Handle) :
    σ.contains r = h.contains r := by
  have hget := hσ.get?_eq r
  rw [Bool.eq_iff_iff, Heap.contains_iff, ← hget, contains, get?, Std.HashMap.contains_iff_mem,
    Std.HashMap.mem_iff_isSome_getElem?, Option.isSome_iff_exists]

/-- The operation does to the store what is done to the heap, yields the same or fails alike; and
when it fails, the store is as it was. -/
inductive Mirrors (σ : Store) (x : Op α) : Except ExecError (α × Heap) → Prop
  | ok {a : α} {τ : Store} {k : Heap} : x σ = (.ok a, τ) → τ.Represents k → Mirrors σ x (.ok (a, k))
  | error {e : ExecError} : x σ = (.error e, σ) → Mirrors σ x (.error e)

/-- What is inserted under the counter is under the handle that the heap gives out next, which was
free. -/
theorem alloc_mirrors (hσ : σ.Represents h) (o : HeapObject) :
    Mirrors σ (alloc o) (.ok (h.alloc o)) := by
  have hfree : σ.next ∉ σ.objects := by
    rw [← Std.HashMap.contains_iff_mem, ← contains, hσ.contains_eq, hσ.next_eq]
    exact h.not_contains_next
  refine .ok (k := (h.alloc o).2) (τ := ⟨σ.objects.insert σ.next o, σ.nextId + 1⟩) ?_
    ⟨fun r => ?_, ?_, ?_⟩
  · rw [← hσ.next_eq]
    rfl
  · show (σ.objects.insert σ.next o)[r]? = _
    rw [Std.HashMap.getElem?_insert, hσ.next_eq]
    rcases eq_or_ne r h.next with rfl | hne
    · rw [if_pos (beq_self_eq_true _)]
      exact (h.get?_alloc_next o).symm
    · rw [if_neg (by simpa using hne.symm), Heap.get?_alloc_of_ne o hne]
      exact hσ.get?_eq r
  · show (σ.objects.insert σ.next o).size = _
    rw [Std.HashMap.size_insert, if_neg hfree, Heap.size_alloc]
    exact congrArg (· + 1) hσ.size_eq
  · have hnext : σ.nextId = h.size + 1 := congrArg Handle.number hσ.next_eq
    show (⟨σ.nextId + 1⟩ : Handle) = ⟨(h.alloc o).2.size + 1⟩
    rw [hnext, Heap.size_alloc]

theorem allocArray_mirrors (hσ : σ.Represents h) (element : TypeRef) (flavor : Flavor)
    (length : Nat) : Mirrors σ (allocArray element flavor length)
      (h.allocArray element flavor length) := by
  unfold allocArray Heap.allocArray
  split
  · exact alloc_mirrors hσ _
  · exact .error rfl

theorem lookup_apply (hσ : σ.Represents h) (r : Handle) : lookup r σ = (h.get r, σ) := by
  show (match σ.get? r with | some o => pure o | none => throw _ : Op HeapObject) σ = _
  rw [hσ.get?_eq, Heap.get]
  rcases h.get? r with - | o <;> rfl

/-- What is overwritten is under a handle that was found, and the counter stays. -/
theorem Represents.insert (hσ : σ.Represents h) (ho : h.get? r = some o) (p : HeapObject) :
    Represents { σ with objects := σ.objects.insert r p } (h.replace r p) := by
  have hmem : r ∈ σ.objects := by
    rw [← Std.HashMap.contains_iff_mem, ← contains, hσ.contains_eq]
    exact Heap.contains_iff.2 ⟨o, ho⟩
  refine ⟨fun q => ?_, ?_, ?_⟩
  · show (σ.objects.insert r p)[q]? = _
    rw [Std.HashMap.getElem?_insert]
    rcases eq_or_ne q r with rfl | hne
    · rw [if_pos (beq_self_eq_true _), Heap.get?_replace_self p ho]
    · rw [if_neg (by simpa using hne.symm), Heap.get?_replace_of_ne p hne]
      exact hσ.get?_eq q
  · show (σ.objects.insert r p).size = _
    rw [Std.HashMap.size_insert, if_pos hmem, Heap.size_replace]
    exact hσ.size_eq
  · show σ.next = ⟨(h.replace r p).size + 1⟩
    rw [Heap.size_replace]
    exact hσ.next_eq

/-- What is wrong is noticed before anything is done. -/
theorem update_apply (hσ : σ.Represents h) (r : Handle)
    (become : HeapObject → Except ExecError HeapObject) :
    update r become σ = match h.get r >>= become with
      | .ok p => (.ok (), { σ with objects := σ.objects.insert r p })
      | .error e => (.error e, σ) := by
  unfold update
  rw [op_bind_apply, lookup_apply hσ]
  rcases h.get r with e | o
  · rfl
  · show (liftM (become o) >>= _ : Op Unit) σ = match become o with | .ok p => _ | .error e => _
    rw [op_bind_apply, op_lift_apply]
    rcases become o with e | p <;> rfl

theorem update_mirrors (hσ : σ.Represents h) (r : Handle)
    (become : HeapObject → Except ExecError HeapObject) :
    Mirrors σ (update r become)
      ((h.get r >>= fun o => (become o).map (h.replace r)).map fun k => ((), k)) := by
  have hrun := update_apply hσ r become
  rcases ho : h.get r with e | o <;> rw [ho] at hrun
  · exact .error hrun
  · have hbind : (Except.ok o >>= become) = become o := rfl
    show Mirrors σ _ (((become o).map (h.replace r)).map fun k => ((), k))
    rcases hp : become o with e | p <;> rw [hbind, hp] at hrun
    · exact .error hrun
    · exact .ok hrun (hσ.insert (Heap.get_eq_ok.1 ho) p)

theorem setField_mirrors (hσ : σ.Represents h) (r : Handle) (name : String) (v : Value) :
    Mirrors σ (setField r name v) ((h.setField r name v).map fun k => ((), k)) := by
  rw [Heap.setField_eq]
  exact update_mirrors hσ r _

theorem setElement_mirrors (hσ : σ.Represents h) (r : Handle) (index : Int) (v : Value) :
    Mirrors σ (setElement r index v) ((h.setElement r index v).map fun k => ((), k)) := by
  rw [Heap.setElement_eq]
  exact update_mirrors hσ r _

theorem setReference_mirrors (hσ : σ.Represents h) (r : Handle) (index : Int)
    (slot : Option Handle) : Mirrors σ (setReference r index slot)
      ((h.setReference r index slot).map fun k => ((), k)) := by
  rw [Heap.setReference_eq]
  exact update_mirrors hσ r _

/-! ### Histories -/

/-- The handle that an operation has given out, if it has succeeded. -/
def given : Except ExecError Handle → List Handle
  | .ok r => [r]
  | .error _ => []

/-- The store has become `τ` by operations, whether they have succeeded or failed; the handles are
those that have been given out, in order. -/
inductive History (σ : Store) : List Handle → Store → Prop
  | start : History σ [] σ
  | alloc {rs : List Handle} {τ : Store} (o : HeapObject) : History σ rs τ →
      History σ (rs ++ given (alloc o τ).1) (alloc o τ).2
  | allocArray {rs : List Handle} {τ : Store} (element : TypeRef) (flavor : Flavor) (length : Nat) :
      History σ rs τ → History σ (rs ++ given (allocArray element flavor length τ).1)
        (allocArray element flavor length τ).2
  | setField {rs : List Handle} {τ : Store} (r : Handle) (name : String) (v : Value) :
      History σ rs τ → History σ rs (setField r name v τ).2
  | setElement {rs : List Handle} {τ : Store} (r : Handle) (index : Int) (v : Value) :
      History σ rs τ → History σ rs (setElement r index v τ).2
  | setReference {rs : List Handle} {τ : Store} (r : Handle) (index : Int) (slot : Option Handle) :
      History σ rs τ → History σ rs (setReference r index slot τ).2

/-- An operation that adds an object to the heap, if it succeeds. -/
theorem Mirrors.added {x : Op Handle} {e : Except ExecError (Handle × Heap)} (hx : Mirrors τ x e)
    (hτ : τ.Represents k) (he : ∀ r l, e = .ok (r, l) → ∃ o, (r, l) = k.alloc o)
    (hist : h.History rs k) :
    ∃ l, (x τ).2.Represents l ∧ h.History (rs ++ given (x τ).1) l := by
  cases hx with
  | @ok r τ' l hrun hl =>
      obtain ⟨o, ho⟩ := he r l rfl
      cases ho
      rw [hrun]
      exact ⟨_, hl, .alloc o hist⟩
  | error hrun =>
      rw [hrun, given, List.append_nil]
      exact ⟨k, hτ, hist⟩

/-- An operation that writes to the heap, if it succeeds. -/
theorem Mirrors.written {x : Op Unit} {e : Except ExecError Heap}
    (hx : Mirrors τ x (e.map fun l => ((), l))) (hτ : τ.Represents k)
    (he : ∀ l, e = .ok l → k.Write l) (hist : h.History rs k) :
    ∃ l, (x τ).2.Represents l ∧ h.History rs l := by
  rcases e with e | l
  · cases hx with
    | error hrun =>
        rw [hrun]
        exact ⟨k, hτ, hist⟩
  · cases hx with
    | ok hrun hl =>
        rw [hrun]
        exact ⟨l, hl, .write hist (he l rfl)⟩

/-- Whatever is done to a store, it goes on to represent a heap, with the same history. -/
theorem History.heap (hist : σ.History rs τ) (hσ : σ.Represents h) :
    ∃ k, τ.Represents k ∧ h.History rs k := by
  induction hist with
  | start => exact ⟨h, hσ, .start⟩
  | alloc o _ ih =>
      obtain ⟨k, hτ, hist⟩ := ih
      exact (alloc_mirrors hτ o).added hτ (fun r l heq => ⟨o, (Except.ok.inj heq).symm⟩) hist
  | allocArray element flavor length _ ih =>
      obtain ⟨k, hτ, hist⟩ := ih
      refine (allocArray_mirrors hτ element flavor length).added hτ (fun r l heq => ?_) hist
      unfold Heap.allocArray at heq
      split at heq <;> cases heq
      exact ⟨_, rfl⟩
  | setField r name v _ ih =>
      obtain ⟨k, hτ, hist⟩ := ih
      exact (setField_mirrors hτ r name v).written hτ (fun _ => .field) hist
  | setElement r index v _ ih =>
      obtain ⟨k, hτ, hist⟩ := ih
      exact (setElement_mirrors hτ r index v).written hτ (fun _ => .element) hist
  | setReference r index slot _ ih =>
      obtain ⟨k, hτ, hist⟩ := ih
      exact (setReference_mirrors hτ r index slot).written hτ (fun _ => .slot) hist

/-- An operation that succeeds on the heap succeeds on the store. -/
theorem Mirrors.of_ok {x : Op α} {a : α} (hx : Mirrors τ x (.ok (a, k))) :
    (x τ).1 = .ok a ∧ (x τ).2.Represents k := by
  cases hx with
  | ok hrun hk =>
      rw [hrun]
      exact ⟨rfl, hk⟩

theorem Mirrors.of_write {x : Op Unit} {e : Except ExecError Heap}
    (hx : Mirrors τ x (e.map fun l => ((), l))) (he : e = .ok k) : (x τ).2.Represents k := by
  subst he
  exact hx.of_ok.2

/-- Whatever is done to a heap can be done to a store that represents it. -/
theorem exists_history (hσ : σ.Represents h) (hist : h.History rs k) :
    ∃ τ, σ.History rs τ ∧ τ.Represents k := by
  induction hist with
  | start => exact ⟨σ, .start, hσ⟩
  | @alloc rs k o _ ih =>
      obtain ⟨τ, hist, hτ⟩ := ih
      obtain ⟨hr, hk⟩ := (alloc_mirrors hτ o).of_ok
      have hist := hist.alloc o
      rw [hr] at hist
      exact ⟨_, hist, hk⟩
  | write _ hwrite ih =>
      obtain ⟨τ, hist, hτ⟩ := ih
      cases hwrite with
      | field hset =>
          exact ⟨_, hist.setField _ _ _, (setField_mirrors hτ _ _ _).of_write hset⟩
      | element hset =>
          exact ⟨_, hist.setElement _ _ _, (setElement_mirrors hτ _ _ _).of_write hset⟩
      | slot hset =>
          exact ⟨_, hist.setReference _ _ _, (setReference_mirrors hτ _ _ _).of_write hset⟩

/-- There is a store for every heap: one to which the objects have been added in their order. -/
theorem exists_represents (h : Heap) : ∃ rs σ, History {} rs σ ∧ σ.Represents h := by
  have hheap : ∃ rs, Heap.History {} rs h := by
    obtain ⟨⟨os⟩⟩ := h
    induction os using List.reverseRecOn with
    | nil => exact ⟨[], .start⟩
    | append_singleton os o ih =>
        obtain ⟨rs, hist⟩ := ih
        have hadded := hist.alloc o
        rw [Heap.alloc, List.push_toArray] at hadded
        exact ⟨_, hadded⟩
  obtain ⟨rs, hist⟩ := hheap
  obtain ⟨σ, hist, hσ⟩ := exists_history represents_empty hist
  exact ⟨rs, σ, hist, hσ⟩

/-- The store `τ` has come from `σ`, by operations that have given out the handles: what is live is
numbered from one, the counter is behind it, and what was live is live still, in its mold. -/
structure Persists (σ : Store) (rs : List Handle) (τ : Store) : Prop where
  live : ∀ r, τ.contains r ↔ 1 ≤ r.number ∧ r.number ≤ τ.size
  nextId : τ.nextId = τ.size + 1
  given_nodup : rs.Nodup
  given_new : ∀ r ∈ rs, ¬ σ.contains r
  live_iff : ∀ r, τ.contains r ↔ σ.contains r ∨ r ∈ rs
  kept : ∀ r o, σ.get? r = some o → ∃ o', τ.get? r = some o' ∧ o'.mold = o.mold

/-- **Stores persist.**  So it is after any operations on a store that represents a heap, in any
order and whether they succeed or fail. -/
theorem History.persists (hist : σ.History rs τ) (hσ : σ.Represents h) : σ.Persists rs τ := by
  obtain ⟨k, hτ, hist⟩ := hist.heap hσ
  refine ⟨fun r => ?_, ?_, hist.nodup, fun r hr => ?_, fun r => ?_, fun r o ho => ?_⟩
  · rw [hτ.contains_eq, hτ.size_eq]
    exact Heap.contains_eq_true
  · rw [hτ.size_eq]
    exact congrArg Handle.number hτ.next_eq
  · rw [hσ.contains_eq]
    exact hist.not_contains hr
  · rw [hσ.contains_eq, hτ.contains_eq]
    exact hist.contains_iff
  · rw [hσ.get?_eq] at ho
    obtain ⟨o', ho', hmold⟩ := hist.retains r o ho
    exact ⟨o', (hτ.get?_eq r).trans ho', hmold⟩

end Store

end CilMachine
