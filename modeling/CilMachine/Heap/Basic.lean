/-
CilMachine/Heap/Basic.lean

The heap.  Objects are numbered from one in the order of their allocation and are never removed, so
a handle stays valid once it is; reads and writes check the shape of the object first and an index
after it.  No operation but allocation changes the number of objects, and a write leaves the shape,
the type, the field names and the length of its object as they are.

Here a handle is a position.  A map from handles to objects, with a counter for the handle that
comes next, comes to the same (`Store.Represents`, `Store.History.heap`).
-/
import CilMachine.Heap.Object

namespace CilMachine

/-- The objects in the order of their allocation. -/
structure Heap where
  objects : Array HeapObject := #[]
deriving DecidableEq, Inhabited

/-- The greatest length of an array. -/
def maxArrayLength : Nat := 0x7fffffff

/-- The greatest length that an error can report. -/
def maxReportedLength : Nat := 0x7fffffffffffffff

/-- The position that a 64-bit index denotes in an array of a length. -/
def checkedIndex (index : Int) (length : Nat) : Except ExecError Nat :=
  if 0 ≤ index ∧ index < length then .ok index.toNat
  else .error (.arrayIndexOutOfBounds index length)

namespace Heap

/-- The number of objects. -/
def size (h : Heap) : Nat := h.objects.size

/-- Whether a handle names an object. -/
def contains (h : Heap) (r : Handle) : Bool :=
  decide (0 < r.number ∧ r.number ≤ h.objects.size)

/-- The object that a handle names. -/
def get? (h : Heap) (r : Handle) : Option HeapObject :=
  if r.number = 0 then none else h.objects[r.number - 1]?

/-- All objects with their handles, in the order of allocation. -/
def toList (h : Heap) : List (Handle × HeapObject) :=
  h.objects.toList.zipIdx.map fun (o, i) => (⟨i + 1⟩, o)

/-- Puts an object in the place of the one that a handle names, if it names one. -/
def replace (h : Heap) (r : Handle) (o : HeapObject) : Heap :=
  if r.number = 0 then h else ⟨h.objects.setIfInBounds (r.number - 1) o⟩

/-! ### Allocation -/

/-- The handle that the next object gets. -/
def next (h : Heap) : Handle := ⟨h.objects.size + 1⟩

/-- Adds an object under the next handle. -/
def alloc (h : Heap) (o : HeapObject) : Handle × Heap :=
  (h.next, ⟨h.objects.push o⟩)

/-- Adds a record. -/
def allocRecord (h : Heap) (type : TypeRef) (fields : Fields) : Handle × Heap :=
  h.alloc (.record type fields)

/-- Adds a record whose only field is a text. -/
def allocString (h : Heap) (type : TypeRef) (s : String) : Handle × Heap :=
  h.allocRecord type [(textField, .text s)]

/-- Fresh storage for elements of a flavor: values at their default, or empty slots. -/
def freshStorage (flavor : Flavor) (length : Nat) : Storage :=
  if flavor.isValueType then .values (Array.replicate length (.default flavor))
  else .references (Array.replicate length none)

/-- Adds an array whose elements have a type of the given flavor. -/
def allocArray (h : Heap) (element : TypeRef) (flavor : Flavor) (length : Nat) :
    Except ExecError (Handle × Heap) :=
  if length ≤ maxArrayLength then .ok (h.alloc (.array element (freshStorage flavor length)))
  else .error (.arrayTooLarge (min length maxReportedLength : Nat))

/-! ### What allocation and replacement do to the view -/

theorem contains_iff {h : Heap} {r : Handle} : h.contains r = true ↔ ∃ o, h.get? r = some o := by
  simp only [contains, get?, decide_eq_true_eq]
  split
  · simp; omega
  · constructor
    · intro hr
      exact ⟨_, Array.getElem?_eq_getElem (by omega)⟩
    · rintro ⟨o, ho⟩
      obtain ⟨hlt, -⟩ := Array.getElem?_eq_some_iff.1 ho
      omega

theorem get?_next (h : Heap) : h.get? h.next = none := by
  simp [get?, next]

theorem get?_alloc_next (h : Heap) (o : HeapObject) : (h.alloc o).2.get? h.next = some o := by
  simp [get?, next, alloc]

theorem get?_alloc_of_some {h : Heap} {r : Handle} {o : HeapObject} (p : HeapObject)
    (ho : h.get? r = some o) : (h.alloc p).2.get? r = some o := by
  simp only [get?, alloc] at ho ⊢
  split at ho
  · cases ho
  · next hr =>
    rw [if_neg hr, Array.getElem?_push]
    obtain ⟨hlt, -⟩ := Array.getElem?_eq_some_iff.1 ho
    rw [if_neg (by omega)]
    exact ho

theorem size_alloc (h : Heap) (o : HeapObject) : (h.alloc o).2.size = h.size + 1 := by
  simp [alloc, size]

theorem size_replace (h : Heap) (r : Handle) (o : HeapObject) :
    (h.replace r o).size = h.size := by
  simp only [replace, size]
  split <;> simp

theorem get?_replace_self {h : Heap} {r : Handle} {o : HeapObject} (p : HeapObject)
    (ho : h.get? r = some o) : (h.replace r p).get? r = some p := by
  simp only [get?, replace] at ho ⊢
  split at ho
  · cases ho
  · next hr =>
    obtain ⟨hlt, -⟩ := Array.getElem?_eq_some_iff.1 ho
    simp [hr, hlt]

theorem get?_replace_of_ne {h : Heap} {r q : Handle} (p : HeapObject) (hne : q ≠ r) :
    (h.replace r p).get? q = h.get? q := by
  have hn : q.number ≠ r.number := fun e => hne (by cases q; cases r; simp_all)
  simp only [get?, replace]
  split
  · rfl
  · split
    · rfl
    · rw [Array.getElem?_setIfInBounds, if_neg (by omega)]

/-! ### Reads -/

/-- The object that a handle names, or the error that there is none. -/
def get (h : Heap) (r : Handle) : Except ExecError HeapObject :=
  match h.get? r with
  | some o => .ok o
  | none => .error (.unresolved (.heapObject r))

/-- The type and the fields of a record. -/
def getRecord (h : Heap) (r : Handle) : Except ExecError (TypeRef × Fields) := do
  match ← h.get r with
  | .record type fields => .ok (type, fields)
  | o => .error (o.mismatch .record)

/-- The type of a record. -/
def typeOf (h : Heap) (r : Handle) : Except ExecError TypeRef :=
  return (← h.getRecord r).1

/-- The value of a field of a record. -/
def getField (h : Heap) (r : Handle) (name : String) : Except ExecError Value := do
  let (type, fields) ← h.getRecord r
  match fields.get? name with
  | some v => .ok v
  | none => .error (.unresolved (.instanceField type name))

/-- The text of a string object. -/
def getString (h : Heap) (r : Handle) : Except ExecError String := do
  match ← h.getField r textField with
  | .text s => .ok s
  | v => .error (.heapTypeMismatch .string (.value v.kind))

/-- The element type and the storage of an array. -/
def getArray (h : Heap) (r : Handle) : Except ExecError (TypeRef × Storage) := do
  match ← h.get r with
  | .array element storage => .ok (element, storage)
  | o => .error (o.mismatch .array)

/-- The element type of an array. -/
def elementType (h : Heap) (r : Handle) : Except ExecError TypeRef :=
  return (← h.getArray r).1

/-- The length of an array. -/
def arrayLength (h : Heap) (r : Handle) : Except ExecError Nat :=
  return (← h.getArray r).2.size

/-- The element type and the items of a value array. -/
def getValues (h : Heap) (r : Handle) : Except ExecError (TypeRef × Array Value) := do
  match ← h.get r with
  | .array element (.values items) => .ok (element, items)
  | o => .error (o.mismatch .valueArray)

/-- The element type and the slots of a reference array. -/
def getSlots (h : Heap) (r : Handle) : Except ExecError (TypeRef × Array (Option Handle)) := do
  match ← h.get r with
  | .array element (.references slots) => .ok (element, slots)
  | o => .error (o.mismatch .referenceArray)

/-- An element of a value array. -/
def getElement (h : Heap) (r : Handle) (index : Int) : Except ExecError Value := do
  let (_, items) ← h.getValues r
  let i ← checkedIndex index items.size
  return items.getD i .null

/-- A slot of a reference array. -/
def getReference (h : Heap) (r : Handle) (index : Int) : Except ExecError (Option Handle) := do
  let (_, slots) ← h.getSlots r
  let i ← checkedIndex index slots.size
  return slots.getD i none

/-! ### Writes -/

/-- Gives a field of a record a value.  No field is added. -/
def setField (h : Heap) (r : Handle) (name : String) (v : Value) : Except ExecError Heap := do
  let (type, fields) ← h.getRecord r
  if (fields.get? name).isSome then
    return h.replace r (.record type (fields.put name v))
  else throw (.unresolved (.instanceField type name))

/-- Gives an element of a value array a value. -/
def setElement (h : Heap) (r : Handle) (index : Int) (v : Value) : Except ExecError Heap := do
  let (element, items) ← h.getValues r
  let i ← checkedIndex index items.size
  return h.replace r (.array element (.values (items.setIfInBounds i v)))

/-- Fills or clears a slot of a reference array. -/
def setReference (h : Heap) (r : Handle) (index : Int) (slot : Option Handle) :
    Except ExecError Heap := do
  let (element, slots) ← h.getSlots r
  let i ← checkedIndex index slots.size
  return h.replace r (.array element (.references (slots.setIfInBounds i slot)))

end Heap

end CilMachine
