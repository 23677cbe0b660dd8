/-
CilMachine/Proofs/Changes.lean

What code does to the heap.  Objects are added *fresh*: a record has every field at its default, a
string has its text, and the elements of an array are at their default.  Fields, elements and slots
that are there are given other values; what a field is given is the value of a declared field of the
same name, or the text of a string (`Heap.Stores`).  That is all: a `Heap.Change` is one such
addition or one such write.

A property of heaps that every change preserves is an invariant of the machine, as far as native
routines preserve it too.
-/
import CilMachine.Catalog.Hierarchy
import CilMachine.Proofs.Handles

namespace CilMachine

/-! ### Fresh objects -/

/-- A record with every field of a layout at its default. -/
def HeapObject.blank (type : TypeRef) (layout : Named Flavor) : HeapObject :=
  .record type (layout.map fun (name, flavor) => (name, Value.default flavor))

/-- The object is as it is when it has just been added. -/
inductive HeapObject.Fresh (c : Catalog) : HeapObject → Prop
  | record {type : TypeRef} {layout : Named Flavor} : c.instanceFields type = .ok layout →
      Fresh c (.blank type layout)
  | string (s : String) : Fresh c (.record .string [(textField, .text s)])
  | array {element : TypeRef} {type : TypeDef} (length : Nat) : c.resolveType element = .ok type →
      Fresh c (.array type.ref (Heap.freshStorage type.flavor length))

/-- A fresh object holds no handles. -/
theorem HeapObject.Fresh.not_holds {c : Catalog} {o : HeapObject} (h : o.Fresh c) (r : Handle) :
    ¬ o.Holds r := by
  intro hr
  cases h with
  | @record type layout _ =>
      obtain ⟨name, hmem⟩ := hr
      obtain ⟨⟨_, flavor⟩, -, heq⟩ := List.mem_map.1 hmem
      have hdefault : Value.default flavor = .object r := congrArg Prod.snd heq
      have hnone := Value.handle?_default flavor
      rw [hdefault] at hnone
      cases hnone
  | string s =>
      obtain ⟨name, hmem⟩ := hr
      simp at hmem
  | @array element type length _ =>
      unfold Heap.freshStorage at hr
      split at hr
      · exact hr
      · have hslot := Array.eq_of_mem_replicate hr
        cases hslot

/-- A type that has been found has the name under which it was looked for. -/
theorem Catalog.ref_of_resolveType {c : Catalog} {t : TypeRef} {d : TypeDef}
    (h : c.resolveType t = .ok d) : d.ref = t := by
  unfold resolveType get? at h
  split at h
  · rename_i hfind
    cases h
    simpa using List.find?_some hfind
  · cases h

namespace Heap

variable {h k : Heap} {r : Handle}

/-! ### Reading and writing -/

theorem get_eq_ok {o : HeapObject} : h.get r = .ok o ↔ h.get? r = some o := by
  unfold get
  rcases h.get? r with - | o' <;> simp

theorem getRecord_eq_ok {type : TypeRef} {fields : Fields} :
    h.getRecord r = .ok (type, fields) ↔ h.get? r = some (.record type fields) := by
  constructor
  · intro hrecord
    obtain ⟨o, ho, hfields⟩ := bind_eq_ok hrecord
    rcases o with ⟨type', fields'⟩ | ⟨element, storage⟩ <;> cases hfields
    exact get_eq_ok.1 ho
  · intro hget
    rw [getRecord, get_eq_ok.2 hget]
    rfl

theorem getValues_eq_ok {element : TypeRef} {items : Array Value} :
    h.getValues r = .ok (element, items) ↔ h.get? r = some (.array element (.values items)) := by
  constructor
  · intro hvalues
    obtain ⟨o, ho, hitems⟩ := bind_eq_ok hvalues
    rcases o with ⟨type, fields⟩ | ⟨element', items' | slots⟩ <;> cases hitems
    exact get_eq_ok.1 ho
  · intro hget
    rw [getValues, get_eq_ok.2 hget]
    rfl

theorem getSlots_eq_ok {element : TypeRef} {slots : Array (Option Handle)} :
    h.getSlots r = .ok (element, slots) ↔ h.get? r = some (.array element (.references slots)) := by
  constructor
  · intro hslots
    obtain ⟨o, ho, hslots⟩ := bind_eq_ok hslots
    rcases o with ⟨type, fields⟩ | ⟨element', items | slots'⟩ <;> cases hslots
    exact get_eq_ok.1 ho
  · intro hget
    rw [getSlots, get_eq_ok.2 hget]
    rfl

theorem getField_eq_ok {name : String} {v : Value} :
    h.getField r name = .ok v ↔
      ∃ type fields, h.get? r = some (.record type fields) ∧ fields.get? name = some v := by
  constructor
  · intro hfield
    obtain ⟨⟨type, fields⟩, hrecord, hv⟩ := bind_eq_ok hfield
    rcases hname : fields.get? name with - | v' <;> simp only [hname] at hv <;> cases hv
    exact ⟨type, fields, getRecord_eq_ok.1 hrecord, hname⟩
  · rintro ⟨type, fields, hget, hname⟩
    rw [getField, getRecord_eq_ok.2 hget]
    simp only [bind, Except.bind, hname]

theorem setField_eq_ok {name : String} {v : Value} :
    h.setField r name v = .ok k ↔
      ∃ type fields, h.get? r = some (.record type fields) ∧ (fields.get? name).isSome ∧
        k = h.replace r (.record type (fields.put name v)) := by
  constructor
  · intro hset
    obtain ⟨⟨type, fields⟩, hrecord, hset⟩ := bind_eq_ok hset
    dsimp only at hset
    split at hset <;> cases hset
    exact ⟨type, fields, getRecord_eq_ok.1 hrecord, ‹_›, rfl⟩
  · rintro ⟨type, fields, hget, hname, rfl⟩
    rw [setField, getRecord_eq_ok.2 hget]
    exact if_pos hname

theorem setElement_eq_ok {index : Int} {v : Value} :
    h.setElement r index v = .ok k ↔
      ∃ element items i, h.get? r = some (.array element (.values items)) ∧
        checkedIndex index items.size = .ok i ∧
        k = h.replace r (.array element (.values (items.setIfInBounds i v))) := by
  constructor
  · intro hset
    obtain ⟨⟨element, items⟩, hvalues, hset⟩ := bind_eq_ok hset
    obtain ⟨i, hi, hset⟩ := bind_eq_ok hset
    cases hset
    exact ⟨element, items, i, getValues_eq_ok.1 hvalues, hi, rfl⟩
  · rintro ⟨element, items, i, hget, hi, rfl⟩
    rw [setElement, getValues_eq_ok.2 hget]
    simp only [bind, Except.bind, hi]
    rfl

theorem setReference_eq_ok {index : Int} {slot : Option Handle} :
    h.setReference r index slot = .ok k ↔
      ∃ element slots i, h.get? r = some (.array element (.references slots)) ∧
        checkedIndex index slots.size = .ok i ∧
        k = h.replace r (.array element (.references (slots.setIfInBounds i slot))) := by
  constructor
  · intro hset
    obtain ⟨⟨element, slots⟩, hslots, hset⟩ := bind_eq_ok hset
    obtain ⟨i, hi, hset⟩ := bind_eq_ok hset
    cases hset
    exact ⟨element, slots, i, getSlots_eq_ok.1 hslots, hi, rfl⟩
  · rintro ⟨element, slots, i, hget, hi, rfl⟩
    rw [setReference, getSlots_eq_ok.2 hget]
    simp only [bind, Except.bind, hi]
    rfl

/-! ### Changes -/

/-- A value that is stored in a field of the name: it fits a declared field of that name, or the
field is that of texts and the value is a text or what an object has there. -/
inductive Stores (c : Catalog) (h : Heap) (name : String) (v : Value) : Prop
  | declared {f : FieldRef} {field : Field} {flavor : Flavor} : c.resolveField f = .ok field →
      c.flavorOf field.type = .ok flavor → v.fits flavor → name = f.name → Stores c h name v
  | copied {r : Handle} : h.getField r textField = .ok v → name = textField → Stores c h name v
  | text (s : String) : v = .text s → name = textField → Stores c h name v

/-- The heap `k` is `h` after one object has been added or written. -/
inductive Change (c : Catalog) (h : Heap) : Heap → Prop
  | alloc {o : HeapObject} : o.Fresh c → Change c h (h.alloc o).2
  | setField {r : Handle} {type : TypeRef} {fields : Fields} {name : String} {v : Value} :
      h.get? r = some (.record type fields) → (fields.get? name).isSome → h.Stores c name v →
      Change c h (h.replace r (.record type (fields.put name v)))
  | setElement {r : Handle} {element : TypeRef} {items : Array Value} {i : Nat} (n : Int32) :
      h.get? r = some (.array element (.values items)) → i < items.size →
      Change c h (h.replace r (.array element (.values (items.setIfInBounds i (.int32 n)))))
  | setReference {r : Handle} {element : TypeRef} {slots : Array (Option Handle)} {i : Nat}
      (slot : Option Handle) :
      h.get? r = some (.array element (.references slots)) → i < slots.size →
      Change c h (h.replace r (.array element (.references (slots.setIfInBounds i slot))))

end Heap

end CilMachine
