/-
CilMachine/Proofs/Handles.lean

Values, frames and objects up to their handles.  Given a relation between handles, two values are
related if both are handles that are, or if they are one and the same value without a handle; frames
and objects are related part by part.

Apart from reading the heap, the machine can only tell a handle from another value and one handle
from another.  So everything that is computed from related values is the same on both sides
(`Rel.arithmetic_eq`, `Rel.compare_eq` and so on), provided that the relation is one to one.
-/
import CilMachine.Proofs.Outcome
import Mathlib.Data.Option.Defs
import Mathlib.Logic.Relator

namespace CilMachine

variable {H K : Handle → Handle → Prop}

/-! ### Lists that are related member by member -/

section Forall₂

variable {α β : Type} {R : α → β → Prop} {xs : List α} {ys : List β}

theorem forall₂_getElem? (h : List.Forall₂ R xs ys) (i : Nat) : Option.Rel R xs[i]? ys[i]? := by
  induction h generalizing i with
  | nil => exact .none
  | cons hab _ ih =>
      rcases i with - | i
      · exact .some hab
      · exact ih i

theorem forall₂_set (h : List.Forall₂ R xs ys) {a : α} {b : β} (hab : R a b) (i : Nat) :
    List.Forall₂ R (xs.set i a) (ys.set i b) := by
  induction h generalizing i with
  | nil => exact .nil
  | cons hcd hrest ih =>
      rcases i with - | i
      · exact .cons hab hrest
      · exact .cons hcd (ih i)

theorem forall₂_getD {xs : Array α} {ys : Array β} (h : List.Forall₂ R xs.toList ys.toList)
    {a : α} {b : β} (hab : R a b) (i : Nat) : R (xs.getD i a) (ys.getD i b) := by
  have hi := forall₂_getElem? h i
  rw [Array.getElem?_toList, Array.getElem?_toList] at hi
  rw [Array.getD_eq_getD_getElem?, Array.getD_eq_getD_getElem?]
  generalize xs[i]? = x, ys[i]? = y at hi
  cases hi with
  | none => exact hab
  | some hxy => exact hxy

theorem forall₂_exists_of_mem (h : List.Forall₂ R xs ys) {a : α} (ha : a ∈ xs) :
    ∃ b ∈ ys, R a b := by
  obtain ⟨i, hi, rfl⟩ := List.getElem_of_mem ha
  have hb := (List.forall₂_iff_get.1 h).2 i hi (h.length_eq ▸ hi)
  exact ⟨_, List.get_mem _ _, hb⟩

end Forall₂

/-! ### Values -/

/-- The values are related handles, or the same value, which is no handle. -/
inductive Value.Rel (H : Handle → Handle → Prop) : Value → Value → Prop
  | object {r q} : H r q → Rel H (.object r) (.object q)
  | same {v} : v.handle? = none → Rel H v v

namespace Value

theorem handle?_default (f : Flavor) : (default f).handle? = none := by
  cases f <;> rfl

theorem handle?_of_arithmetic {op : Arithmetic} {v u w : Value}
    (h : v.arithmetic op u = .ok w) : w.handle? = none := by
  unfold arithmetic at h
  split at h
  · unfold Arithmetic.apply at h
    split at h
    case h_9 | h_10 =>
      -- integer division
      split at h <;> cases h
      rfl
    all_goals
      cases h
      rfl
  · cases h

theorem handle?_of_compare {op : Comparison} {v u w : Value} (h : v.compare op u = .ok w) :
    w.handle? = none := by
  unfold compare at h
  split at h
  · cases h
    rfl
  · split at h <;> cases h
    rfl

theorem handle?_of_convert {op : Conversion} {v w : Value} (h : v.convert op = .ok w) :
    w.handle? = none := by
  unfold convert at h
  split at h
  · cases h
    cases op <;> rfl
  · cases h
    cases op <;> rfl
  · split at h <;> cases h
    cases op <;> rfl

theorem widen?_object_left (r : Handle) (v : Value) : widen? (.object r) v = none := by
  cases v <;> rfl

theorem widen?_object_right (v : Value) (r : Handle) : widen? v (.object r) = none := by
  cases v <;> rfl

namespace Rel

variable {v u v' u' : Value}

theorem mono (h : Rel H v u) (hHK : ∀ r q, H r q → K r q) : Rel K v u := by
  cases h with
  | object hr => exact .object (hHK _ _ hr)
  | same hv => exact .same hv

theorem kind_eq (h : Rel H v u) : u.kind = v.kind := by
  cases h <;> rfl

theorem fits_eq (h : Rel H v u) (f : Flavor) : u.fits f = v.fits f := by
  cases h <;> rfl

theorem isNull_eq (h : Rel H v u) : u.isNull = v.isNull := by
  cases h <;> rfl

theorem int32?_eq (h : Rel H v u) : u.int32? = v.int32? := by
  cases h <;> rfl

theorem integer?_eq (h : Rel H v u) : u.integer? = v.integer? := by
  cases h <;> rfl

theorem condition?_eq (h : Rel H v u) : u.condition? = v.condition? := by
  cases h <;> rfl

theorem convert_eq (h : Rel H v u) (op : Conversion) : u.convert op = v.convert op := by
  cases h <;> rfl

theorem widen?_eq (hv : Rel H v v') (hu : Rel H u u') : widen? v' u' = widen? v u := by
  cases hv with
  | object _ => rw [widen?_object_left, widen?_object_left]
  | same _ =>
      cases hu with
      | object _ => rw [widen?_object_right, widen?_object_right]
      | same _ => rfl

theorem arithmetic_eq (hv : Rel H v v') (hu : Rel H u u') (op : Arithmetic) :
    v'.arithmetic op u' = v.arithmetic op u := by
  rw [arithmetic, arithmetic, hv.widen?_eq hu, hv.kind_eq, hu.kind_eq]

theorem sameReference?_eq (hH : Relator.BiUnique H) (hv : Rel H v v') (hu : Rel H u u') :
    sameReference? v' u' = sameReference? v u := by
  cases hv with
  | @object r q hr =>
      cases hu with
      | @object r' q' hr' =>
          -- the one place where two handles are compared
          have hiff : q = q' ↔ r = r' :=
            ⟨fun e => hH.1 hr (e ▸ hr'), fun e => hH.2 hr (e ▸ hr')⟩
          simp [sameReference?, hiff]
      | same hu =>
          cases u with
          | object => cases hu
          | _ => rfl
  | same hv =>
      cases hu with
      | object _ =>
          cases v with
          | object => cases hv
          | _ => rfl
      | same _ => rfl

theorem compare_eq (hH : Relator.BiUnique H) (hv : Rel H v v') (hu : Rel H u u')
    (op : Comparison) : v'.compare op u' = v.compare op u := by
  unfold compare
  rw [hv.widen?_eq hu, hv.sameReference?_eq hH hu, hv.kind_eq, hu.kind_eq]

end Rel

end Value

/-- Lists of values that are related one by one. -/
abbrev ValuesRel (H : Handle → Handle → Prop) : List Value → List Value → Prop :=
  List.Forall₂ (Value.Rel H)

theorem ValuesRel.mono {vs us : List Value} (h : ValuesRel H vs us)
    (hHK : ∀ r q, H r q → K r q) : ValuesRel K vs us :=
  h.imp fun _ _ hv => hv.mono hHK

/-! ### Frames -/

/-- The slots have one flavor and related contents. -/
structure Slot.Rel (H : Handle → Handle → Prop) (a b : Slot) : Prop where
  flavor : b.flavor = a.flavor
  value : Value.Rel H a.value b.value

/-- The frames have related arguments, locals and operands. -/
structure Frame.Rel (H : Handle → Handle → Prop) (f g : Frame) : Prop where
  arguments : ValuesRel H f.arguments g.arguments
  locals : List.Forall₂ (Slot.Rel H) f.locals g.locals
  stack : ValuesRel H f.stack g.stack

theorem Frame.Rel.mono {f g : Frame} (h : f.Rel H g) (hHK : ∀ r q, H r q → K r q) : f.Rel K g :=
  ⟨h.arguments.mono hHK, h.locals.imp fun _ _ hs => ⟨hs.flavor, hs.value.mono hHK⟩,
    h.stack.mono hHK⟩

theorem Locals.ofFlavors_rel (flavors : List Flavor) :
    List.Forall₂ (Slot.Rel H) (ofFlavors flavors) (ofFlavors flavors) := by
  unfold ofFlavors
  induction flavors with
  | nil => exact .nil
  | cons f rest ih => exact .cons ⟨rfl, .same (Value.handle?_default f)⟩ ih

theorem Locals.get_alike {ls ls' : Locals} (h : List.Forall₂ (Slot.Rel H) ls ls') (index : Nat) :
    AlikeOrdinary (Value.Rel H) (ls.get index) (ls'.get index) := by
  unfold get
  have hslot := forall₂_getElem? h index
  generalize ls[index]? = a, ls'[index]? = b at hslot
  cases hslot with
  | none =>
      rw [h.length_eq]
      exact .error rfl
  | some hab => exact .ok hab.value

theorem Locals.set_alike {ls ls' : Locals} {v u : Value} (h : List.Forall₂ (Slot.Rel H) ls ls')
    (index : Nat) (hv : Value.Rel H v u) :
    AlikeOrdinary (List.Forall₂ (Slot.Rel H)) (ls.set index v) (ls'.set index u) := by
  unfold set
  have hslot := forall₂_getElem? h index
  generalize ls[index]? = a, ls'[index]? = b at hslot
  cases hslot with
  | none =>
      rw [h.length_eq]
      exact .error rfl
  | @some a b hab =>
      have hset : Slot.Rel H ⟨a.flavor, v⟩ ⟨a.flavor, u⟩ := ⟨rfl, hv⟩
      simp only [hab.flavor, hv.fits_eq, hv.kind_eq]
      split
      · exact .ok (forall₂_set h hset index)
      · exact .error rfl

theorem Frame.argument_alike {f g : Frame} (h : f.Rel H g) (index : Nat) :
    AlikeOrdinary (Value.Rel H) (f.argument index) (g.argument index) := by
  unfold argument
  have harg := forall₂_getElem? h.arguments index
  generalize f.arguments[index]? = v, g.arguments[index]? = u at harg
  cases harg with
  | none =>
      rw [h.arguments.length_eq]
      exact .error rfl
  | some hv => exact .ok hv

/-- Fresh frames of one method are related if their arguments are, whoever the callers. -/
theorem Frame.ofMethod_rel {args args' : List Value} (h : ValuesRel H args args')
    (caller caller' : Option Method) (m : Method) :
    (ofMethod caller m args).Rel H (ofMethod caller' m args') :=
  ⟨h, Locals.ofFlavors_rel m.locals, .nil⟩

/-- Frames that are related member by member stay so when values are delivered to the top frames. -/
theorem CallStack.forall₂_deliver {R : Frame → Frame → Prop} {c d : CallStack} {v u : Value}
    (h : List.Forall₂ R c.frames d.frames) (hpush : ∀ f g, R f g → R (f.push v) (g.push u)) :
    List.Forall₂ R (c.deliver v).frames (d.deliver u).frames := by
  obtain ⟨F, _, _⟩ := c
  obtain ⟨G, _, _⟩ := d
  cases h with
  | nil => exact .nil
  | cons hfg hrest => exact .cons (hpush _ _ hfg) hrest

/-! ### Objects -/

/-- The object has the handle in a field or in a slot. -/
def HeapObject.Holds : HeapObject → Handle → Prop
  | record _ fields, r => ∃ name, (name, Value.object r) ∈ fields
  | array _ (.references slots), r => some r ∈ slots
  | array _ (.values _), _ => False

/-- Fields of the same names in the same order, with related contents. -/
abbrev FieldsRel (H : Handle → Handle → Prop) : Fields → Fields → Prop :=
  List.Forall₂ fun p q => q.1 = p.1 ∧ Value.Rel H p.2 q.2

/-- The objects have the same type and related contents.  The items of value arrays are no concern
of the relation between handles, so they need only be the same up to handles. -/
inductive HeapObject.Rel (H : Handle → Handle → Prop) : HeapObject → HeapObject → Prop
  | record (type : TypeRef) {fields fields' : Fields} :
      FieldsRel H fields fields' → Rel H (.record type fields) (.record type fields')
  | values (element : TypeRef) {items items' : Array Value} :
      ValuesRel (fun _ _ => True) items.toList items'.toList →
        Rel H (.array element (.values items)) (.array element (.values items'))
  | references (element : TypeRef) {slots slots' : Array (Option Handle)} :
      List.Forall₂ (Option.Rel H) slots.toList slots'.toList →
        Rel H (.array element (.references slots)) (.array element (.references slots'))

theorem FieldsRel.get? {fields fields' : Fields} (h : FieldsRel H fields fields')
    (name : String) : Option.Rel (Value.Rel H) (fields.get? name) (fields'.get? name) := by
  induction h with
  | nil => exact .none
  | cons hp _ ih =>
      obtain ⟨hname, hv⟩ := hp
      rw [Named.get?_cons, Named.get?_cons, hname]
      split
      · exact .some hv
      · exact ih

theorem FieldsRel.put {fields fields' : Fields} {v u : Value} (h : FieldsRel H fields fields')
    (name : String) (hv : Value.Rel H v u) :
    FieldsRel H (fields.put name v) (fields'.put name u) := by
  induction h with
  | nil => exact .cons ⟨rfl, hv⟩ .nil
  | @cons p q rest rest' hp hrest ih =>
      obtain ⟨name₁, v₁⟩ := p
      obtain ⟨name₂, u₁⟩ := q
      obtain ⟨rfl, hold⟩ := hp
      rw [Named.put, Named.put]
      split
      · exact .cons ⟨rfl, hv⟩ hrest
      · exact .cons ⟨rfl, hold⟩ ih

/-! ### Events -/

/-- The events tell of the same, up to the handles in them. -/
inductive Event.Rel (H : Handle → Handle → Prop) : Event → Event → Prop
  | executing (method : String) (offset : Nat) (mnemonic : String) (stackDepth : Nat) :
      Rel H (.executing method offset mnemonic stackDepth)
        (.executing method offset mnemonic stackDepth)
  | called (method : String) (depth : Nat) : Rel H (.called method depth) (.called method depth)
  | returned (method : String) {v u : Option Value} : Option.Rel (Value.Rel H) v u →
      Rel H (.returned method v) (.returned method u)
  | allocated (type : String) {r q : Handle} : H r q →
      Rel H (.allocated type r) (.allocated type q)
  | stringLoaded (s : String) {r q : Handle} : H r q →
      Rel H (.stringLoaded s r) (.stringLoaded s q)
  | arrayAllocated (element : TypeRef) (length : Nat) {r q : Handle} : H r q →
      Rel H (.arrayAllocated element length r) (.arrayAllocated element length q)

/-! ### Values, frames and objects by themselves

Anything is related to itself if the handles in it are; with equality as the relation between
handles, to be related is to be the same. -/

/-- The frame has the handle among its arguments, its locals or its operands. -/
def Frame.Holds (f : Frame) (r : Handle) : Prop :=
  .object r ∈ f.arguments ∨ (∃ slot ∈ f.locals, slot.value = .object r) ∨ .object r ∈ f.stack

theorem Value.rel_self {v : Value} (h : ∀ r, v = .object r → H r r) : Value.Rel H v v := by
  cases v with
  | object r => exact .object (h r rfl)
  | _ => exact .same rfl

theorem valuesRel_self {vs : List Value} (h : ∀ r, .object r ∈ vs → H r r) : ValuesRel H vs vs :=
  List.forall₂_same.2 fun _ hv => Value.rel_self fun r hr => h r (hr ▸ hv)

theorem Frame.rel_self {f : Frame} (h : ∀ r, f.Holds r → H r r) : f.Rel H f :=
  ⟨valuesRel_self fun r hr => h r (.inl hr),
    List.forall₂_same.2 fun slot hslot =>
      ⟨rfl, Value.rel_self fun r hr => h r (.inr (.inl ⟨slot, hslot, hr⟩))⟩,
    valuesRel_self fun r hr => h r (.inr (.inr hr))⟩

theorem HeapObject.rel_self {o : HeapObject} (h : ∀ r, o.Holds r → H r r) : o.Rel H o := by
  rcases o with ⟨type, fields⟩ | ⟨element, items | slots⟩
  · refine .record type (List.forall₂_same.2 fun p hp => ⟨rfl, Value.rel_self fun r hr => ?_⟩)
    obtain ⟨name, v⟩ := p
    exact h r ⟨name, hr ▸ hp⟩
  · exact .values element (valuesRel_self fun _ _ => trivial)
  · refine .references element (List.forall₂_same.2 fun a ha => ?_)
    cases a with
    | none => exact .none
    | some r => exact .some (h r (Array.mem_toList_iff.1 ha))

theorem Value.rel_eq (v : Value) : Value.Rel Eq v v := rel_self fun _ _ => rfl

theorem valuesRel_eq (vs : List Value) : ValuesRel Eq vs vs := valuesRel_self fun _ _ => rfl

theorem Frame.rel_eq (f : Frame) : f.Rel Eq f := rel_self fun _ _ => rfl

theorem Frame.option_rel_eq (f : Option Frame) : Option.Rel (Frame.Rel Eq) f f := by
  rcases f with - | f
  · exact .none
  · exact .some f.rel_eq

theorem HeapObject.rel_eq (o : HeapObject) : o.Rel Eq o := rel_self fun _ _ => rfl

theorem Value.Rel.eq {v u : Value} (h : Value.Rel Eq v u) : v = u := by
  cases h with
  | object hr => rw [hr]
  | same _ => rfl

theorem ValuesRel.eq {vs us : List Value} (h : ValuesRel Eq vs us) : vs = us := by
  induction h with
  | nil => rfl
  | cons hv _ ih => rw [hv.eq, ih]

theorem Value.eq_of_option_rel {v u : Option Value} (h : Option.Rel (Value.Rel Eq) v u) :
    v = u := by
  cases h with
  | none => rfl
  | some hv => rw [hv.eq]

/-- Results that are related by equality of handles are the same. -/
theorem alike_rel_eq {ε : Type} {P : ε → Prop} {r q : Except ε (Option Value)}
    (h : Alike P (Option.Rel (Value.Rel Eq)) r q) : r = q := by
  cases h with
  | error _ => rfl
  | ok hv => rw [Value.eq_of_option_rel hv]

theorem Event.Rel.eq {e e' : Event} (h : Event.Rel Eq e e') : e = e' := by
  cases h with
  | executing => rfl
  | called => rfl
  | returned method hv => rw [Value.eq_of_option_rel hv]
  | allocated type hr => rw [hr]
  | stringLoaded s hr => rw [hr]
  | arrayAllocated element length hr => rw [hr]

/-! ### Handles of related things -/

theorem Value.Rel.of_object {r : Handle} {u : Value} (h : Value.Rel H (.object r) u) :
    ∃ q, H r q := by
  cases h with
  | object hr => exact ⟨_, hr⟩
  | same hv => cases hv

theorem ValuesRel.of_mem {vs us : List Value} (h : ValuesRel H vs us) {r : Handle}
    (hr : .object r ∈ vs) : ∃ q, H r q := by
  obtain ⟨u, -, hu⟩ := forall₂_exists_of_mem h hr
  exact hu.of_object

theorem Frame.Rel.of_holds {f g : Frame} (h : f.Rel H g) {r : Handle} (hr : f.Holds r) :
    ∃ q, H r q := by
  rcases hr with hr | ⟨slot, hslot, hr⟩ | hr
  · exact h.arguments.of_mem hr
  · obtain ⟨slot', -, hrel⟩ := forall₂_exists_of_mem h.locals hslot
    have hvalue := hrel.value
    rw [hr] at hvalue
    exact hvalue.of_object
  · exact h.stack.of_mem hr

end CilMachine
