/-
CilMachine/Proofs/Texts.lean

Where texts get to.  A text is the payload of a string object, and no flavor admits it.  So it
enters no local slot, because a slot is only given what fits it, and no element, because those are
only given integers.  A field is given a value that fits a declared field, or what a string object
has in its text field, and that goes into a field of the same name.  What remains are operand
stacks, arguments and results, on which values are moved without being looked at.

An instruction that looks into an operand fails if that is a text (`Machine.step_inspected`).

Main result: this is so throughout runs (`Machine.occurs_texts`).  Native routines may be those of
the core library, and others that write nothing.
-/
import CilMachine.Proofs.FieldTypes

namespace CilMachine

/-! ### Values that are texts -/

namespace Value

variable {v w left right : Value}

/-- Whether the value is a text. -/
def isText : Value → Bool
  | text _ => true
  | _ => false

/-- What no text comes to shows that a value is none. -/
theorem not_isText_of_ne {α : Type} {p : Value → α} {a : α} (h : p v = a)
    (hp : ∀ s, p (.text s) ≠ a) : ¬ v.isText := by
  intro hv
  cases v with
  | text s => exact hp s h
  | _ => cases hv

theorem not_isText_of_fits {f : Flavor} (h : v.fits f) : ¬ v.isText :=
  not_isText_of_ne h fun _ => nofun

theorem not_isText_default (f : Flavor) : ¬ (default f).isText := by
  cases f <;> exact Bool.false_ne_true

theorem widen?_text_left (s : String) (v : Value) : widen? (.text s) v = none := by
  cases v <;> rfl

theorem widen?_text_right (v : Value) (s : String) : widen? v (.text s) = none := by
  cases v <;> rfl

theorem sameReference?_text_left (s : String) (v : Value) : sameReference? (.text s) v = none := by
  cases v <;> rfl

theorem sameReference?_text_right (v : Value) (s : String) : sameReference? v (.text s) = none := by
  cases v <;> rfl

/-- Nothing is computed with a text. -/
theorem not_isText_of_arithmetic {op : Arithmetic} (h : left.arithmetic op right = .ok w) :
    ¬ left.isText ∧ ¬ right.isText := by
  refine ⟨not_isText_of_ne (p := (arithmetic op · right)) h fun s => ?_,
    not_isText_of_ne (p := left.arithmetic op) h fun s => ?_⟩
  · rw [arithmetic, widen?_text_left]
    intro heq
    cases heq
  · rw [arithmetic, widen?_text_right]
    intro heq
    cases heq

/-- A text is compared with nothing, not even for equality. -/
theorem not_isText_of_compare {op : Comparison} (h : left.compare op right = .ok w) :
    ¬ left.isText ∧ ¬ right.isText := by
  refine ⟨not_isText_of_ne (p := (compare op · right)) h fun s => ?_,
    not_isText_of_ne (p := left.compare op) h fun s => ?_⟩
  · unfold compare
    rw [widen?_text_left, sameReference?_text_left]
    cases op <;> nofun
  · unfold compare
    rw [widen?_text_right, sameReference?_text_right]
    cases op <;> nofun

end Value

/-- None of the values is a text. -/
def NoTexts (vs : List Value) : Prop := ∀ v ∈ vs, ¬ v.isText

theorem NoTexts.nil : NoTexts [] := nofun

theorem NoTexts.cons {v : Value} {vs : List Value} (hv : ¬ v.isText) (hvs : NoTexts vs) :
    NoTexts (v :: vs) :=
  List.forall_mem_cons.2 ⟨hv, hvs⟩

/-! ### Objects and frames -/

/-- Texts are in fields of the name that string objects have theirs in, and nowhere else in the
object. -/
inductive HeapObject.TextsInPlace : HeapObject → Prop
  | record {type : TypeRef} {fields : Fields} : (∀ p ∈ fields, p.2.isText → p.1 = textField) →
      TextsInPlace (.record type fields)
  | values {element : TypeRef} {items : Array Value} : (∀ v ∈ items, ¬ v.isText) →
      TextsInPlace (.array element (.values items))
  | references (element : TypeRef) (slots : Array (Option Handle)) :
      TextsInPlace (.array element (.references slots))

theorem HeapObject.Fresh.textsInPlace {c : Catalog} {o : HeapObject} (h : o.Fresh c) :
    o.TextsInPlace := by
  cases h with
  | record _ =>
      refine .record fun p hp htext => ?_
      obtain ⟨⟨name, flavor⟩, -, rfl⟩ := List.mem_map.1 hp
      exact absurd htext (Value.not_isText_default flavor)
  | string s =>
      refine .record fun p hp _ => ?_
      obtain rfl := List.mem_singleton.1 hp
      rfl
  | @array element type length _ =>
      unfold Heap.freshStorage
      split
      · refine .values fun v hv => ?_
        rw [Array.eq_of_mem_replicate hv]
        exact Value.not_isText_default _
      · exact .references _ _

namespace Heap

variable {c : Catalog} {h k : Heap} {name : String} {v : Value}

/-- Texts are in their place in all objects. -/
def TextsInPlace (h : Heap) : Prop := ∀ r o, h.get? r = some o → o.TextsInPlace

theorem textsInPlace_empty : ({} : Heap).TextsInPlace := by
  intro r o ho
  rw [get?_empty] at ho
  cases ho

/-- A text is stored in a field of texts only. -/
theorem Stores.name_eq (hstores : h.Stores c name v) (htext : v.isText) : name = textField := by
  cases hstores with
  | declared _ _ hfits _ => exact absurd htext (Value.not_isText_of_fits hfits)
  | copied _ hname => exact hname
  | text _ _ hname => exact hname

theorem Change.textsInPlace (hchange : h.Change c k) (hh : h.TextsInPlace) : k.TextsInPlace := by
  intro q o ho
  cases hchange with
  | alloc hfresh =>
      rcases get?_alloc_eq_some ho with ⟨-, rfl⟩ | ⟨-, ho⟩
      · exact hfresh.textsInPlace
      · exact hh q o ho
  | setField hget _ hstores =>
      rcases get?_replace_eq_some hget ho with ⟨-, rfl⟩ | ⟨-, ho⟩
      · cases hh _ _ hget with
        | record hfields =>
            refine .record fun p hp htext => ?_
            rcases Named.mem_put hp with hp | rfl
            · exact hfields p hp htext
            · exact hstores.name_eq htext
      · exact hh q o ho
  | setElement n hget _ =>
      rcases get?_replace_eq_some hget ho with ⟨-, rfl⟩ | ⟨-, ho⟩
      · cases hh _ _ hget with
        | values hitems =>
            refine .values fun v hv => ?_
            rcases Array.mem_or_eq_of_mem_setIfInBounds hv with hv | rfl
            · exact hitems v hv
            · exact Bool.false_ne_true
      · exact hh q o ho
  | setReference slot hget _ =>
      rcases get?_replace_eq_some hget ho with ⟨-, rfl⟩ | ⟨-, ho⟩
      · exact .references _ _
      · exact hh q o ho

end Heap

/-- No local slot holds a text. -/
def CallStack.NoTextInSlots (c : CallStack) : Prop :=
  ∀ f ∈ c.frames, ∀ slot ∈ f.locals, ¬ slot.value.isText

/-- Slots are fresh, or hold what has fitted them. -/
theorem CallStack.noTextInSlots_invariant : CallStack.Invariant NoTextInSlots where
  continues {c d} hcontinues hc g hg slot hslot := by
    rcases hframes : c.frames with - | ⟨f, F⟩
    · rw [hcontinues.eq_nil hframes] at hg
      cases hg
    · obtain ⟨g', hd, hfg⟩ := hcontinues.exists_cons hframes
      rw [hd] at hg
      rcases List.mem_cons.1 hg with rfl | hg
      · obtain ⟨old, hold, hcont⟩ := forall₂_exists_of_mem hfg.locals.flip hslot
        rcases hcont.value with hvalue | hfits
        · rw [hvalue]
          exact hc f (by rw [hframes]; exact .head _) old hold
        · exact Value.not_isText_of_fits hfits
      · exact hc g (by rw [hframes]; exact .tail _ hg) slot hslot
  push {c d m args} hpush hc f hf slot hslot := by
    obtain ⟨-, caller, rfl⟩ := CallStack.push_eq_ok hpush
    rcases List.mem_cons.1 hf with rfl | hf
    · obtain ⟨flavor, -, rfl⟩ := List.mem_map.1 hslot
      exact Value.not_isText_default flavor
    · exact hc f hf slot hslot

/-! ### Instructions -/

/-- How many operands on top of the stack the action looks into: it computes with them, compares,
tests or converts them, indexes by them, follows them, or keeps them in a place with a flavor. -/
def Action.operands : Action → Nat
  | .storeLocal _ | .convert _ | .typeTest _ | .loadField _ | .newArray _ | .arrayLength
  | .branch _ _ => 1
  | .arithmetic _ | .compare _ | .storeField _ | .storeIndirect | .loadElement _
  | .loadElementRef => 2
  | .storeElement _ | .storeElementRef => 3
  | _ => 0

/-- The operands that the action looks into.  A virtual call looks into its receiver, which lies
below the arguments. -/
def Action.inspected (c : Catalog) (a : Action) (stack : OperandStack) : List Value :=
  match a with
  | .callVirtual m => match c.resolveMethod m with
    | .ok declared => if declared.isStatic then [] else (stack.drop declared.paramCount).take 1
    | .error _ => []
  | a => stack.take a.operands

namespace Machine

variable {α : Type} {ctx : Context} {a : Action} {i : Instruction} {s u : Machine} {f : Frame}
  {F : List Frame} {fuel : Nat}

/-- The operand stack of the frame on top. -/
def OnTop (S : OperandStack) (s : Machine) : Prop := ∃ f F, s.calls.frames = f :: F ∧ f.stack = S

section Operands

variable {b : α} {S : OperandStack}

/-- What is taken off the operand stack was on top of it. -/
theorem pop_bind_eq_ok {g : Value → Op α} (hs : s.OnTop S) (h : (pop >>= g) s = (.ok b, u)) :
    ∃ v S' t, S = v :: S' ∧ t.OnTop S' ∧ g v t = (.ok b, u) := by
  obtain ⟨v, t, hpop, h⟩ := op_bind_eq_ok h
  obtain ⟨f, F, S', hframes, hstack, rfl⟩ := pop_eq_ok hpop
  obtain ⟨f', F', hframes', rfl⟩ := hs
  cases hframes.symm.trans hframes'
  exact ⟨v, S', _, hstack, ⟨_, _, rfl, rfl⟩, h⟩

theorem popInteger_bind_eq_ok {op : Operation} {g : Int64 → Op α} (hs : s.OnTop S)
    (h : (popInteger op >>= g) s = (.ok b, u)) :
    ∃ v n S' t, S = v :: S' ∧ ¬ v.isText ∧ t.OnTop S' ∧ g n t = (.ok b, u) := by
  obtain ⟨n, t, hinteger, h⟩ := op_bind_eq_ok h
  obtain ⟨v, hpop, hn⟩ := popInteger_eq_ok hinteger
  obtain ⟨v', S', t', rfl, ht, hpure⟩ :=
    pop_bind_eq_ok (g := pure) hs (by rw [bind_pure]; exact hpop)
  cases hpure
  exact ⟨v, n, S', t, rfl, Value.not_isText_of_ne hn fun _ => nofun, ht, h⟩

theorem popObject_bind_eq_ok {op : Operation} {g : Handle → Op α} (hs : s.OnTop S)
    (h : (popObject op >>= g) s = (.ok b, u)) :
    ∃ r S' t, S = .object r :: S' ∧ t.OnTop S' ∧ g r t = (.ok b, u) := by
  obtain ⟨r, t, hobject, h⟩ := op_bind_eq_ok h
  obtain ⟨v, S', t', rfl, ht, hpure⟩ :=
    pop_bind_eq_ok (g := pure) hs (by rw [bind_pure]; exact popObject_eq_ok hobject)
  cases hpure
  exact ⟨r, S', t, rfl, ht, h⟩

theorem lift_bind_eq_ok {β : Type} {x : Except ExecError β} {g : β → Op α}
    (h : (liftM x >>= g) s = (.ok b, u)) : ∃ y, x = .ok y ∧ g y s = (.ok b, u) := by
  obtain ⟨y, t, hlift, h⟩ := op_bind_eq_ok h
  obtain ⟨hx, rfl⟩ := lift_eq_ok hlift
  exact ⟨y, hx, h⟩

theorem discard_lift_bind_eq_ok {β : Type} {x : Except ExecError β} {g : Unit → Op α}
    (h : (discard (liftM x : Op β) >>= g) s = (.ok b, u)) : g () s = (.ok b, u) := by
  obtain ⟨⟨⟩, t, hdiscard, h⟩ := op_bind_eq_ok h
  rw [op_discard_apply, lift_apply] at hdiscard
  obtain rfl : s = t := congrArg Prod.snd hdiscard
  exact h

end Operands

/-- An action that succeeds has not looked into a text. -/
theorem perform_inspected {e : Effect} {S : OperandStack} (hs : s.OnTop S)
    (h : perform ctx a s = (.ok e, u)) : NoTexts (a.inspected ctx.catalog S) := by
  cases a with
  | storeLocal index =>
      obtain ⟨v, S, t, rfl, ht, h⟩ := pop_bind_eq_ok hs h
      obtain ⟨⟨⟩, t', hset, -⟩ := op_bind_eq_ok h
      obtain ⟨f, F, g, -, hg, -⟩ := onFrame_eq_ok hset
      obtain ⟨ls, hls, -⟩ := map_eq_ok hg
      obtain ⟨slot, -, hfits, -⟩ := Locals.set_eq_ok hls
      exact .cons (Value.not_isText_of_fits hfits) .nil
  | arithmetic op =>
      obtain ⟨right, S, t, rfl, ht, h⟩ := pop_bind_eq_ok hs h
      obtain ⟨left, S, t', rfl, -, h⟩ := pop_bind_eq_ok ht h
      obtain ⟨w, hw, -⟩ := lift_bind_eq_ok h
      obtain ⟨hleft, hright⟩ := Value.not_isText_of_arithmetic hw
      exact .cons hright (.cons hleft .nil)
  | compare op =>
      obtain ⟨right, S, t, rfl, ht, h⟩ := pop_bind_eq_ok hs h
      obtain ⟨left, S, t', rfl, -, h⟩ := pop_bind_eq_ok ht h
      obtain ⟨w, hw, -⟩ := lift_bind_eq_ok h
      obtain ⟨hleft, hright⟩ := Value.not_isText_of_compare hw
      exact .cons hright (.cons hleft .nil)
  | convert op =>
      obtain ⟨v, S, t, rfl, -, h⟩ := pop_bind_eq_ok hs h
      obtain ⟨w, hw, -⟩ := lift_bind_eq_ok h
      exact .cons (Value.not_isText_of_ne hw fun _ => nofun) .nil
  | typeTest target =>
      obtain ⟨v, S, t, rfl, -, h⟩ := pop_bind_eq_ok hs h
      refine .cons (fun hv => ?_) .nil
      cases v with
      | text s => cases h
      | _ => cases hv
  | branch onTrue target =>
      obtain ⟨v, S, t, rfl, -, h⟩ := pop_bind_eq_ok hs h
      rcases hb : v.condition? with - | b
      · rw [hb] at h
        cases h
      · exact .cons (Value.not_isText_of_ne hb fun _ => nofun) .nil
  | loadField f =>
      obtain ⟨r, S, t, rfl, -, -⟩ := popObject_bind_eq_ok hs (discard_lift_bind_eq_ok h)
      exact .cons nofun .nil
  | storeField f =>
      obtain ⟨declared, -, h⟩ := lift_bind_eq_ok h
      obtain ⟨flavor, -, h⟩ := lift_bind_eq_ok h
      obtain ⟨v, S, t, rfl, ht, h⟩ := pop_bind_eq_ok hs h
      obtain ⟨r, S, t', rfl, -, h⟩ := popObject_bind_eq_ok ht h
      split at h
      · exact .cons (Value.not_isText_of_fits ‹_›) (.cons nofun .nil)
      · cases h
  | storeIndirect =>
      obtain ⟨source, S, t, rfl, ht, h⟩ := popObject_bind_eq_ok hs h
      obtain ⟨destination, S, t', rfl, -, -⟩ := popObject_bind_eq_ok ht h
      exact .cons nofun (.cons nofun .nil)
  | newArray element =>
      obtain ⟨type, -, h⟩ := lift_bind_eq_ok h
      obtain ⟨v, n, S, t, rfl, hv, -, -⟩ := popInteger_bind_eq_ok hs h
      exact .cons hv .nil
  | arrayLength =>
      obtain ⟨r, S, t, rfl, -, -⟩ := popObject_bind_eq_ok hs h
      exact .cons nofun .nil
  | loadElement width =>
      obtain ⟨v, n, S, t, rfl, hv, ht, h⟩ := popInteger_bind_eq_ok hs h
      obtain ⟨r, S, t', rfl, -, -⟩ := popObject_bind_eq_ok ht h
      exact .cons hv (.cons nofun .nil)
  | loadElementRef =>
      obtain ⟨v, n, S, t, rfl, hv, ht, h⟩ := popInteger_bind_eq_ok hs h
      obtain ⟨r, S, t', rfl, -, -⟩ := popObject_bind_eq_ok ht h
      exact .cons hv (.cons nofun .nil)
  | storeElement width =>
      obtain ⟨w, S, t, rfl, ht, h⟩ := pop_bind_eq_ok hs h
      obtain ⟨v, n, S, t', rfl, hv, ht', h⟩ := popInteger_bind_eq_ok ht h
      obtain ⟨r, S, t'', rfl, -, h⟩ := popObject_bind_eq_ok ht' h
      rcases hn : w.integer? with - | n
      · rw [hn] at h
        cases h
      · exact .cons (Value.not_isText_of_ne hn fun _ => nofun) (.cons hv (.cons nofun .nil))
  | storeElementRef =>
      obtain ⟨slot, t, hslot, h⟩ := op_bind_eq_ok h
      obtain ⟨w, S, t₁, rfl, ht, hslot⟩ := pop_bind_eq_ok hs hslot
      have hw : ¬ w.isText ∧ t₁ = t := by
        cases w <;> cases hslot <;> exact ⟨nofun, rfl⟩
      obtain ⟨hw, rfl⟩ := hw
      obtain ⟨v, n, S, t', rfl, hv, ht', h⟩ := popInteger_bind_eq_ok ht h
      obtain ⟨r, S, t'', rfl, -, h⟩ := popObject_bind_eq_ok ht' h
      exact .cons hw (.cons hv (.cons nofun .nil))
  | callVirtual m =>
      obtain ⟨c, t, hcall, -⟩ := op_bind_eq_ok h
      obtain ⟨declared, hdeclared, hcall⟩ := lift_bind_eq_ok hcall
      simp only [Action.inspected, hdeclared]
      split
      · exact .nil
      rename_i hstatic
      obtain ⟨vs, t, hpop, hcall⟩ := op_bind_eq_ok hcall
      obtain ⟨f, F, S', hframes, hlength, hstack, rfl⟩ := popMany_eq_ok hpop
      obtain ⟨f', F', hframes', rfl⟩ := hs
      cases hframes.symm.trans hframes'
      rw [if_neg hstatic] at hcall
      obtain ⟨receiver, S, t', rfl, -, hcall⟩ := pop_bind_eq_ok ⟨_, _, rfl, rfl⟩ hcall
      obtain ⟨target, t'', hresolve, -⟩ := op_bind_eq_ok hcall
      have hdrop : f.stack.drop declared.paramCount = receiver :: S := by
        rw [hstack]
        exact List.drop_left' (by rw [List.length_reverse, hlength])
      rw [hdrop]
      refine .cons (fun hreceiver => ?_) .nil
      cases receiver with
      | text s => cases hresolve
      | _ => cases hreceiver
  | _ => exact .nil

/-- **What looks into a text fails.**  An instruction fails if one of the operands that its action
looks into is a text. -/
theorem step_inspected {S : OperandStack} {v : Value} (ha : i.action? = .ok a) (hs : s.OnTop S)
    (hv : v ∈ a.inspected ctx.catalog S) (htext : v.isText) (fuel : Nat) :
    ∃ e u, step ctx fuel i s = some (.error e, u) := by
  rw [step, stepWith_apply]
  rcases hp : performInstruction ctx i s with ⟨e | effect, u⟩
  · exact ⟨e, u, rfl⟩
  · have hperform := performInstruction_eq_ok ha hp
    exact absurd htext (perform_inspected hs hperform v hv)

/-! ### Runs -/

/-- No local slot holds a text, and in the heap texts are in their place. -/
structure TextsInPlace (s : Machine) : Prop where
  heap : s.heap.TextsInPlace
  calls : s.calls.NoTextInSlots

end Machine

/-- The routine is that of a method of the core library, or writes nothing to the heap. -/
def Native.Vetted (c : Catalog) (routine : Native) : Prop :=
  (∃ m, Catalog.withCorelib.Declares m ∧ m.body = .native routine) ∨ routine.OnlyAdds c

theorem Native.Vetted.preserves {c : Catalog} {Q : Heap → Prop} {routine : Native}
    (h : routine.Vetted c) (hQ : ∀ {h k : Heap}, h.Change c k → Q h → Q k) :
    routine.Preserves Q c.headers := by
  rcases h with ⟨m, hm, hbody⟩ | honly
  · exact (Machine.corelib_preserves hQ c.headers).methods m hm routine hbody
  · exact honly.preserves hQ

namespace Machine

variable {ctx : Context} {s u : Machine}

/-- **Texts stay in their place.**  Let native routines be those of the core library, or write
nothing.  Wherever a run gets to, no local slot, no element and no field but those of texts holds a
text, if it was so at the start; and every instruction that looks into an operand which is a text
fails there. -/
theorem occurs_texts (hs : s.TextsInPlace) (hruns : s.RunsOnly ctx (Native.Vetted ctx.catalog))
    (h : s.Occurs ctx (Native.Vetted ctx.catalog) u) :
    u.TextsInPlace ∧
      ∀ i a S v fuel, i.action? = .ok a → u.OnTop S → v ∈ a.inspected ctx.catalog S → v.isText →
        ∃ e t, step ctx fuel i u = some (.error e, t) := by
  have hinvariant : Heap.Invariant ctx (Native.Vetted ctx.catalog) Heap.TextsInPlace :=
    ⟨Heap.Change.textsInPlace, fun hroutine => hroutine.preserves Heap.Change.textsInPlace⟩
  have hkeeps : u.Keeps ctx (Native.Vetted ctx.catalog) Heap.TextsInPlace :=
    h.keeps hinvariant ⟨hs.heap, hruns⟩
  refine ⟨⟨hkeeps.heap, h.calls CallStack.noTextInSlots_invariant hs.calls⟩, ?_⟩
  intro i a S v fuel ha hS hv htext
  exact step_inspected ha hS hv htext fuel

end Machine

namespace Sample

/-- The core library by itself. -/
def library : Context := { catalog := Catalog.withCorelib }

/-- A machine with an entry frame in which nothing has run. -/
def idle : Machine := { calls := (CallStack.ofLimit 8).pushEntry }

theorem idle_textsInPlace : idle.TextsInPlace where
  heap := Heap.textsInPlace_empty
  calls f hf slot hslot := by
    obtain rfl := List.mem_singleton.1 hf
    cases hslot

theorem idle_runsOnly : idle.RunsOnly library (Native.Vetted library.catalog) where
  declared m hm _ hbody := .inl ⟨m, hm, hbody⟩
  answers := by
    rintro entry ⟨⟩

end Sample

namespace Machine

/-- The text of a string object comes to be on an operand stack; it is in its place there, and no
branch can be made on it. -/
theorem occurs_texts_pushed :
    ∃ u, Sample.idle.Occurs Sample.library (Native.Vetted Sample.library.catalog) u ∧
      u.OnTop [.text "kept"] ∧ u.TextsInPlace ∧
      ∃ e t, step Sample.library 1 ⟨10, 5, "brtrue", .conditionalBranch, .target 0⟩ u =
        some (.error e, t) := by
  have hrun : ((step Sample.library 1 ⟨0, 5, "ldstr", .sequential, .string "kept"⟩ Sample.idle).bind
      fun p => step Sample.library 1
        ⟨5, 5, "ldfld", .sequential, .field ⟨.string, textField⟩⟩ p.2).map
      (fun p => p.2.calls.frames.map Frame.stack) = some [[.text "kept"]] := by
    decide +kernel
  obtain ⟨⟨r, u⟩, hsteps, hstacks⟩ := Option.map_eq_some_iff.1 hrun
  obtain ⟨⟨r', t⟩, hload, hfield⟩ := Option.bind_eq_some_iff.1 hsteps
  have hoccurs : Sample.idle.Occurs Sample.library (Native.Vetted Sample.library.catalog) u :=
    (Occurs.start.step hload).step hfield
  have htop : u.OnTop [.text "kept"] := by
    obtain ⟨f, F, hframes, hstack, -⟩ := List.map_eq_cons_iff.1 hstacks
    exact ⟨f, F, hframes, hstack⟩
  obtain ⟨hplace, hfails⟩ := occurs_texts Sample.idle_textsInPlace Sample.idle_runsOnly hoccurs
  exact ⟨u, hoccurs, htop, hplace, hfails _ (.branch true 0) _ _ 1 (by decide) htop (.head _) rfl⟩

end Machine

end CilMachine
