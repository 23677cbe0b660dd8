/-
CilMachine/Proofs/Continues.lean

What code can do to a call stack while a frame is on top of it.  A frame *continues* as another if
that has the same method, caller and arguments and as many local slots of the same flavors; only the
operand stack and the contents of the slots may differ, and what a slot holds anew fits its flavor.
A call stack continues as another if its top frame does and everything below is the same.

A call that is over leaves the stack as it was, but for the value that it delivers to the top frame;
that is one of the ways in which a stack can continue (`Continues.deliver`).
-/
import CilMachine.CallStack
import Mathlib.Data.List.Forall2
import Mathlib.Data.Option.Defs
import Mathlib.Tactic.Common

namespace CilMachine

/-! ### Frames -/

theorem Locals.set_eq_ok {ls ls' : Locals} {index : Nat} {v : Value}
    (h : ls.set index v = .ok ls') :
    ∃ slot, ls[index]? = some slot ∧ v.fits slot.flavor ∧
      ls' = List.set ls index { slot with value := v } := by
  unfold Locals.set at h
  rcases hslot : ls[index]? with - | slot <;> simp only [hslot] at h
  · cases h
  · split at h <;> cases h
    exact ⟨slot, rfl, ‹_›, rfl⟩

/-- The slot `b` is `a` at another point: it holds what it held, or a value that fits it. -/
structure Slot.Continues (a b : Slot) : Prop where
  flavor : b.flavor = a.flavor
  value : b.value = a.value ∨ b.value.fits b.flavor

namespace Slot.Continues

theorem refl (a : Slot) : a.Continues a := ⟨rfl, .inl rfl⟩

theorem trans {a b c : Slot} (hab : a.Continues b) (hbc : b.Continues c) : a.Continues c := by
  refine ⟨hbc.flavor.trans hab.flavor, ?_⟩
  rcases hbc.value with hvalue | hfits
  · rw [hvalue, hbc.flavor]
    exact hab.value
  · exact .inr hfits

end Slot.Continues

/-- The frame `g` is `f` at another point of the same activation. -/
structure Frame.Continues (f g : Frame) : Prop where
  method : g.method = f.method
  caller : g.caller = f.caller
  arguments : g.arguments = f.arguments
  locals : List.Forall₂ Slot.Continues f.locals g.locals

namespace Frame.Continues

theorem withStack (f : Frame) (s : OperandStack) : f.Continues { f with stack := s } :=
  ⟨rfl, rfl, rfl, List.forall₂_same.2 fun a _ => .refl a⟩

theorem refl (f : Frame) : f.Continues f := withStack f f.stack

theorem trans {f g h : Frame} (hfg : f.Continues g) (hgh : g.Continues h) : f.Continues h := by
  refine ⟨hgh.method.trans hfg.method, hgh.caller.trans hfg.caller,
    hgh.arguments.trans hfg.arguments, ?_⟩
  obtain ⟨hlength, hslots⟩ := List.forall₂_iff_get.1 hfg.locals
  obtain ⟨hlength', hslots'⟩ := List.forall₂_iff_get.1 hgh.locals
  refine List.forall₂_iff_get.2 ⟨hlength.trans hlength', fun i hi hi' => ?_⟩
  have hmid : i < g.locals.length := hlength ▸ hi
  exact (hslots i hi hmid).trans (hslots' i hmid hi')

theorem withLocal {f : Frame} {index : Nat} {v : Value} {ls : Locals}
    (h : f.locals.set index v = .ok ls) : f.Continues { f with locals := ls } := by
  refine ⟨rfl, rfl, rfl, ?_⟩
  obtain ⟨slot, hslot, hfits, rfl⟩ := Locals.set_eq_ok h
  obtain ⟨hlt, rfl⟩ := List.getElem?_eq_some_iff.1 hslot
  refine List.forall₂_iff_get.2 ⟨by simp, fun i hi hi' => ?_⟩
  simp only [List.get_eq_getElem, List.getElem_set]
  split
  · -- the slot is overwritten with one of its own flavor
    rename_i heq
    subst heq
    exact ⟨rfl, .inr hfits⟩
  · exact .refl _

end Frame.Continues

/-! ### Call stacks -/

namespace CallStack

/-- The stack `d` is `c` at another point of the activation on top. -/
structure Continues (c d : CallStack) : Prop where
  limit : d.limit = c.limit
  entries : d.entries = c.entries
  below : d.frames.tail = c.frames.tail
  top : Option.Rel Frame.Continues c.frames.head? d.frames.head?

namespace Continues

variable {c d e : CallStack}

theorem refl (c : CallStack) : c.Continues c := by
  refine ⟨rfl, rfl, rfl, ?_⟩
  rcases c.frames.head? with - | f
  · exact .none
  · exact .some (.refl f)

theorem trans (hcd : c.Continues d) (hde : d.Continues e) : c.Continues e := by
  refine ⟨hde.limit.trans hcd.limit, hde.entries.trans hcd.entries, hde.below.trans hcd.below, ?_⟩
  have h₁ := hcd.top
  have h₂ := hde.top
  rcases hc : c.frames.head? with - | f <;> rcases hd : d.frames.head? with - | g <;>
    rcases he : e.frames.head? with - | h <;> rw [hc, hd] at h₁ <;> rw [hd, he] at h₂ <;>
    cases h₁ <;> cases h₂
  · exact .none
  · exact .some (.trans ‹_› ‹_›)

/-- A stack with a frame continues with one. -/
theorem exists_cons {f : Frame} {rest : List Frame} (h : c.Continues d)
    (hc : c.frames = f :: rest) : ∃ g, d.frames = g :: rest ∧ f.Continues g := by
  have htop := h.top
  have hbelow := h.below
  rcases hd : d.frames with - | ⟨g, rest'⟩
  · rw [hc, hd] at htop
    cases htop
  · rw [hc, hd] at htop hbelow
    cases htop with
    | some hfg =>
        obtain rfl : rest' = rest := hbelow
        exact ⟨g, rfl, hfg⟩

theorem length_eq (h : c.Continues d) : d.frames.length = c.frames.length := by
  rcases hc : c.frames with - | ⟨f, rest⟩
  · have htop := h.top
    rcases hd : d.frames with - | ⟨g, rest⟩
    · rfl
    · rw [hc, hd] at htop
      cases htop
  · obtain ⟨g, hd, -⟩ := h.exists_cons hc
    rw [hd]
    rfl

theorem eq_nil (h : c.Continues d) (hc : c.frames = []) : d.frames = [] := by
  rw [← List.length_eq_zero_iff, h.length_eq, hc]
  rfl

theorem depth_eq (h : c.Continues d) : d.depth = c.depth := by
  rw [depth, depth, h.length_eq, h.entries]

theorem setCurrent {f g : Frame} (hc : c.current = .ok f) (h : f.Continues g) :
    c.Continues (c.setCurrent g) := by
  obtain ⟨frames, entries, limit⟩ := c
  rcases frames with - | ⟨f', rest⟩
  · cases hc
  · cases hc
    exact ⟨rfl, rfl, rfl, .some h⟩

theorem deliver (c : CallStack) (v : Value) : c.Continues (c.deliver v) := by
  obtain ⟨frames, entries, limit⟩ := c
  rcases frames with - | ⟨f, rest⟩
  · exact .refl _
  · exact ⟨rfl, rfl, rfl, .some (.withStack f _)⟩

end Continues

/-! ### Stacks of one shape -/

/-- The stacks have the same number of frames, and among them of entry frames, and the same limit.
-/
structure SameShape (c d : CallStack) : Prop where
  size : d.frames.length = c.frames.length
  entries : d.entries = c.entries
  limit : d.limit = c.limit

namespace SameShape

variable {c c' d d' : CallStack}

theorem refl (c : CallStack) : SameShape c c := ⟨rfl, rfl, rfl⟩

theorem depth_eq (h : SameShape c d) : d.depth = c.depth := by
  rw [depth, depth, h.size, h.entries]

theorem continues (h : SameShape c d) (hc : c.Continues c') (hd : d.Continues d') :
    SameShape c' d' :=
  ⟨by rw [hd.length_eq, hc.length_eq, h.size], by rw [hd.entries, hc.entries, h.entries],
    by rw [hd.limit, hc.limit, h.limit]⟩

end SameShape

/-! ### The stack after a call -/

/-- The stack after a call that has come out as `r`: a returned value is delivered, and nothing else
has changed. -/
def afterCall {ε : Type} (c : CallStack) : Except ε (Option Value) → CallStack
  | .ok (some v) => c.deliver v
  | _ => c

theorem Continues.afterCall {ε : Type} (c : CallStack) (r : Except ε (Option Value)) :
    c.Continues (c.afterCall r) := by
  rcases r with - | - | v
  · exact .refl c
  · exact .refl c
  · exact .deliver c v

/-! ### Pushing and unwinding a method's frame -/

theorem push_eq_ok {c d : CallStack} {m : Method} {args : List Value} (h : c.push m args = .ok d) :
    c.depth < c.limit ∧
      ∃ caller, d = { c with frames := .ofMethod caller m args :: c.frames } := by
  unfold push at h
  split at h
  · exact ⟨‹_›, _, (Except.ok.inj h).symm⟩
  · cases h

theorem push_eq_error {c : CallStack} {m : Method} {args : List Value} {e : ExecError}
    (h : c.push m args = .error e) :
    c.limit ≤ c.depth ∧ e = .stackDepthExceeded (c.depth + 1) c.limit := by
  unfold push at h
  split at h
  · cases h
  · exact ⟨Nat.le_of_not_lt ‹_›, (Except.error.inj h).symm⟩

/-- Whatever became of the frame that was pushed for a method, discarding it restores the stack. -/
theorem discard_of_push {c d u : CallStack} {m : Method} {args : List Value}
    (hd : c.push m args = .ok d) (h : d.Continues u) :
    ∃ f, u.frames = f :: c.frames ∧ f.method = some m ∧ u.discard = (some f, c) := by
  obtain ⟨-, caller, rfl⟩ := push_eq_ok hd
  obtain ⟨f, hu, hf⟩ := h.exists_cons rfl
  have hm : f.method = some m := hf.method
  have hentries : u.entries = c.entries := h.entries
  have hlimit : u.limit = c.limit := h.limit
  refine ⟨f, hu, hm, ?_⟩
  simp only [discard, hu, Frame.isEntry, hm, hentries, hlimit]
  rfl

/-- Unwinding it restores the stack as well, and hands over what the method returns. -/
theorem unwind_of_push {c d u : CallStack} {m : Method} {args : List Value}
    (hd : c.push m args = .ok d) (h : d.Continues u) :
    ∃ f, u.frames = f :: c.frames ∧ f.method = some m ∧
      u.unwind = (returned m f.stack, c.afterCall (returned m f.stack)) := by
  obtain ⟨f, hu, hm, hdiscard⟩ := discard_of_push hd h
  refine ⟨f, hu, hm, ?_⟩
  simp only [unwind, hdiscard, hm]
  rcases returned m f.stack with e | - | v <;> rfl

/-- A method's frame returns a value if and only if the method does, and only from an operand stack
that holds nothing else. -/
theorem returned_spec (m : Method) (s : OperandStack) :
    (s.length = (if m.returnsValue then 1 else 0) ∧
      returned m s = .ok s.head? ∧ s.head?.isSome = m.returnsValue) ∨
    (s.length ≠ (if m.returnsValue then 1 else 0) ∧
      ∃ how, returned m s = .error (.inconsistentReturn m.fullName how)) := by
  unfold returned
  cases hm : m.returnsValue <;> rcases s with - | ⟨v, - | ⟨w, rest⟩⟩ <;> simp

end CallStack

end CilMachine
