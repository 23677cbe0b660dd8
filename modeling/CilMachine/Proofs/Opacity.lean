/-
CilMachine/Proofs/Opacity.lean

Handles are only names.  A `Renaming` pairs the handles of one machine with those of another, one to
one; the second machine is the *image* of the first if every object, every frame and every counter
of the one is that of the other, up to the renaming of handles.  An invocation then does not tell
the two machines apart: it ends in both or in neither, with results and machines that are images of
each other once more, for a renaming that has grown by the handles of the objects that were added;
and it fails in both with one error, which can therefore not have a handle in it (`invoke_opaque`).

The work is done by the correspondence `renamed`, whose worlds are the renamings.  It is one-sided;
the images are not, so the other direction is had by turning the renaming around.
-/
import CilMachine.Native.Stock
import CilMachine.Proofs.Liveness
import Mathlib.Data.Fintype.Card

namespace CilMachine

open Correspondence

/-! ### Turning relations around -/

section Flip

variable {H : Handle → Handle → Prop}

theorem Value.Rel.flip {v u : Value} (h : Value.Rel H v u) : Value.Rel (flip H) u v := by
  cases h with
  | object hr => exact .object hr
  | same hv => exact .same hv

theorem ValuesRel.flip {vs us : List Value} (h : ValuesRel H vs us) : ValuesRel (flip H) us vs :=
  List.Forall₂.flip (h.imp fun _ _ hv => hv.flip)

theorem Frame.Rel.flip {f g : Frame} (h : f.Rel H g) : g.Rel (flip H) f :=
  ⟨h.arguments.flip, .flip (h.locals.imp fun _ _ hs => ⟨hs.flavor.symm, hs.value.flip⟩),
    h.stack.flip⟩

theorem optionRel_flip {α β : Type} {A : α → β → Prop} {a : Option α} {b : Option β}
    (h : Option.Rel A a b) : Option.Rel (fun b a => A a b) b a := by
  cases h with
  | none => exact .none
  | some hab => exact .some hab

end Flip

/-! ### Images of objects -/

/-- The objects have the same type and related contents, those of value arrays included. -/
inductive HeapObject.Image (H : Handle → Handle → Prop) : HeapObject → HeapObject → Prop
  | record (type : TypeRef) {fields fields' : Fields} :
      FieldsRel H fields fields' → Image H (.record type fields) (.record type fields')
  | values (element : TypeRef) {items items' : Array Value} :
      ValuesRel H items.toList items'.toList →
        Image H (.array element (.values items)) (.array element (.values items'))
  | references (element : TypeRef) {slots slots' : Array (Option Handle)} :
      List.Forall₂ (Option.Rel H) slots.toList slots'.toList →
        Image H (.array element (.references slots)) (.array element (.references slots'))

namespace HeapObject

variable {H K : Handle → Handle → Prop} {o p : HeapObject}

theorem Image.rel (h : o.Image H p) : o.Rel H p := by
  cases h with
  | record type hfields => exact .record type hfields
  | values element hitems => exact .values element (hitems.mono fun _ _ _ => trivial)
  | references element hslots => exact .references element hslots

theorem Image.mono (h : o.Image H p) (hHK : ∀ r q, H r q → K r q) : o.Image K p := by
  cases h with
  | record type hfields =>
      exact .record type (hfields.imp fun _ _ hf => ⟨hf.1, hf.2.mono hHK⟩)
  | values element hitems => exact .values element (hitems.mono hHK)
  | references element hslots =>
      refine .references element (hslots.imp fun a b hab => ?_)
      cases hab with
      | none => exact .none
      | some hr => exact .some (hHK _ _ hr)

theorem Image.flip (h : o.Image H p) : p.Image (flip H) o := by
  cases h with
  | record type hfields =>
      exact .record type (.flip (hfields.imp fun _ _ hf => ⟨hf.1.symm, hf.2.flip⟩))
  | values element hitems => exact .values element hitems.flip
  | references element hslots =>
      exact .references element (.flip (hslots.imp fun _ _ hab => optionRel_flip hab))

/-- A fresh object is its own image, since there are no handles in it. -/
theorem Fresh.image {c : Catalog} (h : o.Fresh c) : o.Image H o := by
  cases h with
  | @record type layout _ =>
      refine .record type (List.forall₂_same.2 fun p hp => ⟨rfl, ?_⟩)
      obtain ⟨⟨_, flavor⟩, -, rfl⟩ := List.mem_map.1 hp
      exact .same (Value.handle?_default flavor)
  | string s => exact .record _ (.cons ⟨rfl, .same rfl⟩ .nil)
  | @array element type length _ =>
      unfold Heap.freshStorage
      split
      · refine .values _ (List.forall₂_same.2 fun v hv => ?_)
        obtain rfl := Array.eq_of_mem_replicate (Array.mem_toList_iff.1 hv)
        exact .same (Value.handle?_default _)
      · refine .references _ (List.forall₂_same.2 fun a ha => ?_)
        obtain rfl := Array.eq_of_mem_replicate (Array.mem_toList_iff.1 ha)
        exact .none

end HeapObject

/-! ### Renamings -/

/-- Handles of one machine, paired one to one with handles of another. -/
structure Renaming where
  rel : Handle → Handle → Prop
  biUnique : Relator.BiUnique rel

namespace Renaming

variable {w w' : Renaming} {h k : Heap} {r q : Handle} {o p : HeapObject}

/-- The renaming pairs what `w` pairs, and maybe more. -/
def Extends (w' w : Renaming) : Prop := ∀ r q, w.rel r q → w'.rel r q

/-- The renaming, seen from the other machine. -/
def symm (w : Renaming) : Renaming where
  rel := flip w.rel
  biUnique := ⟨fun _ _ _ h h' => w.biUnique.2 h h', fun _ _ _ h h' => w.biUnique.1 h h'⟩

/-- The heap `k` is the image of `h`: the renaming pairs the handles of all their objects, and no
others, and objects with paired handles are images of each other. -/
structure Images (w : Renaming) (h k : Heap) : Prop where
  total : ∀ r, h.contains r → ∃ q, w.rel r q
  onto : ∀ q, k.contains q → ∃ r, w.rel r q
  object : ∀ r q, w.rel r q → ∃ o p, h.get? r = some o ∧ k.get? q = some p ∧ o.Image w.rel p

namespace Images

theorem symm (hh : w.Images h k) : w.symm.Images k h where
  total := hh.onto
  onto := hh.total
  object q r hr := by
    obtain ⟨o, p, ho, hp, hop⟩ := hh.object r q hr
    exact ⟨p, o, hp, ho, hop.flip⟩

theorem contains_left (hh : w.Images h k) (hr : w.rel r q) : h.contains r := by
  obtain ⟨o, -, ho, -, -⟩ := hh.object r q hr
  exact Heap.contains_iff.2 ⟨o, ho⟩

theorem contains_right (hh : w.Images h k) (hr : w.rel r q) : k.contains q :=
  hh.symm.contains_left hr

/-- The handles of `h` are distinct handles of `k`. -/
theorem size_le (hh : w.Images h k) : h.size ≤ k.size := by
  -- handles count from one, the members of `Fin` from zero
  have hpaired : ∀ i : Fin h.size, ∃ j : Fin k.size, w.rel ⟨i + 1⟩ ⟨j + 1⟩ := by
    intro i
    obtain ⟨⟨n⟩, hn⟩ := hh.total ⟨i + 1⟩ (decide_eq_true ⟨Nat.succ_pos i, i.isLt⟩)
    obtain ⟨hpos, hle⟩ := of_decide_eq_true (hh.contains_right hn)
    dsimp only at hpos hle
    refine ⟨⟨n - 1, by unfold Heap.size; omega⟩, ?_⟩
    rwa [show n - 1 + 1 = n by omega]
  choose f hf using hpaired
  have hinjective : Function.Injective f := by
    intro i j hij
    have heq := w.biUnique.1 (hf i) (hij ▸ hf j)
    rw [Handle.mk.injEq] at heq
    omega
  simpa using Fintype.card_le_of_injective f hinjective

theorem size_eq (hh : w.Images h k) : k.size = h.size := Nat.le_antisymm hh.symm.size_le hh.size_le

/-- Paired objects can be replaced by images of each other. -/
theorem replace (hh : w.Images h k) (hr : w.rel r q) (hop : o.Image w.rel p) :
    w.Images (h.replace r o) (k.replace q p) := by
  obtain ⟨o₀, p₀, ho₀, hp₀, -⟩ := hh.object r q hr
  refine ⟨fun r' hr' => ?_, fun q' hq' => ?_, fun r' q' hr' => ?_⟩
  · rw [Heap.contains_replace] at hr'
    exact hh.total r' hr'
  · rw [Heap.contains_replace] at hq'
    exact hh.onto q' hq'
  · by_cases heq : r' = r
    · subst heq
      obtain rfl := w.biUnique.2 hr hr'
      exact ⟨o, p, Heap.get?_replace_self o ho₀, Heap.get?_replace_self p hp₀, hop⟩
    · -- the pairing is one to one, so the partner of another handle is another handle
      have hne : q' ≠ q := fun e => heq (w.biUnique.1 hr' (e ▸ hr))
      rw [Heap.get?_replace_of_ne o heq, Heap.get?_replace_of_ne p hne]
      exact hh.object r' q' hr'

end Images

/-- One more pair, of handles that have not been paired. -/
def insert (w : Renaming) (r q : Handle) (hr : ∀ q', ¬ w.rel r q') (hq : ∀ r', ¬ w.rel r' q) :
    Renaming where
  rel r' q' := w.rel r' q' ∨ r' = r ∧ q' = q
  biUnique := by
    refine ⟨?_, ?_⟩
    · rintro a b c (hac | ⟨rfl, rfl⟩) (hbc | ⟨rfl, hc⟩)
      · exact w.biUnique.1 hac hbc
      · exact absurd (hc ▸ hac) (hq a)
      · exact absurd hbc (hq b)
      · rfl
    · rintro a b c (hab | ⟨rfl, rfl⟩) (hac | ⟨ha, rfl⟩)
      · exact w.biUnique.2 hab hac
      · exact absurd (ha ▸ hab) (hr b)
      · exact absurd hac (hr c)
      · rfl

theorem Images.not_rel_next (hh : w.Images h k) (q : Handle) : ¬ w.rel h.next q := by
  intro hr
  obtain ⟨o, -, ho, -, -⟩ := hh.object _ _ hr
  rw [Heap.get?_next] at ho
  cases ho

/-- When images of each other are added, the new handles can be paired. -/
theorem Images.alloc (hh : w.Images h k) (hop : o.Image w.rel p) :
    ∃ w' : Renaming, w'.Extends w ∧ w'.Images (h.alloc o).2 (k.alloc p).2 ∧
      w'.rel h.next k.next := by
  have hext : (w.insert h.next k.next hh.not_rel_next hh.symm.not_rel_next).Extends w :=
    fun _ _ => .inl
  refine ⟨_, hext, ⟨fun r hr => ?_, fun q hq => ?_, ?_⟩, .inr ⟨rfl, rfl⟩⟩
  · rcases (Heap.contains_alloc h o r).1 hr with hr | rfl
    · obtain ⟨q, hq⟩ := hh.total r hr
      exact ⟨q, .inl hq⟩
    · exact ⟨k.next, .inr ⟨rfl, rfl⟩⟩
  · rcases (Heap.contains_alloc k p q).1 hq with hq | rfl
    · obtain ⟨r, hr⟩ := hh.onto q hq
      exact ⟨r, .inl hr⟩
    · exact ⟨h.next, .inr ⟨rfl, rfl⟩⟩
  · rintro r q (hr | ⟨rfl, rfl⟩)
    · obtain ⟨o', p', ho', hp', hop'⟩ := hh.object r q hr
      exact ⟨o', p', Heap.get?_alloc_of_some o ho', Heap.get?_alloc_of_some p hp', hop'.mono hext⟩
    · exact ⟨o, p, Heap.get?_alloc_next h o, Heap.get?_alloc_next k p, hop.mono hext⟩

end Renaming

/-! ### Images of machines -/

/-- The frames belong to activations of one method, called by the same, and hold related values. -/
structure Frame.Image (H : Handle → Handle → Prop) (f g : Frame) : Prop extends f.Rel H g where
  method : g.method = f.method
  caller : g.caller = f.caller

namespace Machine

variable {w w' : Renaming} {s s' t t' : Machine}

/-- The machine `t` is the image of `s`: they differ in the handles only, and in what they have
logged. -/
structure Image (w : Renaming) (s t : Machine) : Prop where
  heap : w.Images s.heap t.heap
  frames : List.Forall₂ (Frame.Image w.rel) s.calls.frames t.calls.frames
  entries : t.calls.entries = s.calls.entries
  limit : t.calls.limit = s.calls.limit
  stats : t.stats = s.stats
  answers : t.dispatch = s.dispatch

namespace Image

theorem symm (h : s.Image w t) : t.Image w.symm s where
  heap := h.heap.symm
  frames := .flip (h.frames.imp fun _ _ hfg => ⟨hfg.toRel.flip, hfg.method.symm, hfg.caller.symm⟩)
  entries := h.entries.symm
  limit := h.limit.symm
  stats := h.stats.symm
  answers := h.answers.symm

theorem sameShape (h : s.Image w t) : CallStack.SameShape s.calls t.calls :=
  ⟨h.frames.length_eq.symm, h.entries, h.limit⟩

end Image

end Machine

/-! ### The correspondence -/

namespace Native

/-- The routines of the core library, and those that yield one and the same value, which is no
handle, or nothing at all. -/
inductive Plain : Native → Prop
  | nothing (name : String) : Plain (.nothing name)
  | constant (name : String) {v : Value} : v.handle? = none → Plain (.constant name v)
  | stringConstructor : Plain stringConstructor
  | stringConcat : Plain stringConcat
  | stringLength : Plain stringLength

theorem Plain.routine {W : Type} {R : Correspondence W} {ctx ctx' : Context}
    (hR : R.Lawful ctx ctx') (headers : Headers) {routine : Native} (h : routine.Plain) :
    R.Routine headers routine := by
  cases h with
  | nothing name => exact nothing_routine hR headers name
  | constant name hv => exact AgreeHeap.routine fun _ => .pure hR (.some (.same hv))
  | stringConstructor => exact stringConstructor_routine hR headers
  | stringConcat => exact stringConcat_routine hR headers
  | stringLength => exact stringLength_routine hR headers

end Native

namespace Machine

variable {ctx : Context} {P : Native → Prop} {fuel : Nat} {m : Method} {args args' : List Value}
  {w w' : Renaming} {s s' t t' : Machine}

/-- Machines that are images of each other, as far as it can be told from their top frames. -/
def renamed (P : Native → Prop) : Correspondence Renaming where
  le w w' := w'.Extends w
  handle w := w.rel
  heap w := w.Images
  callStacks := CallStack.SameShape
  counters := Eq
  answers d e := e = d ∧ d.Keeps (Method.Runs P)
  logs _ _ := True
  method := Method.Runs P
  failure _ := True

theorem renamed_lawful (hP : ∀ m, ctx.catalog.Declares m → m.Runs P) :
    (renamed P).Lawful ctx ctx where
  catalog := rfl
  refl _ _ _ h := h
  trans h h' r q hr := h' r q (h r q hr)
  mono h hr := h _ _ hr
  biUnique w := w.biUnique
  ordinary _ := trivial
  size hh := hh.size_eq
  object hh hr := by
    obtain ⟨o, p, ho, hp, hop⟩ := hh.object _ _ hr
    exact .inl ⟨o, p, ho, hp, hop.rel⟩
  setField := by
    rintro w h k r q type fields fields' name v u hh hr ho hp hv - -
    obtain ⟨_, _, ho', hp', hop⟩ := hh.object r q hr
    cases ho.symm.trans ho'
    cases hp.symm.trans hp'
    cases hop with
    | record _ hfields => exact hh.replace hr (.record type (hfields.put name hv))
  setElement := by
    rintro w h k r q element items items' i n hh hr ho hp -
    obtain ⟨_, _, ho', hp', hop⟩ := hh.object r q hr
    cases ho.symm.trans ho'
    cases hp.symm.trans hp'
    cases hop with
    | values _ hitems =>
        refine hh.replace hr (.values element ?_)
        rw [Array.toList_setIfInBounds, Array.toList_setIfInBounds]
        exact forall₂_set hitems (.same rfl) i
  setReference := by
    rintro w h k r q element slots slots' i a b hh hr ho hp hab -
    obtain ⟨_, _, ho', hp', hop⟩ := hh.object r q hr
    cases ho.symm.trans ho'
    cases hp.symm.trans hp'
    cases hop with
    | references _ hslots =>
        refine hh.replace hr (.references element ?_)
        rw [Array.toList_setIfInBounds, Array.toList_setIfInBounds]
        exact forall₂_set hslots hab i
  alloc hh ho := hh.alloc ho.image
  continues := CallStack.SameShape.continues
  count f h := congrArg f h
  record _ _ _ := trivial
  dispatch := by
    rintro d _ declared runtime ⟨rfl, hd⟩
    refine (hd.resolve_alike hP declared runtime).mono (fun _ _ => trivial) ?_
    rintro p _ ⟨rfl, hp, hkeeps⟩
    exact ⟨rfl, hp, rfl, hkeeps⟩
  declared h := hP _ h

theorem renamed_lawfulRuns (hP : ∀ m, ctx.catalog.Declares m → m.Runs Native.Plain) :
    (renamed Native.Plain).LawfulRuns ctx ctx (fun _ => False) fun _ => True :=
  lawfulRuns_of_sameShape (renamed_lawful hP) rfl (fun _ _ _ => trivial)
    fun hm hbody => (hm _ hbody).routine (renamed_lawful hP) _

theorem Image.outside (h : s.Image w t) (hs : s.dispatch.Keeps (Method.Runs P)) :
    (renamed P).Outside w s t :=
  ⟨h.heap, h.sameShape, h.stats.symm, ⟨h.answers, hs⟩, trivial⟩

/-- The frames after a call are images of each other, as those before it were. -/
theorem Image.frames_afterCall {r q : Except Failure (Option Value)} (h : s.Image w t)
    (hle : w'.Extends w)
    (hrq : Alike (fun _ => True) (Option.Rel (Value.Rel w'.rel)) r q) :
    List.Forall₂ (Frame.Image w'.rel) (s.calls.afterCall r).frames
      (t.calls.afterCall q).frames := by
  have hframes : List.Forall₂ (Frame.Image w'.rel) s.calls.frames t.calls.frames :=
    h.frames.imp fun _ _ hfg => ⟨hfg.toRel.mono hle, hfg.method, hfg.caller⟩
  cases hrq with
  | error _ => exact hframes
  | ok hv =>
      cases hv with
      | none => exact hframes
      | some hv =>
          exact CallStack.forall₂_deliver hframes fun _ _ hfg =>
            ⟨⟨hfg.arguments, hfg.locals, .cons hv hfg.stack⟩, hfg.method, hfg.caller⟩

/-- What an invocation comes to in one machine, it comes to in its image. -/
theorem invoke_image (hs : s.RunsOnly ctx Native.Plain) (hm : m.Runs Native.Plain)
    (hst : s.Image w t) (hargs : ValuesRel w.rel args args') {r : Except Failure (Option Value)}
    (h : invoke ctx fuel m args s = some (r, s')) :
    ∃ w' q t', invoke ctx fuel m args' t = some (q, t') ∧ w'.Extends w ∧
      Alike (fun _ => True) (Option.Rel (Value.Rel w'.rel)) r q ∧ s'.Image w' t' := by
  have hR := renamed_lawfulRuns hs.declared
  obtain ⟨w', q, t', hle, ht, hout, hrq⟩ :=
    (invoke_follows hR trivial hm hargs (hst.outside hs.answers)).ends h
  have hcalls := invoke_calls ctx fuel m args s r s' h
  have hcalls' := invoke_calls ctx fuel m args' t q t' ht
  refine ⟨w', q, t', ht, hle, hrq, hout.heap, ?_, ?_, ?_, hout.counters.symm, hout.answers.1⟩
  · -- the correspondence sees the top frames only, but an invocation leaves all the others alone
    rw [hcalls, hcalls']
    exact hst.frames_afterCall hle hrq
  · exact hout.callStacks.entries
  · exact hout.callStacks.limit

/-- **Handles are opaque.**  In machines that are images of each other, on arguments that are, an
invocation ends in both or in neither.  If it ends, then it fails in both with the same error, or
its results are images of each other; and so are the machines, with equal counters, for a renaming
that pairs what was paired before. -/
theorem invoke_opaque (hs : s.RunsOnly ctx Native.Plain) (hm : m.Runs Native.Plain)
    (hst : s.Image w t) (hargs : ValuesRel w.rel args args') (fuel : Nat) :
    Option.Rel (fun p q => ∃ w' : Renaming, w'.Extends w ∧
        Alike (fun _ => True) (Option.Rel (Value.Rel w'.rel)) p.1 q.1 ∧ p.2.Image w' q.2)
      (invoke ctx fuel m args s) (invoke ctx fuel m args' t) := by
  rcases h : invoke ctx fuel m args s with - | ⟨r, s'⟩
  · rcases ht : invoke ctx fuel m args' t with - | ⟨q, t'⟩
    · exact .none
    · -- the image runs code of the same catalog, with the same answers kept
      have htruns : t.RunsOnly ctx Native.Plain := ⟨hs.declared, hst.answers ▸ hs.answers⟩
      obtain ⟨-, _, _, hs', -⟩ := invoke_image htruns hm hst.symm hargs.flip ht
      rw [h] at hs'
      cases hs'
  · obtain ⟨w', q, t', ht, hle, hrq, himage⟩ := invoke_image hs hm hst hargs h
    rw [ht]
    exact .some ⟨w', hle, hrq, himage⟩

end Machine

namespace Sample

/-- A machine with two objects, the first of which holds the second and is on the operand stack. -/
def paired : Machine where
  heap := ⟨#[.record type [("Other", .object ⟨2⟩)], .record type [("Other", .null)]]⟩
  calls := { frames := [{ stack := [.object ⟨1⟩] }], entries := 1, limit := 2 }

/-- The same machine, where the second object was there first. -/
def swapped : Machine where
  heap := ⟨#[.record type [("Other", .null)], .record type [("Other", .object ⟨1⟩)]]⟩
  calls := { frames := [{ stack := [.object ⟨2⟩] }], entries := 1, limit := 2 }

/-- The first handle stands for the second one, and the second for the first. -/
def swap : Renaming where
  rel r q := r = ⟨1⟩ ∧ q = ⟨2⟩ ∨ r = ⟨2⟩ ∧ q = ⟨1⟩
  biUnique := by
    refine ⟨?_, ?_⟩
    · rintro _ _ _ (⟨rfl, rfl⟩ | ⟨rfl, rfl⟩) (⟨rfl, h⟩ | ⟨rfl, h⟩) <;> first | rfl | cases h
    · rintro _ _ _ (⟨rfl, rfl⟩ | ⟨rfl, rfl⟩) (⟨h, rfl⟩ | ⟨h, rfl⟩) <;> first | rfl | cases h

theorem swapped_image : paired.Image swap swapped where
  heap := by
    have hlive : ∀ r : Handle, 0 < r.number ∧ r.number ≤ 2 → r = ⟨1⟩ ∨ r = ⟨2⟩ := by
      rintro ⟨n⟩ ⟨hpos, hle⟩
      simp only [Handle.mk.injEq] at hpos hle ⊢
      omega
    refine ⟨fun r hr => ?_, fun q hq => ?_, ?_⟩
    · rcases hlive r (of_decide_eq_true hr) with rfl | rfl
      · exact ⟨⟨2⟩, .inl ⟨rfl, rfl⟩⟩
      · exact ⟨⟨1⟩, .inr ⟨rfl, rfl⟩⟩
    · rcases hlive q (of_decide_eq_true hq) with rfl | rfl
      · exact ⟨⟨2⟩, .inr ⟨rfl, rfl⟩⟩
      · exact ⟨⟨1⟩, .inl ⟨rfl, rfl⟩⟩
    · rintro _ _ (⟨rfl, rfl⟩ | ⟨rfl, rfl⟩)
      · exact ⟨_, _, rfl, rfl, .record type (.cons ⟨rfl, .object (.inr ⟨rfl, rfl⟩)⟩ .nil)⟩
      · exact ⟨_, _, rfl, rfl, .record type (.cons ⟨rfl, .same rfl⟩ .nil)⟩
  frames := .cons ⟨⟨.nil, .nil, .cons (.object (.inl ⟨rfl, rfl⟩)) .nil⟩, rfl, rfl⟩ .nil
  entries := rfl
  limit := rfl
  stats := rfl
  answers := rfl

end Sample

namespace Machine

/-- An invocation that adds an object, in a machine with two objects and in its image. -/
theorem invoke_opaque_swapped :
    ∃ s' t' w', invoke Sample.context 9 Sample.run [] Sample.paired =
        some (.ok (some (.int32 7)), s') ∧
      invoke Sample.context 9 Sample.run [] Sample.swapped =
        some (.ok (some (.int32 7)), t') ∧
      s'.Image w' t' ∧ w'.rel ⟨1⟩ ⟨2⟩ := by
  have hruns : Sample.paired.RunsOnly Sample.context Native.Plain := Sample.runsOnly .nothing rfl
  have hm : Sample.run.Runs Native.Plain := by
    rintro routine ⟨⟩
  have hrun : (invoke Sample.context 9 Sample.run [] Sample.paired).map Prod.fst =
      some (.ok (some (.int32 7))) := by decide +kernel
  obtain ⟨⟨_, s'⟩, hs', rfl⟩ := Option.map_eq_some_iff.1 hrun
  have hopaque := invoke_opaque hruns hm Sample.swapped_image .nil 9
  rw [hs'] at hopaque
  generalize ht : invoke Sample.context 9 Sample.run [] Sample.swapped = y at hopaque
  cases hopaque with
  | @some _ q hq =>
      obtain ⟨v, t'⟩ := q
      obtain ⟨w', hle, hv, himage⟩ := hq
      cases hv with
      | ok hv =>
          cases hv with
          | some hv =>
              cases hv
              exact ⟨s', t', w', hs', rfl, himage, hle _ _ (.inl ⟨rfl, rfl⟩)⟩

end Machine

end CilMachine
