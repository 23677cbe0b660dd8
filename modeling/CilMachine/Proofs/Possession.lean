/-
CilMachine/Proofs/Possession.lean

The handles that code has.  Code passes handles on and cannot make them up: what is on the operand
stack of a frame came from an argument, from a field or a slot, or from an addition to the heap.  So
let a set of handles be closed in this sense: objects of the set hold only handles of the set.  Then
code that starts with handles of the set never leaves it, but for the objects that it adds.

As a correspondence (`possessing`), this relates machines to themselves; the worlds are the sets.
What else is known of the set and the heap is a parameter, and has to survive the replacement of an
object in the set and the addition of a new one (`Possession`).
-/
import CilMachine.Proofs.Simulation

namespace CilMachine

namespace Correspondence

open Machine

variable {ctx : Context} {P : Native → Prop} {failure : Failure → Prop}
  {I : (Handle → Prop) → Heap → Prop} {w : Handle → Prop}

/-- What is asked of a condition on the handles that code has and on the heap.  Code may have a
handle that names no object only if it may fail for that. -/
structure Possession (failure : Failure → Prop) (I : (Handle → Prop) → Heap → Prop) : Prop where
  object : ∀ {w h r}, I w h → w r → (∃ o, h.get? r = some o ∧ ∀ q, o.Holds q → w q) ∨
    (h.get? r = none ∧ failure (.execution (.unresolved (.heapObject r))))
  replace : ∀ {w h r o p}, I w h → w r → h.get? r = some o → (∀ q, p.Holds q → w q) →
    I w (h.replace r p)
  alloc : ∀ {w h o}, I w h → (∀ q, ¬ o.Holds q) → I (fun q => w q ∨ q = h.next) (h.alloc o).2

/-- The correspondence of machines to themselves in which only the handles that code has stand for
themselves. -/
def possessing (I : (Handle → Prop) → Heap → Prop) (P : Native → Prop) (failure : Failure → Prop) :
    Correspondence (Handle → Prop) where
  le w w' := ∀ q, w q → w' q
  handle w r q := q = r ∧ w r
  heap w h k := k = h ∧ I w h
  callStacks := CallStack.SameShape
  counters _ _ := True
  answers d e := e = d ∧ d.Keeps (Method.Runs P)
  logs _ _ := True
  method := Method.Runs P
  failure := failure

theorem possessing_lawful (hI : Possession failure I)
    (hP : ∀ m, ctx.catalog.Declares m → m.Runs P) (hfailure : ∀ f, f.IsOrdinary → failure f) :
    (possessing I P failure).Lawful ctx ctx where
  catalog := rfl
  refl _ _ h := h
  trans h h' q hq := h' q (h q hq)
  mono h := And.imp_right (h _)
  biUnique _ := ⟨fun _ _ _ h h' => h.1.symm.trans h'.1, fun _ _ _ h h' => h.1.trans h'.1.symm⟩
  ordinary h := hfailure _ h
  size := by
    rintro w h _ ⟨rfl, -⟩
    rfl
  object := by
    rintro w _ h _ r ⟨rfl, hh⟩ ⟨rfl, hr⟩
    rcases hI.object hh hr with ⟨o, ho, hholds⟩ | ⟨ho, hmissing⟩
    · exact .inl ⟨o, o, ho, ho, HeapObject.rel_self fun q hq => ⟨rfl, hholds q hq⟩⟩
    · exact .inr ⟨ho, ho, rfl, hmissing⟩
  setField := by
    rintro w h _ _ r type fields _ name v u ⟨rfl, hh⟩ ⟨rfl, hr⟩ ho hp hv - -
    cases ho.symm.trans hp
    obtain rfl : v = u := (hv.mono fun _ _ h => h.1.symm).eq
    refine ⟨rfl, hI.replace hh hr ho ?_⟩
    -- a handle in the object afterwards was in it before, or has just been stored
    rintro q ⟨name', hmem⟩
    rcases Named.mem_put hmem with hmem | heq
    · rcases hI.object hh hr with ⟨o, ho', hholds⟩ | ⟨hnone, -⟩
      · cases ho.symm.trans ho'
        exact hholds q ⟨name', hmem⟩
      · cases ho.symm.trans hnone
    · obtain rfl : Value.object q = v := congrArg Prod.snd heq
      obtain ⟨_, -, hq⟩ := hv.of_object
      exact hq
  setElement := by
    rintro w h _ _ r element items _ i n ⟨rfl, hh⟩ ⟨rfl, hr⟩ ho hp -
    cases ho.symm.trans hp
    -- arrays of values have no slots for handles
    exact ⟨rfl, hI.replace hh hr ho fun q hq => hq.elim⟩
  setReference := by
    rintro w h _ _ r element slots _ i a b ⟨rfl, hh⟩ ⟨rfl, hr⟩ ho hp hab -
    cases ho.symm.trans hp
    have hb : b = a ∧ ∀ q, a = some q → w q := by
      cases hab with
      | none => exact ⟨rfl, fun _ h => by cases h⟩
      | some hab =>
          obtain ⟨rfl, ha⟩ := hab
          exact ⟨rfl, fun _ h => by cases h; exact ha⟩
    obtain ⟨rfl, ha⟩ := hb
    refine ⟨rfl, hI.replace hh hr ho fun q hq => ?_⟩
    rcases Array.mem_or_eq_of_mem_setIfInBounds hq with hq | hq
    · rcases hI.object hh hr with ⟨o, ho', hholds⟩ | ⟨hnone, -⟩
      · cases ho.symm.trans ho'
        exact hholds q hq
      · cases ho.symm.trans hnone
    · exact ha q hq.symm
  alloc := by
    rintro w h _ o ⟨rfl, hh⟩ ho
    exact ⟨_, fun q => .inl, ⟨rfl, hI.alloc hh ho.not_holds⟩, rfl, .inr rfl⟩
  continues := CallStack.SameShape.continues
  count _ _ := trivial
  record _ _ _ := trivial
  dispatch := by
    rintro d _ declared runtime ⟨rfl, hd⟩
    refine (hd.resolve_alike hP declared runtime).mono (fun e he => hfailure _ he) ?_
    rintro p _ ⟨rfl, hp, hkeeps⟩
    exact ⟨rfl, hp, rfl, hkeeps⟩
  declared h := hP _ h

/-- Values correspond to themselves if code has the handles among them. -/
theorem possessing_values {args : List Value} (hargs : ∀ q, .object q ∈ args → w q) :
    ValuesRel ((possessing I P failure).handle w) args args :=
  valuesRel_self fun q hq => ⟨rfl, hargs q hq⟩

/-- What a routine of this correspondence does: it keeps to the handles that it is given, but for
those of the objects that it adds, and fails as it may. -/
theorem possessing_routine {headers : Headers} {routine : Native} :
    (possessing I P failure).Routine headers routine ↔
      ∀ w args h r k, I w h → (∀ q, .object q ∈ args → w q) →
        (routine.run headers args).run.run h = (r, k) →
        ∃ w', (∀ q, w q → w' q) ∧ I w' k ∧ Only failure r ∧
          ∀ q, r = .ok (some (.object q)) → w' q := by
  constructor
  · intro hroutine w args h r k hh hargs hrun
    obtain ⟨w', hle, ⟨-, hk⟩, hr⟩ := hroutine ⟨rfl, hh⟩ (possessing_values hargs)
    rw [hrun] at hk hr
    refine ⟨w', hle, hk, hr.only, ?_⟩
    rintro q rfl
    cases hr with
    | ok hv =>
        cases hv with
        | some hv =>
            obtain ⟨_, -, hq⟩ := hv.of_object
            exact hq
  · rintro hkeeps w _ h args args' ⟨rfl, hh⟩ hargs
    have hpossessed : ∀ q, .object q ∈ args → w q := fun q hq => by
      obtain ⟨_, -, hq⟩ := hargs.of_mem hq
      exact hq
    obtain rfl := (hargs.mono fun _ _ h => h.1.symm).eq
    rcases hrun : (routine.run headers args).run.run h with ⟨r, k⟩
    obtain ⟨w', hle, hk, hfails, hr⟩ := hkeeps w args h r k hh hpossessed hrun
    refine ⟨w', hle, ⟨rfl, hk⟩, ?_⟩
    rcases r with e | - | v
    · exact .error (hfails e rfl)
    · exact .ok .none
    · refine .ok (.some (Value.rel_self fun q hq => ⟨rfl, hr q ?_⟩))
      rw [hq]

end Correspondence

end CilMachine
