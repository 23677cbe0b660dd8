/-
CilMachine/Proofs/Outcome.lean

Outcomes of computations that may fail, and how operations of the machine and runs of code compose.

`Only P x` says that `x` fails in no way but those in `P`.  `Alike P A x y` compares two
computations: either both fail, with one and the same failure in `P`, or both succeed and `A`
relates their values. Both notions pass through binds, so a fact about a computation is put together
from facts about its parts.

An operation of the machine is a function of the machine before it, and a run is a partial one.  The
equations `op_bind_apply` and `Run.bind_apply` say what sequencing means in these terms.
-/
import CilMachine.Machine.Run
import Mathlib.Data.List.Forall2
import Mathlib.Tactic.Common

namespace CilMachine

variable {ε α β γ δ : Type}

/-! ### Failures of one computation -/

theorem bind_eq_ok {x : Except ε α} {f : α → Except ε β} {b : β} (h : x >>= f = .ok b) :
    ∃ a, x = .ok a ∧ f a = .ok b := by
  rcases x with e | a
  · cases h
  · exact ⟨a, rfl, h⟩

theorem map_eq_ok {x : Except ε α} {f : α → β} {b : β} (h : x.map f = .ok b) :
    ∃ a, x = .ok a ∧ f a = b := by
  rcases x with e | a
  · cases h
  · exact ⟨a, rfl, Except.ok.inj h⟩

/-- Every failure of the computation is in `P`. -/
def Only (P : ε → Prop) (x : Except ε α) : Prop := ∀ e, x = .error e → P e

theorem only_ok {P : ε → Prop} {a : α} : Only P (.ok a) := by
  intro e he
  cases he

theorem only_error {P : ε → Prop} {e : ε} (h : P e) : Only P (.error e : Except ε α) := by
  rintro _ ⟨⟩
  exact h

theorem Only.imp {P Q : ε → Prop} {x : Except ε α} (hx : Only P x) (h : ∀ e, P e → Q e) :
    Only Q x :=
  fun e he => h e (hx e he)

theorem Only.bind {P : ε → Prop} {x : Except ε α} {f : α → Except ε β} (hx : Only P x)
    (hf : ∀ a, x = .ok a → Only P (f a)) : Only P (x >>= f) := by
  rcases x with e | a
  · exact only_error (hx e rfl)
  · exact hf a rfl

theorem Only.map {P : ε → Prop} {x : Except ε α} (hx : Only P x) (f : α → β) :
    Only P (x.map f) := by
  rcases x with e | a
  · exact only_error (hx e rfl)
  · exact only_ok

theorem only_foldlM {P : ε → Prop} {f : β → α → Except ε β} (hf : ∀ b a, Only P (f b a)) :
    ∀ (as : List α) (b : β), Only P (as.foldlM f b)
  | [], _ => only_ok
  | a :: as, b => by
    rw [List.foldlM_cons]
    exact (hf b a).bind fun b' _ => only_foldlM hf as b'

/-! ### Two computations -/

/-- Both computations fail with one failure, which is in `P`, or `A` relates what they yield. -/
inductive Alike (P : ε → Prop) (A : α → β → Prop) : Except ε α → Except ε β → Prop
  | ok {a b} : A a b → Alike P A (.ok a) (.ok b)
  | error {e} : P e → Alike P A (.error e) (.error e)

namespace Alike

theorem mono {P Q : ε → Prop} {A B : α → β → Prop} {x : Except ε α} {y : Except ε β}
    (h : Alike P A x y) (hPQ : ∀ e, P e → Q e) (hAB : ∀ a b, A a b → B a b) : Alike Q B x y := by
  cases h with
  | ok ha => exact .ok (hAB _ _ ha)
  | error he => exact .error (hPQ _ he)

theorem imp {P : ε → Prop} {A B : α → β → Prop} {x : Except ε α} {y : Except ε β}
    (h : Alike P A x y) (hAB : ∀ a b, A a b → B a b) : Alike P B x y :=
  h.mono (fun _ he => he) hAB

theorem bind {P : ε → Prop} {A : α → β → Prop} {B : γ → δ → Prop} {x : Except ε α}
    {y : Except ε β} {f : α → Except ε γ} {g : β → Except ε δ} (h : Alike P A x y)
    (hfg : ∀ a b, A a b → Alike P B (f a) (g b)) : Alike P B (x >>= f) (y >>= g) := by
  cases h with
  | ok ha => exact hfg _ _ ha
  | error he => exact .error he

theorem map {P : ε → Prop} {A : α → β → Prop} {B : γ → δ → Prop} {x : Except ε α}
    {y : Except ε β} {f : α → γ} {g : β → δ} (h : Alike P A x y)
    (hfg : ∀ a b, A a b → B (f a) (g b)) : Alike P B (x.map f) (y.map g) := by
  cases h with
  | ok ha => exact .ok (hfg _ _ ha)
  | error he => exact .error he

/-- The related values are those that the first computation yields. -/
theorem self {P : ε → Prop} {A : α → β → Prop} {x : Except ε α} {y : Except ε β}
    (h : Alike P A x y) : Alike P (fun a b => A a b ∧ x = .ok a) x y := by
  cases h with
  | ok ha => exact .ok ⟨ha, rfl⟩
  | error he => exact .error he

/-- A computation is alike to itself. -/
theorem of_only {P : ε → Prop} {x : Except ε α} (h : Only P x) :
    Alike P (fun a b => a = b ∧ x = .ok a) x x := by
  rcases x with e | a
  · exact .error (h e rfl)
  · exact .ok ⟨rfl, rfl⟩

theorem eq {P : ε → Prop} {x y : Except ε α} (h : Alike P Eq x y) : x = y := by
  cases h with
  | ok ha => exact congrArg Except.ok ha
  | error _ => rfl

theorem only {P : ε → Prop} {A : α → β → Prop} {x : Except ε α} {y : Except ε β}
    (h : Alike P A x y) : Only P x := by
  cases h with
  | ok _ => exact only_ok
  | error he => exact only_error he

end Alike

/-! ### Operations and runs as functions of the state -/

/-- Sequencing of computations that change a state and may fail. -/
theorem op_bind_apply {σ : Type} (x : ExceptT ε (StateM σ) α) (f : α → ExceptT ε (StateM σ) β)
    (s : σ) :
    (x >>= f) s = match x s with
      | (.ok a, s') => f a s'
      | (.error e, s') => (.error e, s') := by
  show ExceptT.bind x f s = _
  simp only [ExceptT.bind, ExceptT.mk, bind, StateT.bind]
  rcases x s with ⟨_ | _, _⟩ <;> rfl

theorem op_discard_apply {σ : Type} (x : ExceptT ε (StateM σ) α) (s : σ) :
    (discard x) s = ((x s).1.map fun _ => (), (x s).2) := by
  show (ExceptT.map (fun _ => ()) x) s = _
  simp only [ExceptT.map, ExceptT.mk, bind, StateT.bind]
  rcases x s with ⟨_ | _, _⟩ <;> rfl

/-- A computation that does not touch the state. -/
theorem op_lift_apply {σ : Type} (x : Except ε α) (s : σ) :
    (liftM x : ExceptT ε (StateM σ) α) s = (x, s) := by
  cases x <;> rfl

namespace Machine

/-- A computation that does not touch the machine, as an operation. -/
theorem lift_apply (x : Except ExecError α) (s : Machine) :
    (liftM x : Op α) s = (x.mapError .execution, s) := by
  cases x <;> rfl

theorem count_apply (f : Stats → Stats) (s : Machine) :
    count f s = (.ok (), { s with stats := f s.stats }) := rfl

theorem recordIf_apply (traced : Bool) (e : Event) (s : Machine) :
    recordIf traced e s = (.ok (), { s with log := if traced then s.log.push e else s.log }) := by
  cases traced <;> rfl

theorem frame_apply (s : Machine) : frame s = (s.calls.current.mapError .execution, s) := by
  show (liftM s.calls.current : Op Frame) s = _
  rw [lift_apply]

theorem onHeap_apply (x : Heap.Op α) (s : Machine) :
    onHeap x s = ((x.run.run s.heap).1, { s with heap := (x.run.run s.heap).2 }) := by
  have hmodify {β : Type} (f : Machine → β × Machine) :
      (modifyGet f : Op β) s = (.ok (f s).1, (f s).2) := rfl
  rw [onHeap, op_bind_apply, hmodify]
  dsimp only
  rcases x.run.run s.heap with ⟨e | a, h⟩ <;> rfl

end Machine

namespace Run

theorem bind_apply (x : Run α) (f : α → Run β) (s : Machine) :
    (x >>= f) s = match x s with
      | none => none
      | some (.ok a, s') => f a s'
      | some (.error e, s') => some (.error e, s') := by
  show ExceptT.bind x f s = _
  simp only [ExceptT.bind, ExceptT.mk, bind, StateT.bind]
  rcases x s with _ | ⟨_ | _, _⟩ <;> rfl

theorem lift_apply (x : Machine.Op α) (s : Machine) : (liftM x : Run α) s = some (x s) := rfl

theorem discard_apply (x : Run α) (s : Machine) :
    (discard x) s = (x s).map fun p => (p.1.map fun _ => (), p.2) := by
  show (ExceptT.map (fun _ => ()) x) s = _
  simp only [ExceptT.map, ExceptT.mk, bind, StateT.bind]
  rcases x s with - | ⟨_ | _, _⟩ <;> rfl

theorem tryCatch_apply (x : Run α) (f : Failure → Run α) (s : Machine) :
    (tryCatch x f) s = match x s with
      | some (.error e, s') => f e s'
      | r => r := by
  show (ExceptT.tryCatch x f) s = _
  simp only [ExceptT.tryCatch, ExceptT.mk, bind, StateT.bind]
  rcases x s with - | ⟨_ | _, _⟩ <;> rfl

theorem adapt_apply (f : Failure → Failure) (x : Run α) (s : Machine) :
    (x.adapt f) s = (x s).map fun p => (p.1.mapError f, p.2) := by
  show (do let r ← x; pure (r.mapError f) : StateT Machine Option (Except Failure α)) s = _
  simp only [bind, StateT.bind]
  rcases x s with _ | ⟨_, _⟩ <;> rfl

end Run

/-! ### Ordinary failures

What the catalog, the values and the operand stacks report, in contrast to a heap that does not have
an object and to an error that says where it arose.  Refusals, which decoding reports, are ordinary
as well; the other ordinary errors are plain. -/

/-- The error neither says where it arose nor that an object is missing. -/
def ExecError.isOrdinary : ExecError → Bool
  | fault _ _ => false
  | unresolved (.heapObject _) => false
  | _ => true

/-- The error is that of an instruction which nothing executes, or which lacks its operand. -/
def ExecError.isRefusal : ExecError → Bool
  | unsupportedInstruction _ _ | invalidOperand _ _ => true
  | _ => false

/-- The error is ordinary, and not a refusal. -/
def ExecError.isPlain (e : ExecError) : Bool := e.isOrdinary && !e.isRefusal

/-- The failure is no execution error, or an ordinary one. -/
def Failure.IsOrdinary : Failure → Prop
  | execution e => e.isOrdinary = true
  | _ => True

/-- To say where an error arose does not change its cause. -/
theorem Failure.locate_execution (site : Site) (e : ExecError) :
    ∃ e', (execution e).locate site = execution e' ∧ e'.cause = e.cause := by
  cases h : e.isLocated
  · exact ⟨.fault site e, by simp [locate, h], rfl⟩
  · exact ⟨e, by simp [locate, h], rfl⟩

/-- The computation fails with ordinary errors only. -/
abbrev OnlyOrdinary (x : Except ExecError α) : Prop := Only (fun e => e.isOrdinary = true) x

/-- The computation fails with plain errors only. -/
abbrev OnlyPlain (x : Except ExecError α) : Prop := Only (fun e => e.isPlain = true) x

/-- The computations come out alike, and fail with ordinary errors only. -/
abbrev AlikeOrdinary (A : α → β → Prop) (x : Except ExecError α) (y : Except ExecError β) : Prop :=
  Alike (fun e => e.isOrdinary = true) A x y

theorem OnlyPlain.ordinary {x : Except ExecError α} (h : OnlyPlain x) : OnlyOrdinary x :=
  h.imp fun _ he => (Bool.and_eq_true_iff.1 he).1

end CilMachine
