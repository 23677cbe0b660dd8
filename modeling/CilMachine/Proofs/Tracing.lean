/-
CilMachine/Proofs/Tracing.lean

Tracing does not matter to a run.  Two settings of the tracing make a difference to the log and to
nothing else: a run ends with both or with neither, with one result, in one machine but for its log
(`runs_unlogged_eq`).

The log is written only, so there is little to it where lines are added without further ado.  But
the line for an instruction gives the height of the operand stack, and the frame is looked up for
it; without a frame, a traced run would fail where another goes on.  That there always is one is
part of following a body (`runBody_follows`): a method is run in a frame of its own, and whatever is
executed continues the stack that it began with.
-/
import CilMachine.Proofs.Memoization

namespace CilMachine

open Correspondence

variable {α : Type}

/-- The machine without its log. -/
def Machine.unlogged (s : Machine) : Machine := { s with log := #[] }

/-- The same machine with another log. -/
def Machine.withLog (s : Machine) (log : Array Event) : Machine := { s with log }

/-- What a run comes to, apart from what it logs. -/
def Run.unlogged (x : Run α) (s : Machine) : Option (Except Failure α × Machine) :=
  (x s).map (Prod.map id Machine.unlogged)

namespace Machine

variable {catalog : Catalog} {tracing tracing' : Tracing} {fuel : Nat} {m : Method}
  {ctor : MethodRef} {args : List Value} {s t : Machine}

/-- Machines with one heap and stacks of one shape, which may log what they like. -/
def logging : Correspondence Unit :=
  sameHeap CallStack.SameShape Eq Eq (fun _ _ => True) (fun _ => True) (fun _ => True)

theorem logging_lawful (catalog : Catalog) (tracing tracing' : Tracing) :
    logging.LawfulRuns { catalog, tracing } { catalog, tracing := tracing' } (fun _ => False)
      fun _ => True := by
  refine lawfulRuns_of_sameShape ?_ rfl (fun _ _ _ => trivial)
    fun _ _ => sameHeap_routine fun _ _ _ _ => trivial
  refine sameHeap_lawful rfl (fun _ => trivial) (fun _ => trivial) CallStack.SameShape.continues
    (fun f h => congrArg f h) (fun _ _ _ => trivial) ?_ fun _ => trivial
  rintro d _ declared runtime rfl
  refine (Alike.of_only (d.resolve_onlyPlain catalog declared runtime).ordinary).mono
    (fun _ _ => trivial) ?_
  rintro p _ ⟨rfl, -⟩
  exact ⟨rfl, trivial, rfl⟩

theorem machines_withLog (s : Machine) (log : Array Event) :
    logging.Machines () s (s.withLog log) :=
  ⟨rfl, Frame.option_rel_eq s.calls.frames.head?, .refl _, rfl, rfl, trivial⟩

/-- Corresponding machines whose call stacks have come from one stack differ in their logs only. -/
theorem unlogged_eq {c : CallStack} (h : logging.Machines () s t) (hs : c.Continues s.calls)
    (ht : c.Continues t.calls) : t.unlogged = s.unlogged := by
  have hcalls : t.calls = s.calls := hs.eq_of_frame ht h.frame
  have hheap : s.heap = t.heap := h.heap
  have hstats : s.stats = t.stats := h.counters
  have hdispatch : s.dispatch = t.dispatch := h.answers
  rw [unlogged, unlogged, hheap, hcalls, hstats, hdispatch]

/-- A run that is followed by another one in both directions comes to the same as that. -/
theorem unlogged_eq_of_follows {x y : Run α} {E : Unit → α → α → Prop}
    (hE : ∀ a b, E () a b → a = b)
    (hx : ∀ s r s', x s = some (r, s') → s.calls.Continues s'.calls)
    (hy : ∀ s r s', y s = some (r, s') → s.calls.Continues s'.calls) {log : Array Event}
    (hxy : logging.Follows (fun _ => False) logging.Machines () x y E s (s.withLog log))
    (hyx : logging.Follows (fun _ => False) logging.Machines () y x E (s.withLog log) s) :
    Run.unlogged x s = Run.unlogged y (s.withLog log) := by
  unfold Run.unlogged
  rcases hrun : x s with - | ⟨r, u⟩
  · rcases hrun' : y (s.withLog log) with - | ⟨q, v⟩
    · rfl
    · -- the second run does not end alone
      obtain ⟨_, _, _, -, hends, -⟩ := hyx.ends hrun'
      cases hrun.symm.trans hends
  · obtain ⟨_, q, v, -, hrun', huv, hrq⟩ := hxy.ends hrun
    have hresult : r = q := by
      cases hrq with
      | error _ => rfl
      | ok hab => rw [hE _ _ hab]
    have hv : s.calls.Continues v.calls := hy (s.withLog log) _ _ hrun'
    have hmachine : v.unlogged = u.unlogged := unlogged_eq huv (hx s _ _ hrun) hv
    rw [hrun']
    show some (r, u.unlogged) = some (q, v.unlogged)
    rw [hresult, hmachine]

theorem invoke_unlogged (log : Array Event) :
    Run.unlogged (invoke { catalog, tracing } fuel m args) s =
      Run.unlogged (invoke { catalog, tracing := tracing' } fuel m args) (s.withLog log) :=
  unlogged_eq_of_follows (E := fun _ => Option.Rel (Value.Rel Eq))
    (fun _ _ => Value.eq_of_option_rel) (fun _ _ _ => invoke_continues)
    (fun _ _ _ => invoke_continues)
    (invoke_follows_machines (logging_lawful catalog tracing tracing') trivial trivial
      (valuesRel_eq args) (machines_withLog s log))
    (invoke_follows_machines (logging_lawful catalog tracing' tracing) trivial trivial
      (valuesRel_eq args) (machines_withLog (s.withLog log) s.log))

theorem construct_unlogged (log : Array Event) :
    Run.unlogged (construct { catalog, tracing } fuel ctor args) s =
      Run.unlogged (construct { catalog, tracing := tracing' } fuel ctor args)
        (s.withLog log) :=
  unlogged_eq_of_follows (E := fun _ => Eq) (fun _ _ hab => hab)
    (fun _ _ _ => construct_continues) (fun _ _ _ => construct_continues)
    (construct_follows (logging_lawful catalog tracing tracing') (valuesRel_eq args)
      (machines_withLog s log))
    (construct_follows (logging_lawful catalog tracing' tracing) (valuesRel_eq args)
      (machines_withLog (s.withLog log) s.log))

/-- **Tracing is transparent.**  Whatever is traced, and whatever has been logged before, an
invocation or a construction comes to the same: both do not end, or they have the same result and
leave the same heap, frames, answers and counters. -/
theorem runs_unlogged_eq (catalog : Catalog) (tracing tracing' : Tracing) (fuel : Nat)
    (args : List Value) (s : Machine) (log : Array Event) :
    (∀ m, Run.unlogged (invoke { catalog, tracing } fuel m args) s =
      Run.unlogged (invoke { catalog, tracing := tracing' } fuel m args) (s.withLog log)) ∧
    ∀ ctor, Run.unlogged (construct { catalog, tracing } fuel ctor args) s =
      Run.unlogged (construct { catalog, tracing := tracing' } fuel ctor args) (s.withLog log) :=
  ⟨fun _ => invoke_unlogged log, fun _ => construct_unlogged log⟩

end Machine

end CilMachine
