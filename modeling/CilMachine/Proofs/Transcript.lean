/-
CilMachine/Proofs/Transcript.lean

Logs that are read as nested calls.  A call opens, a return closes the call that was opened last,
and an instruction belongs to that call; `Event.follow` says which calls are then open, and refuses
what does not fit: a return or an instruction of another method, and a call that is not one deeper
than the one that makes it.

What is read without leaving a call open is well nested (`wellNested_of_read`).
-/
import CilMachine.Event
import Mathlib.Data.List.Basic

namespace CilMachine

/-- The calls that are open, the innermost one first: their methods, and how deep they are. -/
abbrev OpenCalls := List (String × Nat)

/-- How deep the innermost call is.  The base is how deep it is where no call is open. -/
def OpenCalls.depth (base : Nat) : OpenCalls → Nat
  | [] => base
  | (_, depth) :: _ => depth

namespace Event

/-- The method that is called, and how deep the call is. -/
def called? : Event → Option (String × Nat)
  | called method depth => some (method, depth)
  | _ => none

/-- Whether an instruction is executed. -/
def isExecuting : Event → Bool
  | executing _ _ _ _ => true
  | _ => false

/-- Whether a method returns. -/
def isReturned : Event → Bool
  | returned _ _ => true
  | _ => false

/-- Whether the event is none of a call, a return and an instruction. -/
def isAside : Event → Bool
  | called _ _ | returned _ _ | executing _ _ _ _ => false
  | _ => true

/-- The calls that are open after the event, if it fits those that were open before. -/
def follow (base : Nat) (calls : OpenCalls) : Event → Option OpenCalls
  | called method depth =>
    if depth = calls.depth base + 1 then some ((method, depth) :: calls) else none
  | returned method _ => if calls.head?.map Prod.fst = some method then some calls.tail else none
  | executing method _ _ _ => if calls.head?.map Prod.fst = some method then some calls else none
  | _ => some calls

/-- The calls that are open after all the events. -/
def read (base : Nat) (calls : OpenCalls) (lines : List Event) : Option OpenCalls :=
  lines.foldlM (follow base) calls

/-- The events are calls one after another, each with the events of its own until it returns.  The
number is how deep they are made. -/
inductive WellNested : Nat → List Event → Prop
  | nil {depth : Nat} : WellNested depth []
  | call {depth : Nat} {method : String} {value : Option Value} {body rest : List Event} :
      WellNested (depth + 1) body → WellNested depth rest →
      WellNested depth (called method (depth + 1) :: (body ++ returned method value :: rest))
  | other {depth : Nat} {e : Event} {rest : List Event} : e.called? = none →
      e.isReturned = false → WellNested depth rest → WellNested depth (e :: rest)

variable {base depth : Nat} {calls calls' : OpenCalls} {lines lines' : List Event} {e : Event}
  {method : String}

theorem called?_of_isAside (h : e.isAside = true) : e.called? = none := by
  cases e <;> first | rfl | cases h

theorem isExecuting_of_isAside (h : e.isAside = true) : e.isExecuting = false := by
  cases e <;> first | rfl | cases h

theorem follow_of_isAside (h : e.isAside = true) : follow base calls e = some calls := by
  cases e <;> first | rfl | cases h

/-! ### Reading -/

theorem read_cons : read base calls (e :: lines) =
    (follow base calls e).bind fun calls => read base calls lines := List.foldlM_cons

theorem read_append : read base calls (lines ++ lines') =
    (read base calls lines).bind fun calls => read base calls lines' := List.foldlM_append

theorem read_singleton : read base calls [e] = follow base calls e := by
  rw [read_cons]
  cases follow base calls e <;> rfl

theorem read_of_isAside (h : ∀ e ∈ lines, e.isAside = true) :
    read base calls lines = some calls := by
  induction lines with
  | nil => rfl
  | cons e lines ih =>
      rw [read_cons, follow_of_isAside (h e List.mem_cons_self)]
      exact ih fun e he => h e (List.mem_cons_of_mem _ he)

theorem follow_called (h : depth = calls.depth base + 1) :
    follow base calls (called method depth) = some ((method, depth) :: calls) := if_pos h

theorem follow_returned (value : Option Value) :
    follow base ((method, depth) :: calls) (returned method value) = some calls := if_pos rfl

theorem follow_executing (h : calls.head? = some (method, depth)) (offset : Nat) (mnemonic : String)
    (height : Nat) : follow base calls (executing method offset mnemonic height) = some calls :=
  if_pos (by rw [h]; rfl)

/-- What fits: a call that is one deeper than the innermost one, a return of the innermost one, or
an event that opens and closes nothing. -/
theorem follow_cases (h : follow base calls e = some calls') :
    (∃ method, e = called method (calls.depth base + 1) ∧
      calls' = (method, calls.depth base + 1) :: calls) ∨
    (∃ method depth value, e = returned method value ∧ calls = (method, depth) :: calls') ∨
    (e.called? = none ∧ e.isReturned = false ∧ calls' = calls) := by
  cases e with
  | called method depth =>
      obtain ⟨rfl, hcalls⟩ := Option.ite_none_right_eq_some.1 h
      exact .inl ⟨method, rfl, (Option.some.inj hcalls).symm⟩
  | returned method value =>
      obtain ⟨hmethod, hcalls⟩ := Option.ite_none_right_eq_some.1 h
      obtain rfl := Option.some.inj hcalls
      rcases calls with - | ⟨⟨outer, depth⟩, calls⟩
      · cases hmethod
      · obtain rfl := Option.some.inj hmethod
        exact .inr (.inl ⟨outer, depth, value, rfl, rfl⟩)
  | executing method _ _ _ =>
      obtain ⟨-, hcalls⟩ := Option.ite_none_right_eq_some.1 h
      exact .inr (.inr ⟨rfl, rfl, (Option.some.inj hcalls).symm⟩)
  | _ => exact .inr (.inr ⟨rfl, rfl, (Option.some.inj h).symm⟩)

/-- Every return closes one call. -/
theorem length_of_read (h : read base calls lines = some calls') :
    calls'.length + lines.countP isReturned =
      calls.length + (lines.filterMap called?).length := by
  induction lines generalizing calls with
  | nil =>
      obtain rfl := Option.some.inj h
      rfl
  | cons e lines ih =>
      rw [read_cons] at h
      obtain ⟨calls₁, hfollow, hread⟩ := Option.bind_eq_some_iff.1 h
      have hlength := ih hread
      rcases follow_cases hfollow with ⟨method, rfl, rfl⟩ | ⟨method, depth, value, rfl, rfl⟩ |
        ⟨hcalled, hreturned, rfl⟩
      · have hcalled : (called method (calls.depth base + 1)).called? = some _ := rfl
        rw [List.countP_cons_of_neg Bool.false_ne_true, List.filterMap_cons_some hcalled]
        rw [List.length_cons] at hlength ⊢
        omega
      · rw [List.countP_cons_of_pos rfl, List.filterMap_cons_none rfl, List.length_cons]
        omega
      · rw [List.countP_cons_of_neg (by rw [hreturned]; exact Bool.false_ne_true),
          List.filterMap_cons_none hcalled, hlength]

/-! ### Nesting -/

/-- The events close the calls one after another, and are well nested in between. -/
def Closes (base : Nat) : OpenCalls → List Event → Prop
  | [], lines => WellNested base lines
  | (method, depth) :: calls, lines => ∃ body value rest,
      lines = body ++ returned method value :: rest ∧ WellNested depth body ∧ Closes base calls rest

theorem Closes.other (hcalled : e.called? = none) (hreturned : e.isReturned = false)
    (h : Closes base calls lines) : Closes base calls (e :: lines) := by
  rcases calls with - | ⟨⟨method, depth⟩, calls⟩
  · exact .other hcalled hreturned h
  · obtain ⟨body, value, rest, rfl, hbody, hrest⟩ := h
    exact ⟨e :: body, value, rest, rfl, .other hcalled hreturned hbody, hrest⟩

theorem Closes.called (h : Closes base ((method, calls.depth base + 1) :: calls) lines) :
    Closes base calls (called method (calls.depth base + 1) :: lines) := by
  obtain ⟨body, value, rest, rfl, hbody, hrest⟩ := h
  rcases calls with - | ⟨⟨outer, depth⟩, calls⟩
  · exact .call hbody hrest
  · -- the call is part of the one that makes it
    obtain ⟨after, value', rest', rfl, hafter, hrest'⟩ := hrest
    have hcall : WellNested depth
        (Event.called method (depth + 1) :: (body ++ returned method value :: after)) :=
      .call hbody hafter
    refine ⟨_, value', rest', ?_, hcall, hrest'⟩
    simp only [OpenCalls.depth, List.cons_append, List.append_assoc]

theorem closes_of_read (h : read base calls lines = some []) : Closes base calls lines := by
  induction lines generalizing calls with
  | nil =>
      obtain rfl := Option.some.inj h
      exact .nil
  | cons e lines ih =>
      rw [read_cons] at h
      obtain ⟨calls', hfollow, hread⟩ := Option.bind_eq_some_iff.1 h
      have hcloses := ih hread
      rcases follow_cases hfollow with ⟨method, rfl, rfl⟩ | ⟨method, depth, value, rfl, rfl⟩ |
        ⟨hcalled, hreturned, rfl⟩
      · exact hcloses.called
      · exact ⟨[], value, lines, rfl, .nil, hcloses⟩
      · exact hcloses.other hcalled hreturned

/-- What is read without leaving a call open is well nested. -/
theorem wellNested_of_read (h : read base [] lines = some []) : WellNested base lines :=
  closes_of_read h

end Event

end CilMachine
