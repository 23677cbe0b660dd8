/-
CilMachine/Proofs/Accounting.lean

How far the counter of allocations can be relied on.  An instruction counts each object that it
adds, in one move (`Moves.counts`).  What a native routine adds is counted when it has succeeded; if
it fails, what it has added until then is on the heap, and is not counted.

A failure ends the whole run.  So at most one native routine fails in the course of an invocation,
and the counter is short by what that routine had added, and exact if there is none.  This can be
told of the course of runs (`Machine.accounts_lawful`), and so of the host's operations
(`operations_account`); and there are programs that lose an object in this way
(`operations_account_uncounted`).
-/
import CilMachine.Native.Stock
import CilMachine.Proofs.Course

namespace CilMachine

theorem Native.allocString_apply (headers : Headers) (text : String) (h : Heap) :
    (Native.allocString headers text).run.run h =
      if headers.contains .string then (.ok h.next, (h.allocString .string text).2)
      else (.error (.unresolved (.type .string)), h) := by
  unfold Native.allocString
  split <;> rfl

namespace Machine

variable {α : Type} {ctx : Context} {fuel n : Nat} {m : Method} {args : List Value}
  {i : Instruction} {s t u : Machine} {lost lost' : Nat} {failed : Prop}

/-! ### Counting -/

/-- From the machine `s` to `u` objects have been added, and all but so many have been counted. -/
structure Counts (lost : Nat) (s u : Machine) : Prop where
  grows : s.heap.size ≤ u.heap.size
  counted : u.stats.allocations + lost = s.stats.allocations + (u.heap.size - s.heap.size)

theorem counts_of_eq (hheap : u.heap = s.heap)
    (hstats : u.stats.allocations = s.stats.allocations) : Counts 0 s u :=
  ⟨Nat.le_of_eq (by rw [hheap]), by rw [hheap, hstats, Nat.sub_self]⟩

theorem Counts.trans (hst : Counts lost s t) (htu : Counts lost' t u) :
    Counts (lost + lost') s u := by
  obtain ⟨hgrows, hcounted⟩ := hst
  obtain ⟨hgrows', hcounted'⟩ := htu
  exact ⟨Nat.le_trans hgrows hgrows', by omega⟩

/-- What is added in a move is counted in it. -/
theorem Move.counts (h : Move ctx s u) : Counts 0 s u := by
  cases h with
  | frame _ => exact counts_of_eq rfl rfl
  | write hwrite =>
      have hsize := hwrite.recasts.size_eq
      exact ⟨Nat.le_of_eq hsize.symm, by simp [hsize]⟩
  | @add o e _ _ =>
      have hsize := Heap.size_alloc s.heap o
      exact ⟨by simp [hsize], by simp [hsize]⟩
  | ask _ => exact counts_of_eq rfl rfl

theorem Moves.counts (h : Moves ctx s u) : Counts 0 s u := by
  induction h with
  | refl => exact counts_of_eq rfl rfl
  | tail _ hmove ih => exact ih.trans hmove.counts

/-! ### Accounts -/

/-- The invocation runs a native routine, which fails when it has added so many objects. -/
inductive Invocation.FailsAdding (ctx : Context) : Invocation → Nat → Prop
  | intro {fuel n : Nat} {m : Method} {args : List Value} {s : Machine} {calls : CallStack}
      {routine : Native} {e : Failure} {h : Heap} : s.calls.push m args = .ok calls →
      m.body = .native routine →
      (routine.run ctx.catalog.headers args).run.run s.heap = (.error e, h) →
      h.size = s.heap.size + n → FailsAdding ctx ⟨fuel + 1, m, args, s⟩ n

/-- What has not been counted is accounted for by the invocations in `I`: if one of them runs a
native routine that fails, then it is what that has added, and the whole has failed.  Else it is
nothing. -/
structure Accounts (ctx : Context) (I : Invocation → Prop) (failed : Prop) (lost : Nat)
    (s u : Machine) : Prop extends Counts lost s u where
  only : ∀ v n, I v → v.FailsAdding ctx n → failed ∧ n = lost
  loses : lost ≠ 0 → ∃ v, I v ∧ v.FailsAdding ctx lost

variable {I J K : Invocation → Prop} {failed' : Prop}

namespace Accounts

/-- What succeeds has lost nothing. -/
theorem exact (h : Accounts ctx I failed lost s u) (hfailed : ¬ failed) : lost = 0 := by
  by_contra hne
  obtain ⟨v, hv, hfails⟩ := h.loses hne
  exact hfailed (h.only v lost hv hfails).1

theorem of_counts (h : Counts 0 s u) (hI : ∀ v n, I v → ¬ v.FailsAdding ctx n) :
    Accounts ctx I failed 0 s u where
  toCounts := h
  only v n hv hfails := absurd hfails (hI v n hv)
  loses hne := absurd rfl hne

theorem congr (h : Accounts ctx I failed lost s u) (hJ : ∀ v, J v ↔ I v) :
    Accounts ctx J failed lost s u where
  toCounts := h.toCounts
  only v n hv hfails := h.only v n ((hJ v).1 hv) hfails
  loses hne := by
    obtain ⟨v, hv, hfails⟩ := h.loses hne
    exact ⟨v, (hJ v).2 hv, hfails⟩

theorem imp (h : Accounts ctx I failed lost s u) (hfailed : failed → failed') :
    Accounts ctx I failed' lost s u where
  toCounts := h.toCounts
  only v n hv hfails := (h.only v n hv hfails).imp_left hfailed
  loses := h.loses

/-- After what accounts for itself, all is counted. -/
theorem before (h : Accounts ctx I failed lost s t) (htu : Counts 0 t u) :
    Accounts ctx I failed lost s u where
  toCounts := h.toCounts.trans htu
  only := h.only
  loses := h.loses

/-- What goes on has not failed, so it has lost nothing, and nothing in it has failed. -/
theorem andThen (hst : Accounts ctx I False lost s t) (htu : Accounts ctx J failed lost' t u)
    (hK : ∀ v, K v ↔ I v ∨ J v) : Accounts ctx K failed lost' s u where
  toCounts := by
    obtain rfl := hst.exact id
    simpa using hst.toCounts.trans htu.toCounts
  only v n hv hfails := by
    rcases (hK v).1 hv with hv | hv
    · exact (hst.only v n hv hfails).1.elim
    · exact htu.only v n hv hfails
  loses hne := by
    obtain ⟨v, hv, hfails⟩ := htu.loses hne
    exact ⟨v, (hK v).2 (.inr hv), hfails⟩

end Accounts

/-! ### The course of runs -/

theorem Invocation.FailsAdding.does {v : Invocation} (h : v.FailsAdding ctx n) :
    ∃ routine, v.Does routine := by
  obtain ⟨hpush, hm, -, -⟩ := h
  exact ⟨_, .intro hpush hm⟩

section Natives

variable {calls : CallStack} {routine : Native} {h : Heap}

/-- What a routine has added is counted if it has succeeded. -/
theorem native_accounts (hroutine : routine.KeepsHistory ctx.catalog.headers)
    (hpush : s.calls.push m args = .ok calls) (hm : m.body = .native routine)
    {r : Except Failure (Option Value)}
    (hrun : (routine.run ctx.catalog.headers args).run.run s.heap = (r, h)) :
    ∃ lost, Accounts ctx (· = ⟨fuel + 1, m, args, s⟩) (Failed r) lost
      (entered ctx m calls s) (afterNative (entered ctx m calls s) h r) := by
  obtain ⟨rs, hhistory⟩ := hroutine args s.heap
  have hsize := hhistory.handles.2
  have hgrows := Nat.le_of_add_right_le (Nat.le_of_eq hsize.symm)
  rw [hrun] at hsize hgrows
  dsimp only at hsize
  rcases r with e | a
  · refine ⟨rs.length, ⟨⟨hgrows, ?_⟩, ?_, ?_⟩⟩
    · show s.stats.allocations + rs.length = s.stats.allocations + (h.size - s.heap.size)
      omega
    · rintro v n rfl ⟨hpush', hm', hrun', hsize'⟩
      cases hm.symm.trans hm'
      cases hrun.symm.trans hrun'
      exact ⟨⟨e, rfl⟩, by omega⟩
    · intro _
      exact ⟨_, rfl, .intro hpush hm hrun hsize⟩
  · refine ⟨0, .of_counts ⟨hgrows, rfl⟩ ?_⟩
    rintro v n rfl ⟨hpush', hm', hrun', hsize'⟩
    cases hm.symm.trans hm'
    cases hrun.symm.trans hrun'

end Natives

/-- What is not counted is what a failing routine has added.  If one of the invocations of a run is
that of a native routine which fails, then the counter of allocations is short by what this routine
had added, and the run has failed.  Else the counter grows with the heap. -/
theorem accounts_lawful (ctx : Context) :
    Course.Lawful ctx (Native.KeepsHistory ctx.catalog.headers)
      fun I failed s u => ∃ lost, Accounts ctx I failed lost s u where
  congr := by
    rintro I J failed s u ⟨lost, h⟩ hJ
    exact ⟨lost, h.congr hJ⟩
  imp := by
    rintro I failed failed' s u ⟨lost, h⟩ hfailed
    exact ⟨lost, h.imp hfailed⟩
  andThen := by
    rintro I J K failed s t u ⟨lost, hst⟩ ⟨lost', htu⟩ hK
    exact ⟨lost', hst.andThen htu hK⟩
  thenNotes := by
    rintro I failed s t u ⟨lost, hst⟩ htu
    exact ⟨lost, hst.before (counts_of_eq htu.heap htu.allocations)⟩
  moves hmoves := ⟨0, .of_counts hmoves.counts nofun⟩
  outright {v s} hv := by
    refine ⟨0, .of_counts (counts_of_eq rfl rfl) ?_⟩
    rintro v n rfl hfails
    obtain ⟨routine, hdoes⟩ := hfails.does
    exact hv routine hdoes
  routine hroutine hpush hm hrun := native_accounts hroutine hpush hm hrun

end Machine

/-! ### Operations of the host -/

namespace Host

open Machine

variable {ctx : Context} {fuel : Nat} {ref ctor : MethodRef} {args : List Value} {s u : Machine}

theorem invoke_accounts (hs : s.RunsOnly ctx (Native.KeepsHistory ctx.catalog.headers))
    {r : Except Failure (Option Value)} (h : Host.invoke ctx fuel ref args s = some (r, u)) :
    ∃ lost, Accounts ctx (InvocationRuns ctx fuel ref args s) (Failed r) lost s u := by
  obtain ⟨t, ⟨lost, haccounts⟩, ⟨rfl, -⟩ | ⟨m, -, -, heq⟩⟩ :=
    (accounts_lawful ctx).hostInvoke hs h
  · exact ⟨lost, haccounts⟩
  · exact ⟨lost, haccounts.before (counts_of_eq (by rw [heq]) (by rw [heq]))⟩

theorem construct_accounts (hs : s.RunsOnly ctx (Native.KeepsHistory ctx.catalog.headers))
    {r : Except Failure Handle} (h : Host.construct ctx fuel ctor args s = some (r, u)) :
    ∃ lost, Accounts ctx (ConstructionRuns ctx fuel ctor args (atEntry s)) (Failed r) lost s u := by
  obtain ⟨t, ⟨lost, haccounts⟩, heq⟩ := (accounts_lawful ctx).hostConstruct hs h
  exact ⟨lost, haccounts.before (counts_of_eq (by rw [heq]) (by rw [heq]))⟩

/-- A string is added and counted in one, and nothing is logged. -/
theorem allocString_apply (ctx : Context) (text : String) (s : Machine) :
    Host.allocString ctx text s =
      if ctx.catalog.headers.contains .string then
        (.ok (.object s.heap.next), { s with
          heap := (s.heap.allocString .string text).2
          stats := { s.stats with allocations := s.stats.allocations + 1 } })
      else (.error (.unresolved (.type .string)), s) := by
  rw [Host.allocString, op_bind_apply, onHeap_apply, Native.allocString_apply]
  by_cases htype : ctx.catalog.headers.contains .string = true
  · rw [if_pos htype, if_pos htype]
    rfl
  · rw [if_neg htype, if_neg htype]

/-- A string is counted if it has been added. -/
theorem allocString_counts (ctx : Context) (text : String) (s : Machine) :
    Counts 0 s (Host.allocString ctx text s).2 := by
  rw [allocString_apply]
  split
  · have hsize : (s.heap.allocString .string text).2.size = s.heap.size + 1 :=
      Heap.size_alloc s.heap _
    refine ⟨?_, ?_⟩
    · show s.heap.size ≤ (s.heap.allocString .string text).2.size
      omega
    · show s.stats.allocations + 1 + 0 =
        s.stats.allocations + ((s.heap.allocString .string text).2.size - s.heap.size)
      omega
  · exact counts_of_eq rfl rfl

/-- **Allocations are counted, but for those of a routine that fails.**  When native routines act on
the heap by additions and writes only, the counter grows with the number of objects, less what has
been lost; and nothing has been lost unless the operation has failed, and among the invocations that
it made there is that of a native routine which failed when it had added so many.  To add a string
for the host is counted in any case. -/
theorem operations_account (hs : s.RunsOnly ctx (Native.KeepsHistory ctx.catalog.headers)) :
    (∀ fuel ref args r u, Host.invoke ctx fuel ref args s = some (r, u) →
      ∃ lost, Accounts ctx (InvocationRuns ctx fuel ref args s) (Failed r) lost s u ∧
        (r.isOk → lost = 0)) ∧
    (∀ fuel ctor args r u, Host.construct ctx fuel ctor args s = some (r, u) →
      ∃ lost, Accounts ctx (ConstructionRuns ctx fuel ctor args (atEntry s)) (Failed r) lost s u ∧
        (r.isOk → lost = 0)) ∧
    ∀ text, Counts 0 s (Host.allocString ctx text s).2 := by
  refine ⟨fun fuel ref args r u h => ?_, fun fuel ctor args r u h => ?_,
    fun text => allocString_counts ctx text s⟩
  · obtain ⟨lost, haccounts⟩ := invoke_accounts hs h
    refine ⟨lost, haccounts, fun hr => haccounts.exact ?_⟩
    rintro ⟨e, rfl⟩
    cases hr
  · obtain ⟨lost, haccounts⟩ := construct_accounts hs h
    refine ⟨lost, haccounts, fun hr => haccounts.exact ?_⟩
    rintro ⟨e, rfl⟩
    cases hr

end Host

namespace Sample

/-- A static method whose routine adds a string and then fails. -/
def lose : Method :=
  { ctor with
    name := "Lose", modifiers := { isStatic := true }, body := .native (.allocThenFail "Lose") }

/-- Loads a string and then calls the method. -/
def loadThenLose : Method := method "LoadThenLose"
  ⟨#[⟨0, 5, "ldstr", .sequential, .string "kept"⟩, ⟨5, 1, "pop", .sequential, .none⟩,
    ⟨6, 5, "call", .call, .method lose.ref⟩, ⟨11, 1, "ret", .ret, .none⟩], by simp⟩

/-- The program, with the type of strings. -/
def losingContext : Context where
  catalog := { types := [
    { ref := .string, flavor := .classType, base := none, fields := [], methods := [] },
    { ref := type, flavor := .classType, base := none, fields := []
      methods := [lose, loadThenLose] }] }

theorem allocThenFail_keepsHistory (headers : Headers) (name : String) :
    Native.KeepsHistory headers (.allocThenFail name) := by
  intro args h
  -- what it has added stays, although it fails
  have hheap : (((Native.allocThenFail name).run headers args).run.run h).2 =
      ((Native.allocString headers "lost").run.run h).2 := by
    show ((Native.allocString headers "lost" >>= fun _ => throw _ : Heap.Op (Option Value)) h).2 =
      (Native.allocString headers "lost" h).2
    rw [op_bind_apply]
    rcases Native.allocString headers "lost" h with ⟨e | r, k⟩ <;> rfl
  rw [hheap, Native.allocString_apply]
  split
  · exact ⟨_, .alloc _ .start⟩
  · exact ⟨_, .start⟩

theorem losing_runsOnly (config : Config) : (Machine.ofConfig config).RunsOnly losingContext
    (Native.KeepsHistory losingContext.catalog.headers) := by
  refine ⟨?_, ?_⟩
  · rintro m ⟨d, hd, hm⟩ routine hroutine
    simp only [losingContext, List.mem_cons, List.not_mem_nil, or_false] at hd
    rcases hd with rfl | rfl
    · cases hm
    · simp only [List.mem_cons, List.not_mem_nil, or_false] at hm
      rcases hm with rfl | rfl <;> cases hroutine
      exact allocThenFail_keepsHistory _ _
  · rintro entry ⟨⟩

end Sample

namespace Host

open Machine

/-- Of two strings that an invocation has added one is counted: the other one is that of the routine
that has failed. -/
theorem operations_account_lose :
    ∃ e u, ∃ v : Invocation,
      Host.invoke Sample.losingContext 9 Sample.loadThenLose.ref [] (ofConfig {}) =
        some (.error e, u) ∧
      u.heap.size = 2 ∧ u.stats.allocations = 1 ∧ v.FailsAdding Sample.losingContext 1 := by
  have hrun : (Host.invoke Sample.losingContext 9 Sample.loadThenLose.ref [] (ofConfig {})).map
      (fun p => (p.1.isOk, p.2.heap.size, p.2.stats.allocations)) = some (false, 2, 1) := by
    decide +kernel
  obtain ⟨⟨r, u⟩, hu, heq⟩ := Option.map_eq_some_iff.1 hrun
  obtain ⟨hr, hcounts⟩ := Prod.mk.inj heq
  obtain ⟨hsize, hallocations⟩ := Prod.mk.inj hcounts
  obtain ⟨hinvoke, -, -⟩ := operations_account (Sample.losing_runsOnly {})
  obtain ⟨lost, haccounts, -⟩ := hinvoke _ _ _ _ _ hu
  have hlost : lost = 1 := by
    have hcounted := haccounts.counted
    rw [hallocations, hsize] at hcounted
    exact Nat.add_left_cancel hcounted
  subst hlost
  obtain ⟨v, hv, hfails⟩ := haccounts.loses Nat.one_ne_zero
  obtain ⟨e, rfl⟩ := (haccounts.only v 1 hv hfails).1
  exact ⟨e, u, v, hu, hsize, hallocations, hfails⟩

/-- It is not so that the counter grows with the heap, whatever fails. -/
theorem operations_account_uncounted :
    ¬ ∀ (ctx : Context) (s : Machine) (fuel : Nat) (ref : MethodRef) (args : List Value)
        (r : Except Failure (Option Value)) (u : Machine),
        s.RunsOnly ctx (Native.KeepsHistory ctx.catalog.headers) →
        Host.invoke ctx fuel ref args s = some (r, u) →
        u.stats.allocations = s.stats.allocations + (u.heap.size - s.heap.size) := by
  intro hclaim
  have hrun : (Host.invoke Sample.losingContext 9 Sample.lose.ref [] (ofConfig {})).map
      (fun p => (p.2.heap.size, p.2.stats.allocations)) = some (1, 0) := by
    decide +kernel
  obtain ⟨⟨r, u⟩, hu, heq⟩ := Option.map_eq_some_iff.1 hrun
  obtain ⟨hsize, hallocations⟩ := Prod.mk.inj heq
  have hgrowth := hclaim _ _ _ _ _ r u (Sample.losing_runsOnly {}) hu
  rw [hallocations, hsize] at hgrowth
  cases hgrowth

end Host

end CilMachine
