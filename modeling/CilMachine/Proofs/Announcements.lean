/-
CilMachine/Proofs/Announcements.lean

How far the log tells what has been added to the heap.  When additions are traced, an instruction
announces each object in the move that adds it (`Move.announced`).  What a native routine adds is
not announced, and neither is a string that the host adds.

So of the handles that a run has given out the log shows, in order, those that were not given out
in native routines.  This can be told of the course of runs (`Machine.announced_lawful`), and so of
the host's operations (`Host.operations_announce`): the log shows all handles if and only if no
native routine has added anything.
-/
import CilMachine.Proofs.Accounting
import Mathlib.Data.List.Perm.Subperm

namespace CilMachine

namespace Event

variable {r : Handle} {e : Event}

/-- The handle of the object that the event announces. -/
def announced? : Event → Option Handle
  | allocated _ r | stringLoaded _ r | arrayAllocated _ _ r => some r
  | _ => none

theorem Announces.announced?_eq (h : e.Announces r) : e.announced? = some r := by
  cases e <;> first | exact congrArg some h | cases h

theorem announced?_of_not_isAside (h : e.isAside = false) : e.announced? = none := by
  cases e <;> first | rfl | cases h

end Event

/-- The heaps at the two ends determine the handles that have been given out in between. -/
theorem Heap.History.unique {h k : Heap} {rs qs : List Handle} (hrs : h.History rs k)
    (hqs : h.History qs k) : rs = qs := by
  obtain ⟨hrange, hsize⟩ := hrs.handles
  obtain ⟨hrange', hsize'⟩ := hqs.handles
  have hlength : rs.length = qs.length := Nat.add_left_cancel (hsize.symm.trans hsize')
  rw [hrange, hrange', hlength]

namespace Machine

open Event

variable {ctx : Context} {fuel : Nat} {m : Method} {args : List Value} {s t u : Machine}
  {rs qs : List Handle} {lines lines' : List Event} {I J K : Invocation → Prop}

/-- The log has grown by announcements of just the objects that have been added, in order. -/
def AllAnnounced (s u : Machine) : Prop :=
  ∃ lines, u.log.toList = s.log.toList ++ lines ∧
    s.heap.History (lines.filterMap announced?) u.heap

/-- There are as many announcements as the heap has grown by, and they show the handles that are
new, beginning with the first one. -/
theorem AllAnnounced.handles (h : AllAnnounced s u) :
    ∃ lines, u.log.toList = s.log.toList ++ lines ∧
      u.heap.size = s.heap.size + (lines.filterMap announced?).length ∧
      lines.filterMap announced? =
        (List.range' (s.heap.size + 1) (u.heap.size - s.heap.size)).map Handle.mk := by
  obtain ⟨lines, hlog, hhistory⟩ := h
  obtain ⟨hrange, hsize⟩ := hhistory.handles
  refine ⟨lines, hlog, hsize, ?_⟩
  rw [hsize, Nat.add_sub_cancel_left]
  exact hrange

/-- The invocation runs a native routine, which adds the object. -/
inductive Invocation.Adds (ctx : Context) : Invocation → Handle → Prop
  | intro {fuel : Nat} {m : Method} {args : List Value} {s : Machine} {calls : CallStack}
      {routine : Native} {r : Handle} : s.calls.push m args = .ok calls →
      m.body = .native routine → ¬ s.heap.contains r →
      ((routine.run ctx.catalog.headers args).run.run s.heap).2.contains r →
      Adds ctx ⟨fuel + 1, m, args, s⟩ r

theorem Invocation.Adds.does {v : Invocation} {r : Handle} (h : v.Adds ctx r) :
    ∃ routine, v.Does routine := by
  obtain ⟨hpush, hm, -, -⟩ := h
  exact ⟨_, .intro hpush hm⟩

/-! ### Announcements -/

/-- From the machine `s` to `u` the heap has given out these handles and the log has grown by these
lines.  They announce what has been added, in order, except for what the invocations in `I` have
added in native routines. -/
structure Announced (ctx : Context) (I : Invocation → Prop) (s u : Machine) (rs : List Handle)
    (lines : List Event) : Prop where
  history : s.heap.History rs u.heap
  log : u.log.toList = s.log.toList ++ lines
  inOrder : (lines.filterMap announced?).Sublist rs
  except : ∀ r, (∃ v, I v ∧ v.Adds ctx r) ↔ r ∈ rs ∧ r ∉ lines.filterMap announced?

/-- Where no native routine adds anything, all is announced. -/
theorem announced_of_history (hhistory : s.heap.History (lines.filterMap announced?) u.heap)
    (hlog : u.log.toList = s.log.toList ++ lines) (hI : ∀ v r, I v → ¬ v.Adds ctx r) :
    Announced ctx I s u (lines.filterMap announced?) lines where
  history := hhistory
  log := hlog
  inOrder := .refl _
  except r := by
    refine iff_of_false ?_ fun h => h.2 h.1
    rintro ⟨v, hv, hadds⟩
    exact hI v r hv hadds

theorem announced_of_appends (hheap : u.heap = s.heap)
    (h : Appends (·.announced? = none) s u) (hI : ∀ v r, I v → ¬ v.Adds ctx r) :
    ∃ lines, Announced ctx I s u [] lines := by
  obtain ⟨lines, hlog, hlines⟩ := h
  have hnone : lines.filterMap announced? = [] := List.filterMap_eq_nil_iff.2 hlines
  have hhistory : s.heap.History (lines.filterMap announced?) u.heap := by
    rw [hnone, hheap]
    exact .start
  have hannounced := announced_of_history hhistory hlog hI
  rw [hnone] at hannounced
  exact ⟨lines, hannounced⟩

namespace Announced

theorem congr (h : Announced ctx I s u rs lines) (hJ : ∀ v, J v ↔ I v) :
    Announced ctx J s u rs lines where
  history := h.history
  log := h.log
  inOrder := h.inOrder
  except r := by simp only [hJ, h.except]

theorem andThen (hst : Announced ctx I s t rs lines) (htu : Announced ctx J t u qs lines')
    (hK : ∀ v, K v ↔ I v ∨ J v) : Announced ctx K s u (rs ++ qs) (lines ++ lines') where
  history := hst.history.trans htu.history
  log := by rw [htu.log, hst.log, List.append_assoc]
  inOrder := by
    rw [List.filterMap_append]
    exact hst.inOrder.append htu.inOrder
  except r := by
    have hfirst : r ∈ lines.filterMap announced? → r ∈ rs := fun hr => hst.inOrder.subset hr
    have hsecond : r ∈ lines'.filterMap announced? → r ∈ qs := fun hr => htu.inOrder.subset hr
    -- a handle is given out once
    have honce : r ∈ rs → r ∉ qs := fun hr =>
      List.disjoint_of_nodup_append (hst.history.trans htu.history).nodup hr
    simp only [hK, or_and_right, exists_or, hst.except, htu.except, List.filterMap_append,
      List.mem_append]
    tauto

theorem andQuiet (h : Announced ctx I s t rs lines) (hheap : u.heap = t.heap)
    (hlog : Appends (·.announced? = none) t u) : ∃ lines', Announced ctx I s u rs lines' := by
  obtain ⟨lines', htu⟩ : ∃ lines', Announced ctx (fun _ => False) t u [] lines' :=
    announced_of_appends hheap hlog nofun
  have hall := h.andThen htu fun v => (or_iff_left id).symm
  rw [List.append_nil] at hall
  exact ⟨_, hall⟩

/-- All is announced just where no native routine adds anything. -/
theorem all_iff (h : Announced ctx I s u rs lines) :
    AllAnnounced s u ↔ ∀ v r, I v → ¬ v.Adds ctx r := by
  constructor
  · rintro ⟨lines', hlog, hhistory⟩ v r hv hadds
    obtain rfl : lines = lines' := List.append_cancel_left (h.log.symm.trans hlog)
    obtain ⟨hmem, hnot⟩ := (h.except r).1 ⟨v, hv, hadds⟩
    rw [h.history.unique hhistory] at hmem
    exact hnot hmem
  · intro hnone
    have hsubset : rs ⊆ lines.filterMap announced? := by
      intro r hr
      by_contra hnot
      obtain ⟨v, hv, hadds⟩ := (h.except r).2 ⟨hr, hnot⟩
      exact hnone v r hv hadds
    have hlength := (List.subperm_of_subset h.history.nodup hsubset).length_le
    refine ⟨lines, h.log, ?_⟩
    rw [h.inOrder.eq_of_length_le hlength]
    exact h.history

end Announced

/-! ### The course of runs -/

/-- What is added in a move is announced in it. -/
theorem Move.announced (htraced : ctx.tracing.heap = true) (h : Move ctx s u) :
    ∃ rs lines, Announced ctx (fun _ => False) s u rs lines := by
  cases h with
  | frame _ => exact ⟨[], announced_of_appends rfl (appends_of_eq rfl) nofun⟩
  | write hwrite => exact ⟨_, [], announced_of_history (.write .start hwrite) (by simp) nofun⟩
  | @add o e _ hannounces =>
      have hhandle : [e].filterMap announced? = [s.heap.next] := by
        rw [List.filterMap_cons_some hannounces.announced?_eq]
        rfl
      refine ⟨_, [e], announced_of_history ?_ ?_ nofun⟩
      · rw [hhandle]
        exact .alloc o .start
      · show (if ctx.tracing.heap then s.log.push e else s.log).toList = _
        rw [if_pos htraced, Array.toList_push]
  | ask _ => exact ⟨[], announced_of_appends rfl (appends_of_eq rfl) nofun⟩

theorem Moves.announced (htraced : ctx.tracing.heap = true) (h : Moves ctx s u) :
    ∃ rs lines, Announced ctx (fun _ => False) s u rs lines := by
  induction h with
  | refl => exact ⟨[], announced_of_appends rfl (appends_of_eq rfl) nofun⟩
  | tail _ hmove ih =>
      obtain ⟨rs, lines, hst⟩ := ih
      obtain ⟨qs, lines', htu⟩ := hmove.announced htraced
      exact ⟨_, _, hst.andThen htu fun _ => (or_self_iff).symm⟩

section Natives

variable {calls : CallStack} {routine : Native} {h : Heap}

/-- Of what a routine adds nothing is announced. -/
theorem native_announced (hroutine : routine.KeepsHistory ctx.catalog.headers)
    (hpush : s.calls.push m args = .ok calls) (hm : m.body = .native routine)
    {r : Except Failure (Option Value)}
    (hrun : (routine.run ctx.catalog.headers args).run.run s.heap = (r, h)) :
    ∃ rs, Announced ctx (· = ⟨fuel + 1, m, args, s⟩) (entered ctx m calls s)
      (afterNative (entered ctx m calls s) h r) rs [] := by
  obtain ⟨rs, hhistory⟩ := hroutine args s.heap
  have hheap : ((routine.run ctx.catalog.headers args).run.run s.heap).2 = h := by rw [hrun]
  rw [hheap] at hhistory
  refine ⟨rs, hhistory, (List.append_nil _).symm, List.nil_sublist _, fun q => ⟨?_, ?_⟩⟩
  · rintro ⟨v, rfl, ⟨hpush', hm', hnot, hcontains⟩⟩
    cases hm.symm.trans hm'
    rw [hheap] at hcontains
    exact ⟨(hhistory.contains_iff.1 hcontains).resolve_left hnot, List.not_mem_nil⟩
  · rintro ⟨hq, -⟩
    refine ⟨_, rfl, .intro hpush hm (hhistory.not_contains hq) ?_⟩
    rw [hheap]
    exact hhistory.contains_iff.2 (.inr hq)

end Natives

/-- When additions are traced, the log announces what the invocations of a run have not added in
native routines. -/
theorem announced_lawful (htraced : ctx.tracing.heap = true) :
    Course.Lawful ctx (Native.KeepsHistory ctx.catalog.headers)
      fun I _ s u => ∃ rs lines, Announced ctx I s u rs lines where
  congr := by
    rintro I J failed s u ⟨rs, lines, h⟩ hJ
    exact ⟨rs, lines, h.congr hJ⟩
  imp h _ := h
  andThen := by
    rintro I J K failed s t u ⟨rs, lines, hst⟩ ⟨qs, lines', htu⟩ hK
    exact ⟨_, _, hst.andThen htu hK⟩
  thenNotes := by
    rintro I failed s t u ⟨rs, lines, hst⟩ hnotes
    exact ⟨rs, hst.andQuiet hnotes.heap (hnotes.log.mono fun _ => announced?_of_not_isAside)⟩
  moves hmoves := hmoves.announced htraced
  outright {v s} hv := by
    refine ⟨[], announced_of_appends rfl (appends_of_eq rfl) ?_⟩
    rintro v r rfl hadds
    obtain ⟨routine, hdoes⟩ := hadds.does
    exact hv routine hdoes
  routine hroutine hpush hm hrun := by
    obtain ⟨rs, h⟩ := native_announced hroutine hpush hm hrun
    exact ⟨rs, [], h⟩

end Machine

/-! ### Operations of the host -/

namespace Host

open Machine

variable {ctx : Context} {s u : Machine}

section Operations

variable {fuel : Nat} {ref ctor : MethodRef} {args : List Value}

theorem invoke_announced (htraced : ctx.tracing.heap = true)
    (hs : s.RunsOnly ctx (Native.KeepsHistory ctx.catalog.headers))
    {r : Except Failure (Option Value)} (h : Host.invoke ctx fuel ref args s = some (r, u)) :
    ∃ rs lines, Announced ctx (InvocationRuns ctx fuel ref args s) s u rs lines := by
  obtain ⟨t, ⟨rs, lines, hannounced⟩, ⟨rfl, -⟩ | ⟨m, -, -, heq⟩⟩ :=
    (announced_lawful htraced).hostInvoke hs h
  · exact ⟨rs, lines, hannounced⟩
  · have hlog : u.log = noted m.fullName r t.log := by rw [heq]
    exact ⟨rs, hannounced.andQuiet (by rw [heq]) (appends_noted (fun _ => rfl) hlog)⟩

theorem construct_announced (htraced : ctx.tracing.heap = true)
    (hs : s.RunsOnly ctx (Native.KeepsHistory ctx.catalog.headers)) {r : Except Failure Handle}
    (h : Host.construct ctx fuel ctor args s = some (r, u)) :
    ∃ rs lines, Announced ctx (ConstructionRuns ctx fuel ctor args (atEntry s)) s u rs lines := by
  obtain ⟨t, ⟨rs, lines, hannounced⟩, heq⟩ := (announced_lawful htraced).hostConstruct hs h
  have hlog : u.log = noted ctor.text r t.log := by rw [heq]
  exact ⟨rs, hannounced.andQuiet (by rw [heq]) (appends_noted (fun _ => rfl) hlog)⟩

end Operations

/-- A string that the host adds is not announced. -/
theorem allocString_silent (ctx : Context) (text : String) (s : Machine) :
    (Host.allocString ctx text s).2.log = s.log ∧
      (Failed (Host.allocString ctx text s).1 ∧ (Host.allocString ctx text s).2.heap = s.heap ∨
        (Host.allocString ctx text s).1 = .ok (.object s.heap.next) ∧
          s.heap.History [s.heap.next] (Host.allocString ctx text s).2.heap) := by
  rw [allocString_apply]
  split
  · exact ⟨rfl, .inr ⟨rfl, .alloc _ .start⟩⟩
  · exact ⟨rfl, .inl ⟨⟨_, rfl⟩, rfl⟩⟩

/-- **Additions are announced, but for those of native routines and of the host.**  When additions
are traced, and native routines act on the heap by additions and writes only, the log of an
invocation or a construction announces, in order, what has been added outside of native routines;
so it announces all if and only if none of the invocations that belong to it has added something in
a native routine.  A string that the host adds is never announced. -/
theorem operations_announce (htraced : ctx.tracing.heap = true)
    (hs : s.RunsOnly ctx (Native.KeepsHistory ctx.catalog.headers)) :
    (∀ fuel ref args r u, Host.invoke ctx fuel ref args s = some (r, u) →
      (∃ rs lines, Announced ctx (InvocationRuns ctx fuel ref args s) s u rs lines) ∧
        (AllAnnounced s u ↔ ∀ v q, InvocationRuns ctx fuel ref args s v → ¬ v.Adds ctx q)) ∧
    (∀ fuel ctor args r u, Host.construct ctx fuel ctor args s = some (r, u) →
      (∃ rs lines, Announced ctx (ConstructionRuns ctx fuel ctor args (atEntry s)) s u rs lines) ∧
        (AllAnnounced s u ↔
          ∀ v q, ConstructionRuns ctx fuel ctor args (atEntry s) v → ¬ v.Adds ctx q)) ∧
    ∀ text, (Host.allocString ctx text s).2.log = s.log ∧
      (Failed (Host.allocString ctx text s).1 ∧ (Host.allocString ctx text s).2.heap = s.heap ∨
        (Host.allocString ctx text s).1 = .ok (.object s.heap.next) ∧
          s.heap.History [s.heap.next] (Host.allocString ctx text s).2.heap) := by
  refine ⟨fun fuel ref args r u h => ?_, fun fuel ctor args r u h => ?_,
    fun text => allocString_silent ctx text s⟩
  · obtain ⟨rs, lines, hannounced⟩ := invoke_announced htraced hs h
    exact ⟨⟨rs, lines, hannounced⟩, hannounced.all_iff⟩
  · obtain ⟨rs, lines, hannounced⟩ := construct_announced htraced hs h
    exact ⟨⟨rs, lines, hannounced⟩, hannounced.all_iff⟩

end Host

namespace Sample

/-- The program that loads a string and loses another one, with additions traced. -/
def losingTraced : Context := { losingContext with tracing := { heap := true } }

theorem losingTraced_runsOnly (config : Config) : (Machine.ofConfig config).RunsOnly losingTraced
    (Native.KeepsHistory losingTraced.catalog.headers) := by
  have hs := losing_runsOnly config
  exact ⟨hs.declared, hs.answers⟩

/-- The standard library, with additions traced. -/
def libraryTraced : Context := { catalog := .withCorelib, tracing := { heap := true } }

end Sample

namespace Host

open Machine

/-- Of two strings that an invocation has added one is announced: the other one is that of a native
routine. -/
theorem operations_announce_lose :
    ∃ r u, ∃ v : Invocation,
      Host.invoke Sample.losingTraced 9 Sample.loadThenLose.ref [] (ofConfig {}) = some (r, u) ∧
      u.heap.size = 2 ∧ u.log.toList.filterMap Event.announced? = [⟨1⟩] ∧
      ¬ AllAnnounced (ofConfig {}) u ∧ v.Adds Sample.losingTraced ⟨2⟩ := by
  have hrun : (Host.invoke Sample.losingTraced 9 Sample.loadThenLose.ref [] (ofConfig {})).map
      (fun p => (p.2.heap.size, p.2.log.toList.filterMap Event.announced?)) =
        some (2, [⟨1⟩]) := by
    decide +kernel
  obtain ⟨⟨r, u⟩, hu, heq⟩ := Option.map_eq_some_iff.1 hrun
  obtain ⟨hsize, hshown⟩ := Prod.mk.inj heq
  obtain ⟨hinvoke, -, -⟩ := operations_announce rfl (Sample.losingTraced_runsOnly {})
  obtain ⟨⟨rs, lines, hannounced⟩, hall⟩ := hinvoke _ _ _ _ _ hu
  obtain rfl : u.log.toList = lines := hannounced.log
  have hsecond : (⟨2⟩ : Handle) ∈ rs :=
    hannounced.history.mem_iff.2 ⟨by decide, Nat.le_of_eq hsize.symm⟩
  obtain ⟨v, hv, hadds⟩ := (hannounced.except ⟨2⟩).2 ⟨hsecond, by rw [hshown]; decide⟩
  exact ⟨r, u, v, hu, hsize, hshown, fun h => hall.1 h v _ hv hadds, hadds⟩

/-- It is not so that all is announced, whoever adds it: a string of the host is not. -/
theorem operations_announce_silent :
    ¬ ∀ (ctx : Context) (s : Machine) (text : String), ctx.catalog = .withCorelib →
      ctx.tracing.heap = true → AllAnnounced s (Host.allocString ctx text s).2 := by
  intro hclaim
  obtain ⟨lines, hlog, hhistory⟩ := hclaim Sample.libraryTraced (ofConfig {}) "a" rfl rfl
  have hrun : ((Host.allocString Sample.libraryTraced "a" (ofConfig {})).2.heap.size,
      (Host.allocString Sample.libraryTraced "a" (ofConfig {})).2.log.toList) = (1, []) := by
    decide +kernel
  obtain ⟨hsize, hnone⟩ := Prod.mk.inj hrun
  obtain rfl : lines = [] := by
    rw [hnone] at hlog
    exact hlog.symm
  have hgrown := hhistory.handles.2
  rw [hsize] at hgrown
  cases hgrown

end Host

end CilMachine
