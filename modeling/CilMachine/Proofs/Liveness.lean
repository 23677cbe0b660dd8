/-
CilMachine/Proofs/Liveness.lean

No dangling handles.  A machine is *closed* if every handle in a frame, in a field or in a slot
names an object.  Objects are never removed, and all that the machine does with handles is to pass
them on; so closed machines stay closed, and no instruction looks for an object that is not there
(`invoke_closed`). Native routines have to do their part; those of the core library do.

The proof is one more use of correspondences: closed machines correspond to themselves, where the
handles that code has are those of the objects (`living`).
-/
import CilMachine.Proofs.Possession

namespace CilMachine

open Correspondence

/-! ### Closed heaps -/

namespace Heap

variable {h : Heap} {o p : HeapObject} {r : Handle}

/-- Every handle in a field or in a slot names an object. -/
def Closed (h : Heap) : Prop := ∀ r o, h.get? r = some o → ∀ q, o.Holds q → h.contains q

/-- Every handle among the values names an object. -/
abbrev Covers (h : Heap) (vs : List Value) : Prop := ∀ q, .object q ∈ vs → h.contains q

theorem get?_empty (r : Handle) : ({} : Heap).get? r = none := by
  simp [get?]

theorem contains_replace (h : Heap) (r q : Handle) (p : HeapObject) :
    (h.replace r p).contains q = h.contains q := by
  have hsize : (h.replace r p).objects.size = h.objects.size := size_replace h r p
  rw [contains, contains, hsize]

theorem contains_alloc (h : Heap) (o : HeapObject) (q : Handle) :
    (h.alloc o).2.contains q ↔ h.contains q ∨ q = h.next := by
  obtain ⟨n⟩ := q
  simp only [contains, alloc, next, Array.size_push, decide_eq_true_eq, Handle.mk.injEq]
  omega

theorem get?_alloc_of_ne (o : HeapObject) (hr : r ≠ h.next) :
    (h.alloc o).2.get? r = h.get? r := by
  rcases hget : h.get? r with - | p
  · rcases hget' : (h.alloc o).2.get? r with - | p
    · rfl
    · rcases (contains_alloc h o r).1 (contains_iff.2 ⟨p, hget'⟩) with hold | hnext
      · obtain ⟨_, hsome⟩ := contains_iff.1 hold
        rw [hget] at hsome
        cases hsome
      · exact absurd hnext hr
  · exact get?_alloc_of_some o hget

/-- After a replacement an object is the new one, or it is what it was. -/
theorem get?_replace_eq_some {q : Handle} {o' : HeapObject} (ho : h.get? r = some o)
    (hq : (h.replace r p).get? q = some o') :
    q = r ∧ o' = p ∨ q ≠ r ∧ h.get? q = some o' := by
  by_cases hqr : q = r
  · subst hqr
    rw [get?_replace_self p ho] at hq
    exact .inl ⟨rfl, (Option.some.inj hq).symm⟩
  · rw [get?_replace_of_ne p hqr] at hq
    exact .inr ⟨hqr, hq⟩

/-- An object that is there after an addition was there before, or it is the new one. -/
theorem get?_alloc_eq_some {q : Handle} {o' : HeapObject} (hq : (h.alloc o).2.get? q = some o') :
    q = h.next ∧ o' = o ∨ q ≠ h.next ∧ h.get? q = some o' := by
  by_cases hnext : q = h.next
  · subst hnext
    rw [get?_alloc_next] at hq
    exact .inl ⟨rfl, (Option.some.inj hq).symm⟩
  · rw [get?_alloc_of_ne o hnext] at hq
    exact .inr ⟨hnext, hq⟩

theorem Closed.replace (hh : h.Closed) (ho : h.get? r = some o)
    (hp : ∀ q, p.Holds q → h.contains q) : (h.replace r p).Closed := by
  intro r' o' ho' q hq
  rw [contains_replace]
  rcases get?_replace_eq_some ho ho' with ⟨-, rfl⟩ | ⟨-, ho'⟩
  · exact hp q hq
  · exact hh r' o' ho' q hq

theorem Closed.alloc (hh : h.Closed) (ho : ∀ q, ¬ o.Holds q) : (h.alloc o).2.Closed := by
  intro r' o' ho' q hq
  rw [contains_alloc]
  rcases get?_alloc_eq_some ho' with ⟨-, rfl⟩ | ⟨-, ho'⟩
  · exact absurd hq (ho q)
  · exact .inl (hh r' o' ho' q hq)

end Heap

/-- Every handle in a frame, in a field or in a slot names an object. -/
structure Machine.Closed (s : Machine) : Prop where
  heap : s.heap.Closed
  frames : ∀ f ∈ s.calls.frames, ∀ q, f.Holds q → s.heap.contains q

/-! ### Dangling handles in failures -/

/-- The root cause of the failure is a handle that names no object. -/
def Failure.IsDangling (f : Failure) : Prop :=
  ∃ e r, f = .execution e ∧ e.cause = .unresolved (.heapObject r)

theorem Failure.IsOrdinary.not_isDangling {f : Failure} (h : f.IsOrdinary) : ¬ f.IsDangling := by
  rintro ⟨e, r, rfl, he⟩
  cases e with
  | fault => cases h
  | unresolved =>
      cases he
      cases h
  | _ => cases he

theorem Failure.IsDangling.of_locate {f : Failure} {site : Site} (h : (f.locate site).IsDangling) :
    f.IsDangling := by
  cases f with
  | malformed => exact h
  | unsupported => exact h
  | execution e =>
      obtain ⟨e', r, he', hcause'⟩ := h
      obtain ⟨e'', he'', hcause⟩ := Failure.locate_execution site e
      rw [he'] at he''
      cases he''
      exact ⟨e, r, rfl, hcause.symm.trans hcause'⟩

/-! ### Native routines -/

namespace Native

/-- From a closed heap and handles of objects, the routine comes to a closed heap, where the handles
still name objects; and so does the handle that it returns, if it returns one. -/
def KeepsLive (headers : Headers) (routine : Native) : Prop :=
  ∀ args h r k, h.Closed → h.Covers args →
    (routine.run headers args).run.run h = (r, k) →
    k.Closed ∧ (∀ q, h.contains q → k.contains q) ∧
      ∀ q, r = .ok (some (.object q)) → k.contains q

/-- On a closed heap and handles of objects, the routine fails with these failures only. -/
def FailsWith (failure : Failure → Prop) (headers : Headers) (routine : Native) : Prop :=
  ∀ args h, h.Closed → h.Covers args →
    Only failure ((routine.run headers args).run.run h).1

/-- On a closed heap and handles of objects, the routine does not fail for a handle that names no
object. -/
abbrev NeverDangles (headers : Headers) (routine : Native) : Prop :=
  routine.FailsWith (fun f => ¬ f.IsDangling) headers

/-- The routines in `P` keep handles live, and fail with failures of a class that the machine does
not leave by itself. -/
structure Tame (headers : Headers) (P : Native → Prop) (failure : Failure → Prop) : Prop where
  routine : ∀ routine, P routine → routine.KeepsLive headers ∧ routine.FailsWith failure headers
  ordinary : ∀ f, f.IsOrdinary → failure f
  locate : ∀ f site, failure f → failure (f.locate site)

theorem tame_keepsLive (headers : Headers) : Tame headers (KeepsLive headers) fun _ => True where
  routine _ h := ⟨h, fun _ _ _ _ _ _ => trivial⟩
  ordinary _ _ := trivial
  locate _ _ _ := trivial

theorem tame_neverDangles (headers : Headers) :
    Tame headers (fun routine => routine.KeepsLive headers ∧ routine.NeverDangles headers)
      fun f => ¬ f.IsDangling where
  routine _ h := h
  ordinary _ h := h.not_isDangling
  locate _ _ h hlocate := h hlocate.of_locate

end Native

namespace Machine

variable {α : Type} {ctx : Context} {P : Native → Prop} {failure : Failure → Prop} {fuel : Nat}
  {m : Method} {args : List Value} {i : Instruction} {w : Handle → Prop} {s s' t u : Machine}

/-! ### Closed machines correspond to themselves -/

/-- The correspondence of closed machines to themselves.  The worlds are the handles that name
objects. -/
def living (P : Native → Prop) (failure : Failure → Prop) : Correspondence (Handle → Prop) where
  le w w' := ∀ q, w q → w' q
  handle w r q := q = r ∧ w r
  heap w h k := k = h ∧ h.Closed ∧ ∀ q, w q ↔ h.contains q
  callStacks := CallStack.SameShape
  counters _ _ := True
  answers d e := e = d ∧ d.Keeps (Method.Runs P)
  logs _ _ := True
  method := Method.Runs P
  failure := failure

theorem living_eq_possessing (P : Native → Prop) (failure : Failure → Prop) :
    living P failure = possessing (fun w h => h.Closed ∧ ∀ q, w q ↔ h.contains q) P failure := rfl

theorem living_heap {h : Heap} (hh : h.Closed) :
    (living P failure).heap (fun q => h.contains q) h h :=
  ⟨rfl, hh, fun _ => .rfl⟩

theorem living_values (hargs : ∀ q, .object q ∈ args → w q) :
    ValuesRel ((living P failure).handle w) args args :=
  valuesRel_self fun q hq => ⟨rfl, hargs q hq⟩

theorem living_possession :
    Possession failure fun w h => h.Closed ∧ ∀ q, w q ↔ h.contains q where
  object := by
    rintro w h r ⟨hclosed, hw⟩ hr
    obtain ⟨o, ho⟩ := Heap.contains_iff.1 ((hw r).1 hr)
    exact .inl ⟨o, ho, fun q hq => (hw q).2 (hclosed r o ho q hq)⟩
  replace := by
    rintro w h r o p ⟨hclosed, hw⟩ hr ho hp
    refine ⟨hclosed.replace ho fun q hq => (hw q).1 (hp q hq), fun q => ?_⟩
    rw [Heap.contains_replace]
    exact hw q
  alloc := by
    rintro w h o ⟨hclosed, hw⟩ ho
    refine ⟨hclosed.alloc ho, fun q => ?_⟩
    rw [Heap.contains_alloc, ← hw]

theorem living_lawful (hP : ∀ m, ctx.catalog.Declares m → m.Runs P)
    (hfailure : ∀ f, f.IsOrdinary → failure f) : (living P failure).Lawful ctx ctx :=
  possessing_lawful living_possession hP hfailure

/-- A routine comes out alike on a closed heap if and only if it keeps handles live. -/
theorem living_routine {headers : Headers} {routine : Native} :
    (living P failure).Routine headers routine ↔
      routine.KeepsLive headers ∧ routine.FailsWith failure headers := by
  rw [living_eq_possessing, possessing_routine]
  refine ⟨fun hroutine => ⟨fun args h r k hh hargs hrun => ?_, fun args h hh hargs => ?_⟩, ?_⟩
  · obtain ⟨w, hle, ⟨hk, hw⟩, -, hr⟩ := hroutine _ args h r k ⟨hh, fun _ => .rfl⟩ hargs hrun
    exact ⟨hk, fun q hq => (hw q).1 (hle q hq), fun q hq => (hw q).1 (hr q hq)⟩
  · obtain ⟨w, -, -, hfails, -⟩ := hroutine _ args h _ _ ⟨hh, fun _ => .rfl⟩ hargs rfl
    exact hfails
  · rintro ⟨hkeeps, hfails⟩ w args h r k ⟨hh, hw⟩ hargs hrun
    have hlive : h.Covers args := fun q hq => (hw q).1 (hargs q hq)
    have honly := hfails args h hh hlive
    rw [hrun] at honly
    obtain ⟨hk, hle, hr⟩ := hkeeps args h r k hh hlive hrun
    exact ⟨fun q => k.contains q, fun q hq => hle q ((hw q).1 hq), ⟨hk, fun _ => .rfl⟩, honly, hr⟩

theorem living_lawfulRuns (htame : Native.Tame ctx.catalog.headers P failure)
    (hdeclared : ∀ m, ctx.catalog.Declares m → m.Runs P) :
    (living P failure).LawfulRuns ctx ctx (fun _ => False) fun _ => True :=
  lawfulRuns_of_sameShape (living_lawful hdeclared htame.ordinary) rfl htame.locate
    fun hm hbody => living_routine.2 (htame.routine _ (hm _ hbody))

theorem living_machines (failure : Failure → Prop) (hs : s.Closed)
    (hd : s.dispatch.Keeps (Method.Runs P)) :
    (living P failure).Machines (fun q => s.heap.contains q) s s := by
  refine ⟨living_heap hs.heap, ?_, .refl _, trivial, ⟨rfl, hd⟩, trivial⟩
  rcases hF : s.calls.frames with - | ⟨f, F⟩
  · exact .none
  · have hf : f ∈ s.calls.frames := hF ▸ List.mem_cons_self
    exact .some (Frame.rel_self fun q hq => ⟨rfl, hs.frames f hf q hq⟩)

/-! ### Machines stay closed -/

/-- Code that runs in the machine gets to native routines in `P` only. -/
structure RunsOnly (ctx : Context) (P : Native → Prop) (s : Machine) : Prop where
  declared : ∀ m, ctx.catalog.Declares m → m.Runs P
  answers : s.dispatch.Keeps (Method.Runs P)

theorem RunsOnly.and {Q : Native → Prop} (hP : s.RunsOnly ctx P) (hQ : s.RunsOnly ctx Q) :
    s.RunsOnly ctx fun routine => P routine ∧ Q routine :=
  ⟨fun m hm => (hP.declared m hm).and (hQ.declared m hm),
    fun entry hentry => (hP.answers entry hentry).and (hQ.answers entry hentry)⟩

/-- What was live in the machine `s` still is in `s'`, which is closed and runs only routines in
`P`. -/
structure StaysClosed (ctx : Context) (P : Native → Prop) (s s' : Machine) : Prop where
  closed : s'.Closed
  live : ∀ q, s.heap.contains q → s'.heap.contains q
  runsOnly : s'.RunsOnly ctx P

/-- The frames below the top one are as they were before; the rest of the machine corresponds to
another one. -/
theorem staysClosed_of_machines (hs : s.Closed) (hruns : s.RunsOnly ctx P)
    (hcontinues : s.calls.Continues s'.calls) (hle : ∀ q, s.heap.contains q → w q)
    (h : (living P failure).Machines w s' t) : s.StaysClosed ctx P s' := by
  obtain ⟨-, hheap, hw⟩ := h.heap
  have hlive : ∀ q, s.heap.contains q → s'.heap.contains q := fun q hq => (hw q).1 (hle q hq)
  refine ⟨⟨hheap, fun f hf q hq => ?_⟩, hlive, hruns.declared, h.answers.2⟩
  rcases hF : s.calls.frames with - | ⟨g, F⟩
  · have hlength := hcontinues.length_eq
    rw [hF, List.length_nil] at hlength
    rw [List.length_eq_zero_iff.1 hlength] at hf
    cases hf
  · obtain ⟨g', hF', -⟩ := hcontinues.exists_cons hF
    rw [hF'] at hf
    rcases List.mem_cons.1 hf with rfl | hf
    · -- the top frame is the only one that has been worked on
      obtain ⟨g'', G, -, hrel⟩ := h.exists_cons hF'
      obtain ⟨_, -, hq⟩ := hrel.of_holds hq
      exact (hw q).1 hq
    · exact hlive q (hs.frames f (hF ▸ List.mem_cons_of_mem g hf) q hq)

section Runs

variable (htame : Native.Tame ctx.catalog.headers P failure) (hs : s.Closed)
  (hruns : s.RunsOnly ctx P)
include htame hs hruns

theorem step_staysClosed {r : Except Failure Outcome} (h : step ctx fuel i s = some (r, s')) :
    s.StaysClosed ctx P s' ∧ Only failure r := by
  have hR := living_lawfulRuns htame hruns.declared
  have hst := living_machines failure hs hruns.answers
  obtain ⟨w, _, t, hle, -, hm, hr⟩ := (step_follows hR hst).ends h
  have hcontinues := stepWith_continues (invoke_calls ctx fuel) h
  exact ⟨staysClosed_of_machines hs hruns hcontinues hle hm, hr.only⟩

theorem invoke_staysClosed {r : Except Failure (Option Value)} (hm : m.Runs P)
    (hargs : s.heap.Covers args)
    (h : invoke ctx fuel m args s = some (r, s')) :
    s.StaysClosed ctx P s' ∧ Only failure r ∧
      ∀ q, r = .ok (some (.object q)) → s'.heap.contains q := by
  have hR := living_lawfulRuns htame hruns.declared
  have hst := living_machines failure hs hruns.answers
  have hfollows := (invoke_follows hR trivial hm (living_values hargs) hst.outside).machines
    hR.toLawful (invoke_calls ctx fuel) (invoke_calls ctx fuel) hst
  obtain ⟨w, _, t, hle, -, hm, hr⟩ := hfollows.ends h
  have hcontinues : s.calls.Continues s'.calls := by
    rw [invoke_calls ctx fuel _ _ _ _ _ h]
    exact .afterCall _ _
  refine ⟨staysClosed_of_machines hs hruns hcontinues hle hm, hr.only, ?_⟩
  rintro q rfl
  cases hr with
  | ok hv =>
      cases hv with
      | some hv =>
          obtain ⟨-, -, hw⟩ := hm.heap
          obtain ⟨_, -, hq⟩ := hv.of_object
          exact (hw q).1 hq

theorem construct_staysClosed {ctor : MethodRef} {r : Except Failure Handle}
    (hargs : s.heap.Covers args)
    (h : construct ctx fuel ctor args s = some (r, s')) :
    s.StaysClosed ctx P s' ∧ Only failure r ∧ ∀ q, r = .ok q → s'.heap.contains q := by
  have hR := living_lawfulRuns htame hruns.declared
  have hst := living_machines failure hs hruns.answers
  obtain ⟨w, _, t, hle, -, hm, hr⟩ := (construct_follows hR (living_values hargs) hst).ends h
  refine ⟨staysClosed_of_machines hs hruns (construct_continues h) hle hm, hr.only, ?_⟩
  rintro q rfl
  cases hr with
  | ok hq =>
      obtain ⟨-, -, hw⟩ := hm.heap
      exact (hw q).1 hq.2

end Runs

/-! ### Instructions find their objects -/

/-- Whatever is asked of failures, wherever there is a machine that this one corresponds to, the
handles in its top frame and on its heap are live. -/
theorem performInstruction_not_isDangling (hdeclared : ∀ m, ctx.catalog.Declares m → m.Runs P)
    (h : (living P failure).Machines w s t) (i : Instruction) :
    Only (fun f => ¬ f.IsDangling) (performInstruction ctx i s).1 := by
  have hR : (living P fun f => ¬ f.IsDangling).Lawful ctx ctx :=
    living_lawful hdeclared fun f hf => hf.not_isDangling
  obtain ⟨w', -, -, -, -, ho⟩ :=
    agree_performInstruction hR i s t
      ⟨h.heap, h.frame, h.callStacks, h.counters, h.answers, trivial⟩
  exact ho.only

/-- The invocation is begun in the machine `s`: by the host, by an instruction, or to construct an
object. -/
inductive Begins (ctx : Context) (P : Native → Prop) (s : Machine) : Invocation → Prop
  | invoke (fuel : Nat) {m : Method} {args : List Value} : m.Runs P → s.heap.Covers args →
      Begins ctx P s ⟨fuel, m, args, s⟩
  | step (fuel : Nat) {i : Instruction} {c : Call} {u : Machine} :
      performInstruction ctx i s = (.ok (.call c), u) →
      Begins ctx P s ⟨fuel, c.method, c.arguments, u⟩
  | construct (fuel : Nat) {ctor : MethodRef} {args : List Value} {r : Handle} {c : Call}
      {u : Machine} : s.heap.Covers args →
      prepareConstruction ctx ctor args s = (.ok (r, c), u) →
      Begins ctx P s ⟨fuel, c.method, c.arguments, u⟩

theorem begins_corresponds {v : Invocation} (hR : (living P failure).Lawful ctx ctx) (hs : s.Closed)
    (hruns : s.RunsOnly ctx P) (h : s.Begins ctx P v) :
    v.method.Runs P ∧ ∃ w args' t, ValuesRel ((living P failure).handle w) v.arguments args' ∧
      (living P failure).Outside w v.machine t := by
  have hst := living_machines failure hs hruns.answers
  cases h with
  | invoke _ hm hargs => exact ⟨hm, _, _, s, living_values hargs, hst.outside⟩
  | step _ hp =>
      obtain ⟨w, -, hu, -, -, ho⟩ := agree_performInstruction hR _ s s hst
      rw [hp] at hu ho
      cases ho with
      | ok heffects =>
          cases heffects with
          | call hc => exact ⟨hc.runs, w, _, _, hc.arguments, hu.outside⟩
  | @construct _ ctor _ _ _ _ hargs hp =>
      obtain ⟨w, -, hu, -, -, ho⟩ :=
        agree_prepareConstruction hR ctor (living_values hargs) s s hst
      rw [hp] at hu ho
      cases ho with
      | ok hpq => exact ⟨hpq.2.runs, w, _, _, hpq.2.arguments, hu.outside⟩

/-- No instruction that is executed while an invocation runs fails for a handle that names no
object. -/
theorem executes_not_isDangling (hs : s.Closed)
    (hruns : s.RunsOnly ctx (Native.KeepsLive ctx.catalog.headers)) {v₀ v : Invocation}
    (hv₀ : s.Begins ctx (Native.KeepsLive ctx.catalog.headers) v₀)
    (hv : Invocation.Within ctx v v₀) (hi : v.Executes ctx i u) :
    Only (fun f => ¬ f.IsDangling) (performInstruction ctx i u).1 := by
  have hR := living_lawfulRuns (Native.tame_keepsLive ctx.catalog.headers) hruns.declared
  obtain ⟨hm₀, w₀, args₀, t₀, hargs₀, hst₀⟩ := begins_corresponds hR.toLawful hs hruns hv₀
  obtain ⟨-, hm, w₁, args₁, t₁, -, hargs₁, hst₁⟩ :=
    within_corresponds hR trivial hm₀ hargs₀ hst₀ hv
  obtain ⟨-, w₂, u₂, -, hu⟩ := executes_corresponds hR trivial hm hargs₁ hst₁ hi
  exact performInstruction_not_isDangling hruns.declared hu i

/-- The native routines of the core library keep handles live and do not fail for one that names no
object. -/
theorem corelib_keepsLive (headers : Headers) :
    Catalog.withCorelib.Runs fun routine =>
      routine.KeepsLive headers ∧ routine.NeverDangles headers := by
  -- any context will do, since the routines do not know it
  have hR : (living (fun _ => True) fun f => ¬ f.IsDangling).Lawful ⟨{}, {}⟩ ⟨{}, {}⟩ :=
    living_lawful (fun _ _ _ _ => trivial) fun f hf => hf.not_isDangling
  have hruns := corelib_routine hR headers
  exact ⟨fun entry hentry => living_routine.1 (hruns.natives entry hentry),
    fun m hm routine hbody => living_routine.1 (hruns.methods m hm routine hbody)⟩

/-- **No dangling handles.**  Steps, invocations and constructions, however they end, lead from
closed machines to closed machines and return live handles only, if that is so for the native
routines that they get to, as it is for those of the core library.  No instruction that is executed
fails for a handle that names no object; nor does the run as a whole, unless a native routine does.
-/
theorem invoke_closed (hs : s.Closed)
    (hruns : s.RunsOnly ctx (Native.KeepsLive ctx.catalog.headers)) :
    (∀ fuel i r s', step ctx fuel i s = some (r, s') →
      s.StaysClosed ctx (Native.KeepsLive ctx.catalog.headers) s') ∧
    (∀ fuel m args r s', m.Runs (Native.KeepsLive ctx.catalog.headers) →
      s.heap.Covers args → invoke ctx fuel m args s = some (r, s') →
      s.StaysClosed ctx (Native.KeepsLive ctx.catalog.headers) s' ∧
        ∀ q, r = .ok (some (.object q)) → s'.heap.contains q) ∧
    (∀ fuel ctor args r s', s.heap.Covers args →
      construct ctx fuel ctor args s = some (r, s') →
      s.StaysClosed ctx (Native.KeepsLive ctx.catalog.headers) s' ∧
        ∀ q, r = .ok q → s'.heap.contains q) ∧
    (∀ i, Only (fun f => ¬ f.IsDangling) (performInstruction ctx i s).1) ∧
    (∀ v₀ v i u, s.Begins ctx (Native.KeepsLive ctx.catalog.headers) v₀ →
      Invocation.Within ctx v v₀ → v.Executes ctx i u →
      Only (fun f => ¬ f.IsDangling) (performInstruction ctx i u).1) ∧
    (s.RunsOnly ctx (Native.NeverDangles ctx.catalog.headers) →
      (∀ fuel i r s', step ctx fuel i s = some (r, s') → Only (fun f => ¬ f.IsDangling) r) ∧
      (∀ fuel m args r s', m.Runs (Native.KeepsLive ctx.catalog.headers) →
        m.Runs (Native.NeverDangles ctx.catalog.headers) →
        s.heap.Covers args → invoke ctx fuel m args s = some (r, s') →
        Only (fun f => ¬ f.IsDangling) r) ∧
      (∀ fuel ctor args r s', s.heap.Covers args →
        construct ctx fuel ctor args s = some (r, s') → Only (fun f => ¬ f.IsDangling) r)) ∧
    ∀ headers, Catalog.withCorelib.Runs fun routine =>
      routine.KeepsLive headers ∧ routine.NeverDangles headers := by
  have htame := Native.tame_keepsLive ctx.catalog.headers
  refine ⟨?_, ?_, ?_, ?_, ?_, ?_, corelib_keepsLive⟩
  · intro fuel i r s' h
    exact (step_staysClosed htame hs hruns h).1
  · intro fuel m args r s' hm hargs h
    obtain ⟨hstays, -, hr⟩ := invoke_staysClosed htame hs hruns hm hargs h
    exact ⟨hstays, hr⟩
  · intro fuel ctor args r s' hargs h
    obtain ⟨hstays, -, hr⟩ := construct_staysClosed htame hs hruns hargs h
    exact ⟨hstays, hr⟩
  · intro i
    exact performInstruction_not_isDangling hruns.declared
      (living_machines (fun _ => True) hs hruns.answers) i
  · intro v₀ v i u hv₀ hv hi
    exact executes_not_isDangling hs hruns hv₀ hv hi
  · intro hnever
    have htame := Native.tame_neverDangles ctx.catalog.headers
    have hboth := hruns.and hnever
    refine ⟨?_, ?_, ?_⟩
    · intro fuel i r s' h
      exact (step_staysClosed htame hs hboth h).2
    · intro fuel m args r s' hm hm' hargs h
      exact (invoke_staysClosed htame hs hboth (hm.and hm') hargs h).2.1
    · intro fuel ctor args r s' hargs h
      exact (construct_staysClosed htame hs hboth hargs h).2.1

end Machine

namespace Sample

/-- A machine whose one object holds itself in a field and is on the operand stack. -/
def holding : Machine where
  heap := ⟨#[.record type [("Self", .object ⟨1⟩)]]⟩
  calls := { frames := [{ stack := [.object ⟨1⟩] }], entries := 1, limit := 2 }

theorem holding_closed : holding.Closed := by
  have hlive : holding.heap.contains ⟨1⟩ := rfl
  refine ⟨?_, ?_⟩
  · rintro ⟨n⟩ o ho q hq
    have hn : 0 < n ∧ n ≤ 1 := of_decide_eq_true (Heap.contains_iff.2 ⟨o, ho⟩)
    obtain rfl : n = 1 := by omega
    cases ho
    obtain ⟨name, hname⟩ := hq
    cases List.mem_singleton.1 hname
    exact hlive
  · intro f hf q hq
    obtain rfl := List.mem_singleton.1 hf
    rcases hq with hq | ⟨_, hslot, -⟩ | hq
    · cases hq
    · cases hslot
    · cases List.mem_singleton.1 hq
      exact hlive

/-- The one native routine of the program does nothing. -/
theorem runsOnly {P : Native → Prop} (hP : ∀ name, P (.nothing name)) {s : Machine}
    (hs : s.dispatch = {}) : s.RunsOnly context P := by
  refine ⟨?_, ?_⟩
  · rintro m ⟨d, hd, hm⟩ routine hroutine
    obtain rfl := List.mem_singleton.1 hd
    simp only [List.mem_cons, List.not_mem_nil, or_false] at hm
    rcases hm with rfl | rfl | rfl | rfl | rfl <;> cases hroutine
    exact hP _
  · rw [hs]
    rintro entry ⟨⟩

theorem holding_runsOnly :
    holding.RunsOnly context (Native.KeepsLive context.catalog.headers) := by
  have hR : (Machine.living (fun _ => True) fun _ => True).Lawful context context :=
    Machine.living_lawful (fun _ _ _ _ => trivial) fun _ _ => trivial
  exact runsOnly (fun name => (Machine.living_routine.1 (nothing_routine hR _ name)).1) rfl

end Sample

namespace Machine

/-- The object that is created is there, and the one that was there still is. -/
theorem invoke_closed_holding :
    ∃ s', construct Sample.context 9 Sample.ctor.ref [] Sample.holding = some (.ok ⟨2⟩, s') ∧
      s'.Closed ∧ s'.heap.contains ⟨1⟩ ∧ s'.heap.contains ⟨2⟩ := by
  have hrun : (construct Sample.context 9 Sample.ctor.ref [] Sample.holding).map Prod.fst =
      some (.ok ⟨2⟩) := by decide +kernel
  obtain ⟨⟨_, s'⟩, hs', rfl⟩ := Option.map_eq_some_iff.1 hrun
  obtain ⟨-, -, hconstruct, -⟩ := invoke_closed Sample.holding_closed Sample.holding_runsOnly
  obtain ⟨hstays, hr⟩ := hconstruct _ _ _ _ _ (fun _ hq => by cases hq) hs'
  exact ⟨s', hs', hstays.closed, hstays.live ⟨1⟩ rfl, hr ⟨2⟩ rfl⟩

end Machine

end CilMachine
