/-
CilMachine/Proofs/Confinement.lean

How far the effects of a call go.  A handle is *reached* if it is among the arguments, or in a field
or a slot of an object that is.  An invocation obtains no other handles but those of the objects
that are added while it runs; so it leaves every object alone that was there and is not reached, and
what it returns is reached or new (`invoke_confined`).  Native routines have to do their part; those
of the core library do.

The graph of objects changes all the time, but what is obtained can be told from the first heap and
the current one alone: it was reached at the start, or it was not live then and is now.  This set
grows with the heap, and objects in it hold only handles in it (`Heap.Confines`).
-/
import CilMachine.Proofs.Liveness

namespace CilMachine

open Correspondence

namespace Heap

variable {h k l : Heap} {args args' : List Value} {r q : Handle} {o p : HeapObject}

/-! ### Reach -/

/-- The handle is among the arguments, or in a field or a slot of an object that is reached. -/
inductive Reaches (h : Heap) (args : List Value) : Handle → Prop
  | argument {r : Handle} : .object r ∈ args → Reaches h args r
  | held {r q : Handle} {o : HeapObject} : Reaches h args r → h.get? r = some o → o.Holds q →
      Reaches h args q

/-- The handle was reached in the heap `h`, or it names an object of the heap `k` that was not there
in `h`. -/
def Obtains (h : Heap) (args : List Value) (k : Heap) (r : Handle) : Prop :=
  h.Reaches args r ∨ ¬ h.contains r ∧ k.contains r

/-- From `h` to `k`, no object has gone, only objects that were reached have changed, and what has
been obtained holds nothing else. -/
structure Confines (h : Heap) (args : List Value) (k : Heap) : Prop where
  live : ∀ r, h.contains r → k.contains r
  untouched : ∀ r, ¬ h.Obtains args k r → k.get? r = h.get? r
  holds : ∀ r o q, h.Obtains args k r → k.get? r = some o → o.Holds q → h.Obtains args k q

theorem obtains_self : h.Obtains args h r ↔ h.Reaches args r :=
  or_iff_left fun hr => hr.1 hr.2

theorem Confines.refl (h : Heap) (args : List Value) : h.Confines args h where
  live _ hr := hr
  untouched _ _ := rfl
  holds _ _ _ hr ho hq := obtains_self.2 (.held (obtains_self.1 hr) ho hq)

/-! ### Replacement and addition -/

theorem obtains_replace (r : Handle) (p : HeapObject) :
    h.Obtains args (k.replace r p) q ↔ h.Obtains args k q := by
  rw [Obtains, Obtains, contains_replace]

/-- An object that has been obtained may be replaced, if the new one holds nothing else. -/
theorem Confines.replace (hk : h.Confines args k) (hr : h.Obtains args k r)
    (ho : k.get? r = some o) (hp : ∀ q, p.Holds q → h.Obtains args k q) :
    h.Confines args (k.replace r p) := by
  refine ⟨fun q hq => ?_, fun q hq => ?_, fun q o' q' hq ho' hq' => ?_⟩
  · rw [contains_replace]
    exact hk.live q hq
  · rw [obtains_replace] at hq
    have hne : q ≠ r := fun heq => hq (heq ▸ hr)
    exact (get?_replace_of_ne p hne).trans (hk.untouched q hq)
  · rw [obtains_replace] at hq ⊢
    rcases get?_replace_eq_some ho ho' with ⟨-, rfl⟩ | ⟨-, ho'⟩
    · exact hp q' hq'
    · exact hk.holds q o' q' hq ho' hq'

/-- What is new in the heap `k` was not live in `h`. -/
theorem Confines.not_contains_next (hk : h.Confines args k) : ¬ h.contains k.next := by
  intro hr
  obtain ⟨o, ho⟩ := contains_iff.1 (hk.live _ hr)
  rw [get?_next] at ho
  cases ho

theorem Confines.obtains_alloc (hk : h.Confines args k) (o : HeapObject) :
    h.Obtains args (k.alloc o).2 r ↔ h.Obtains args k r ∨ r = k.next := by
  rw [Obtains, Obtains, contains_alloc]
  constructor
  · rintro (hr | ⟨hr, hold | hnext⟩)
    · exact .inl (.inl hr)
    · exact .inl (.inr ⟨hr, hold⟩)
    · exact .inr hnext
  · rintro ((hr | ⟨hr, hold⟩) | rfl)
    · exact .inl hr
    · exact .inr ⟨hr, .inl hold⟩
    · exact .inr ⟨hk.not_contains_next, .inr rfl⟩

/-- An object without handles may be added. -/
theorem Confines.alloc (hk : h.Confines args k) (ho : ∀ q, ¬ o.Holds q) :
    h.Confines args (k.alloc o).2 := by
  refine ⟨fun r hr => ?_, fun r hr => ?_, fun r o' q hr ho' hq => ?_⟩
  · rw [contains_alloc]
    exact .inl (hk.live r hr)
  · rw [hk.obtains_alloc, not_or] at hr
    exact (get?_alloc_of_ne o hr.2).trans (hk.untouched r hr.1)
  · rw [hk.obtains_alloc] at hr ⊢
    rcases get?_alloc_eq_some ho' with ⟨-, rfl⟩ | ⟨hnext, ho'⟩
    · exact absurd hq (ho q)
    · exact .inl (hk.holds r o' q (hr.resolve_right hnext) ho' hq)

/-! ### Composition -/

/-- What obtained handles reach is obtained. -/
theorem Confines.of_reaches (hk : h.Confines args k)
    (hargs : ∀ q, .object q ∈ args' → h.Obtains args k q) (hr : k.Reaches args' r) :
    h.Obtains args k r := by
  induction hr with
  | argument hmem => exact hargs _ hmem
  | held _ ho hq ih => exact hk.holds _ _ _ ih ho hq

theorem Obtains.mono (hkl : ∀ r, k.contains r → l.contains r) (hr : h.Obtains args k r) :
    h.Obtains args l r :=
  hr.imp_right fun hr => ⟨hr.1, hkl r hr.2⟩

/-- A second stretch that starts from obtained handles goes no further. -/
theorem Confines.of_obtains (hk : h.Confines args k) (hl : k.Confines args' l)
    (hargs : ∀ q, .object q ∈ args' → h.Obtains args k q) (hr : k.Obtains args' l r) :
    h.Obtains args l r := by
  rcases hr with hr | ⟨hnot, hnew⟩
  · exact (hk.of_reaches hargs hr).mono hl.live
  · -- what is new to the second stretch is new to both
    exact .inr ⟨fun hold => hnot (hk.live r hold), hnew⟩

theorem Confines.trans (hk : h.Confines args k) (hl : k.Confines args' l)
    (hargs : ∀ q, .object q ∈ args' → h.Obtains args k q) : h.Confines args l := by
  refine ⟨fun r hr => hl.live r (hk.live r hr), fun r hr => ?_, fun r o q hr ho hq => ?_⟩
  · have hsecond : ¬ k.Obtains args' l r := fun hr' => hr (hk.of_obtains hl hargs hr')
    have hfirst : ¬ h.Obtains args k r := fun hr' => hr (hr'.mono hl.live)
    exact (hl.untouched r hsecond).trans (hk.untouched r hfirst)
  · by_cases hsecond : k.Obtains args' l r
    · exact hk.of_obtains hl hargs (hl.holds r o q hsecond ho hq)
    · -- the second stretch has not touched this object, so the first one had obtained it
      rw [hl.untouched r hsecond] at ho
      have hfirst : h.Obtains args k r :=
        hr.imp_right fun hr => ⟨hr.1, contains_iff.2 ⟨o, ho⟩⟩
      exact (hk.holds r o q hfirst ho hq).mono hl.live

end Heap

/-! ### Native routines -/

/-- The routine changes no object but those that its arguments reach, and neither stores nor returns
any handle but those that they reach and those of the objects that it adds. -/
def Native.Confined (headers : Headers) (routine : Native) : Prop :=
  ∀ args (h : Heap) r k, (routine.run headers args).run.run h = (r, k) →
    h.Confines args k ∧ ∀ q, r = .ok (some (.object q)) → h.Obtains args k q

namespace Machine

variable {ctx : Context} {fuel : Nat} {m : Method} {args : List Value} {h : Heap} {s s' : Machine}
  {P : Native → Prop}

/-! ### What code obtains -/

/-- The correspondence of machines to themselves, for code that has been given the arguments when
the heap was `h`.  The worlds are the handles that have been obtained. -/
def confining (h : Heap) (args : List Value) (P : Native → Prop) : Correspondence (Handle → Prop) :=
  possessing (fun w k => h.Confines args k ∧ ∀ q, w q ↔ h.Obtains args k q) P fun _ => True

theorem confining_possession (h : Heap) (args : List Value) :
    Possession (fun _ => True) fun w k => h.Confines args k ∧ ∀ q, w q ↔ h.Obtains args k q where
  object := by
    rintro w k r ⟨hk, hw⟩ hr
    rcases ho : k.get? r with - | o
    · exact .inr ⟨rfl, trivial⟩
    · exact .inl ⟨o, rfl, fun q hq => (hw q).2 (hk.holds r o q ((hw r).1 hr) ho hq)⟩
  replace := by
    rintro w k r o p ⟨hk, hw⟩ hr ho hp
    refine ⟨hk.replace ((hw r).1 hr) ho fun q hq => (hw q).1 (hp q hq), fun q => ?_⟩
    rw [Heap.obtains_replace]
    exact hw q
  alloc := by
    rintro w k o ⟨hk, hw⟩ ho
    refine ⟨hk.alloc ho, fun q => ?_⟩
    rw [hk.obtains_alloc, ← hw]

theorem confining_lawful (hP : ∀ m, ctx.catalog.Declares m → m.Runs P) :
    (confining h args P).Lawful ctx ctx :=
  possessing_lawful (confining_possession h args) hP fun _ _ => trivial

/-- At the start, what has been obtained is what the arguments reach. -/
theorem confining_start (h : Heap) (args : List Value) :
    (confining h args P).heap (h.Obtains args h) h h :=
  ⟨rfl, .refl h args, fun _ => .rfl⟩

theorem confining_values :
    ValuesRel ((confining h args P).handle (h.Obtains args h)) args args :=
  possessing_values fun _ hq => .inl (.argument hq)

/-- A routine is confined if and only if it comes out alike wherever it is given what has been
obtained. -/
theorem confined_iff_routine {headers : Headers} {routine : Native} :
    routine.Confined headers ↔ ∀ h args, (confining h args P).Routine headers routine := by
  simp only [confining, possessing_routine]
  constructor
  · rintro hconfined h args w args' k r l ⟨hk, hw⟩ hargs hrun
    have hobtained : ∀ q, .object q ∈ args' → h.Obtains args k q :=
      fun q hq => (hw q).1 (hargs q hq)
    obtain ⟨hl, hr⟩ := hconfined args' k r l hrun
    exact ⟨h.Obtains args l, fun q hq => ((hw q).1 hq).mono hl.live,
      ⟨hk.trans hl hobtained, fun _ => .rfl⟩, fun _ _ => trivial,
      fun q hq => hk.of_obtains hl hobtained (hr q hq)⟩
  · intro hroutine args h r k hrun
    obtain ⟨w, -, ⟨hk, hw⟩, -, hr⟩ := hroutine h args _ args h r k ⟨.refl h args, fun _ => .rfl⟩
      (fun q hq => .inl (.argument hq)) hrun
    exact ⟨hk, fun q hq => (hw q).1 (hr q hq)⟩

/-- The routines of the core library are confined. -/
theorem corelib_confined (headers : Headers) :
    Catalog.withCorelib.Runs (Native.Confined headers) := by
  -- any context will do, since the routines do not know it
  have hR : ∀ h args, (confining h args fun _ => True).Lawful ⟨{}, {}⟩ ⟨{}, {}⟩ :=
    fun _ _ => confining_lawful fun _ _ _ _ => trivial
  have hroutine : ∀ h args,
      Catalog.withCorelib.Runs ((confining h args fun _ => True).Routine headers) :=
    fun h args => corelib_routine (hR h args) headers
  refine ⟨fun entry hentry => ?_, fun m hm routine hbody => ?_⟩
  · exact confined_iff_routine.2 fun h args => (hroutine h args).natives entry hentry
  · exact confined_iff_routine.2 fun h args => (hroutine h args).methods m hm routine hbody

/-! ### Invocations -/

/-- **Effects are confined to what the arguments reach.**  If native routines are confined, then an
invocation, however it ends, leaves every object as it was that was there and is not reached from
the arguments; and a handle that it returns was reached from them, or is that of an object which has
been added.  The routines of the core library are confined. -/
theorem invoke_confined (hruns : s.RunsOnly ctx (Native.Confined ctx.catalog.headers))
    (hm : m.Runs (Native.Confined ctx.catalog.headers)) {r : Except Failure (Option Value)}
    (hrun : invoke ctx fuel m args s = some (r, s')) :
    (∀ q o, s.heap.get? q = some o → ¬ s.heap.Reaches args q → s'.heap.get? q = some o) ∧
    (∀ q, r = .ok (some (.object q)) →
      s.heap.Reaches args q ∨ ¬ s.heap.contains q ∧ s'.heap.contains q) ∧
    ∀ headers, Catalog.withCorelib.Runs (Native.Confined headers) := by
  have hlawful : (confining s.heap args (Native.Confined ctx.catalog.headers)).Lawful ctx ctx :=
    confining_lawful hruns.declared
  have hR : (confining s.heap args (Native.Confined ctx.catalog.headers)).LawfulRuns ctx ctx
      (fun _ => False) fun _ => True :=
    lawfulRuns_of_sameShape hlawful rfl (fun _ _ _ => trivial)
      fun hm hbody => confined_iff_routine.1 (hm _ hbody) _ _
  have hst : (confining s.heap args (Native.Confined ctx.catalog.headers)).Outside
      (s.heap.Obtains args s.heap) s s :=
    ⟨confining_start s.heap args, .refl _, trivial, ⟨rfl, hruns.answers⟩, trivial⟩
  obtain ⟨w, _, t, -, -, hout, hr⟩ := (invoke_follows hR trivial hm confining_values hst).ends hrun
  obtain ⟨-, hconfines, hw⟩ := hout.heap
  refine ⟨fun q o ho hq => ?_, ?_, corelib_confined⟩
  · -- what was live and is not reached has not been obtained
    have hobtained : ¬ s.heap.Obtains args s'.heap q := by
      rintro (hreached | ⟨hnot, -⟩)
      · exact hq hreached
      · exact hnot (Heap.contains_iff.2 ⟨o, ho⟩)
    rw [hconfines.untouched q hobtained]
    exact ho
  · rintro q rfl
    cases hr with
    | ok hv =>
        cases hv with
        | some hv =>
            obtain ⟨_, -, hq⟩ := hv.of_object
            exact (hw q).1 hq

end Machine

/-! ### A sample graph -/

namespace Sample

/-- The type of nodes, each of which has a successor. -/
def node : TypeRef := ⟨"Sample", "Node"⟩

/-- Makes the second node the successor of the first, and returns the first. -/
def link : Method where
  declaring := node
  name := "Link"
  modifiers := { isStatic := true }
  params := [node, node]
  returns := some node
  locals := []
  body := .interpreted ⟨#[⟨0, 1, "ldarg.0", .sequential, .none⟩,
    ⟨1, 1, "ldarg.1", .sequential, .none⟩,
    ⟨2, 5, "stfld", .sequential, .field ⟨node, "Next"⟩⟩,
    ⟨7, 1, "ldarg.0", .sequential, .none⟩, ⟨8, 1, "ret", .ret, .none⟩], by decide⟩

def graphContext : Context where
  catalog := { types := [
    { ref := node, flavor := .classType, base := none, fields := [⟨"Next", node⟩]
      methods := [link] }] }

/-- Two nodes without a successor, and one whose successor is the first. -/
def graph : Machine where
  heap := ⟨#[.record node [("Next", .null)], .record node [("Next", .null)],
    .record node [("Next", .object ⟨1⟩)]]⟩
  calls := { frames := [{}], entries := 1, limit := 2 }

theorem graph_runsOnly (P : Native → Prop) : graph.RunsOnly graphContext P := by
  refine ⟨?_, ?_⟩
  · rintro m ⟨d, hd, hm⟩ routine hroutine
    obtain rfl := List.mem_singleton.1 hd
    obtain rfl := List.mem_singleton.1 hm
    cases hroutine
  · rintro entry ⟨⟩

/-- The third node is not reached from the others. -/
theorem graph_not_reaches :
    ¬ graph.heap.Reaches [.object ⟨1⟩, .object ⟨2⟩] ⟨3⟩ := by
  intro hreaches
  have hfirst : ∀ r, graph.heap.Reaches [.object ⟨1⟩, .object ⟨2⟩] r → r = ⟨1⟩ ∨ r = ⟨2⟩ := by
    intro r hr
    induction hr with
    | argument hmem => simpa using hmem
    | held _ ho hq ih =>
        -- neither node has a successor
        rcases ih with rfl | rfl <;> cases ho <;> obtain ⟨name, hmem⟩ := hq <;> simp at hmem
  rcases hfirst ⟨3⟩ hreaches with h | h <;> cases h

end Sample

namespace Machine

/-- Linking two nodes leaves the third one alone. -/
theorem invoke_confined_link :
    ∃ s', invoke Sample.graphContext 9 Sample.link [.object ⟨1⟩, .object ⟨2⟩] Sample.graph =
        some (.ok (some (.object ⟨1⟩)), s') ∧
      s'.heap.get? ⟨1⟩ = some (.record Sample.node [("Next", .object ⟨2⟩)]) ∧
      s'.heap.get? ⟨3⟩ = some (.record Sample.node [("Next", .object ⟨1⟩)]) := by
  have hrun : (invoke Sample.graphContext 9 Sample.link [.object ⟨1⟩, .object ⟨2⟩]
      Sample.graph).map (fun p => (p.1, p.2.heap.get? ⟨1⟩)) = some (.ok (some (.object ⟨1⟩)),
        some (.record Sample.node [("Next", .object ⟨2⟩)])) := by decide +kernel
  obtain ⟨⟨_, s'⟩, hs', heq⟩ := Option.map_eq_some_iff.1 hrun
  obtain ⟨rfl, hlinked⟩ := Prod.mk.inj heq
  have hlink : Sample.link.Runs (Native.Confined Sample.graphContext.catalog.headers) := by
    rintro _ ⟨⟩
  obtain ⟨huntouched, -⟩ := invoke_confined (Sample.graph_runsOnly _) hlink hs'
  exact ⟨s', hs', hlinked, huntouched ⟨3⟩ _ rfl Sample.graph_not_reaches⟩

end Machine

end CilMachine
