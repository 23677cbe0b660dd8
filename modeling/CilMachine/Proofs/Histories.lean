/-
CilMachine/Proofs/Histories.lean

Objects stay, and handles are given out once.  The history of a heap consists of additions, each
under the next handle, and of writes.  No write changes an object's *mold*: its type and the names
of its fields, or its element type, its storage and its length.  So what is live at the end is what
was live at the start and what has been given out since, in order and without repetition; and
whatever was live is live still, in the same mold (`Heap.History.handles`, `Heap.History.retains`).

Whatever a machine does to its heap is such a history, as long as the native routines keep to them
(`Heap.history_invariant`).
-/
import CilMachine.Proofs.Evolution
import Mathlib.Data.List.Nodup

namespace CilMachine

/-! ### Molds -/

/-- What an object keeps for good. -/
inductive Mold
  | record (type : TypeRef) (names : List String)
  | array (element : TypeRef) (shape : Shape) (length : Nat)
deriving DecidableEq

/-- The mold of an object. -/
def HeapObject.mold : HeapObject → Mold
  | .record type fields => .record type fields.names
  | .array element storage => .array element storage.shape storage.size

namespace Heap

variable {h k l : Heap} {r : Handle} {o p : HeapObject} {rs qs : List Handle}

/-! ### Handles -/

theorem contains_eq_true : h.contains r = true ↔ 1 ≤ r.number ∧ r.number ≤ h.size :=
  decide_eq_true_iff

theorem not_contains_next (h : Heap) : ¬ h.contains h.next := by
  rw [contains_eq_true]
  simp [next, size]

/-! ### Histories -/

/-- One field, element or slot has been given a value. -/
inductive Write (h : Heap) : Heap → Prop
  | field {r : Handle} {name : String} {v : Value} {k : Heap} :
      h.setField r name v = .ok k → Write h k
  | element {r : Handle} {index : Int} {v : Value} {k : Heap} :
      h.setElement r index v = .ok k → Write h k
  | slot {r : Handle} {index : Int} {slot : Option Handle} {k : Heap} :
      h.setReference r index slot = .ok k → Write h k

/-- The heap has become `k` by additions and writes; the handles are those that the additions have
given out, in order. -/
inductive History (h : Heap) : List Handle → Heap → Prop
  | start : History h [] h
  | alloc {rs : List Handle} {k : Heap} (o : HeapObject) : History h rs k →
      History h (rs ++ [(k.alloc o).1]) (k.alloc o).2
  | write {rs : List Handle} {k l : Heap} : History h rs k → k.Write l → History h rs l

theorem History.trans (hhk : h.History rs k) (hkl : k.History qs l) : h.History (rs ++ qs) l := by
  induction hkl with
  | start => simpa using hhk
  | alloc o _ ih =>
      rw [← List.append_assoc]
      exact .alloc o ih
  | write _ hwrite ih => exact .write ih hwrite

/-- Some object is replaced by one of the same mold. -/
inductive Recasts (h : Heap) : Heap → Prop
  | intro {r : Handle} {o p : HeapObject} : h.get? r = some o → p.mold = o.mold →
      Recasts h (h.replace r p)

/-- No write adds a field or changes a length. -/
theorem Write.recasts (hwrite : h.Write k) : h.Recasts k := by
  cases hwrite with
  | field hset =>
      obtain ⟨type, fields, hget, hname, rfl⟩ := setField_eq_ok.1 hset
      exact .intro hget (congrArg (Mold.record type) (Named.names_put _ hname))
  | element hset =>
      obtain ⟨element, items, i, hget, -, rfl⟩ := setElement_eq_ok.1 hset
      exact .intro hget (congrArg (Mold.array element _) Array.size_setIfInBounds)
  | slot hset =>
      obtain ⟨element, slots, i, hget, -, rfl⟩ := setReference_eq_ok.1 hset
      exact .intro hget (congrArg (Mold.array element _) Array.size_setIfInBounds)

theorem Recasts.size_eq (hrecasts : h.Recasts k) : k.size = h.size := by
  obtain ⟨-, -⟩ := hrecasts
  exact size_replace h _ _

/-- Objects of the one heap are there in the other, in the same mold. -/
def Retains (h k : Heap) : Prop :=
  ∀ r o, h.get? r = some o → ∃ o', k.get? r = some o' ∧ o'.mold = o.mold

theorem Recasts.retains (hrecasts : h.Recasts k) : h.Retains k := by
  obtain ⟨hget, hmold⟩ := hrecasts
  rename_i r o p
  intro q o' ho'
  by_cases hq : q = r
  · subst hq
    rw [hget] at ho'
    cases ho'
    exact ⟨p, get?_replace_self p hget, hmold⟩
  · exact ⟨o', (get?_replace_of_ne p hq).trans ho', rfl⟩

theorem retains_alloc (h : Heap) (o : HeapObject) : h.Retains (h.alloc o).2 :=
  fun _ o' ho' => ⟨o', get?_alloc_of_some o ho', rfl⟩

theorem Retains.trans (hhk : h.Retains k) (hkl : k.Retains l) : h.Retains l := by
  intro r o ho
  obtain ⟨o₁, ho₁, hmold₁⟩ := hhk r o ho
  obtain ⟨o₂, ho₂, hmold₂⟩ := hkl r o₁ ho₁
  exact ⟨o₂, ho₂, hmold₂.trans hmold₁⟩

theorem History.retains (hhist : h.History rs k) : h.Retains k := by
  induction hhist with
  | start => exact fun _ o ho => ⟨o, ho, rfl⟩
  | alloc o _ ih => exact ih.trans (retains_alloc _ o)
  | write _ hwrite ih => exact ih.trans hwrite.recasts.retains

/-- The handles that have been given out are the ones that follow, without a gap. -/
theorem History.handles (hhist : h.History rs k) :
    rs = (List.range' (h.size + 1) rs.length).map Handle.mk ∧ k.size = h.size + rs.length := by
  -- along the history, whose end determines both the handles and the number of objects
  induction hhist with
  | start => exact ⟨rfl, rfl⟩
  | @alloc rs k o _ ih =>
      obtain ⟨hrs, hsize⟩ := ih
      have hnext : (k.alloc o).1 = ⟨h.size + 1 + rs.length⟩ := by
        show (⟨k.size + 1⟩ : Handle) = _
        rw [hsize]
        congr 1
        omega
      constructor
      · rw [List.length_append, List.length_singleton, List.range'_concat, List.map_append, ← hrs,
          hnext]
        simp
      · rw [size_alloc, hsize, List.length_append, List.length_singleton, Nat.add_assoc]
  | write _ hwrite ih => exact ⟨ih.1, hwrite.recasts.size_eq.trans ih.2⟩

theorem History.nodup (hhist : h.History rs k) : rs.Nodup := by
  rw [hhist.handles.1]
  have hinj : Function.Injective Handle.mk := fun _ _ heq => congrArg Handle.number heq
  exact List.Nodup.map hinj List.nodup_range'

theorem History.mem_iff (hhist : h.History rs k) :
    r ∈ rs ↔ h.size < r.number ∧ r.number ≤ k.size := by
  obtain ⟨hrs, hsize⟩ := hhist.handles
  rw [hrs, hsize]
  obtain ⟨n⟩ := r
  simp only [List.mem_map, List.mem_range'_1, Handle.mk.injEq, exists_eq_right]
  omega

/-- What has been given out was not live before. -/
theorem History.not_contains (hhist : h.History rs k) (hr : r ∈ rs) : ¬ h.contains r := by
  have hlt := (hhist.mem_iff.1 hr).1
  rw [contains_eq_true]
  omega

/-- What is live at the end was live at the start, or has been given out since. -/
theorem History.contains_iff (hhist : h.History rs k) :
    k.contains r ↔ h.contains r ∨ r ∈ rs := by
  have hsize := hhist.handles.2
  rw [contains_eq_true, contains_eq_true, hhist.mem_iff]
  omega

/-- What the machine does to a heap is history. -/
theorem Change.history {c : Catalog} (hchange : h.Change c k) : ∃ rs, h.History rs k := by
  cases hchange with
  | alloc _ => exact ⟨_, .alloc _ .start⟩
  | setField hget hname _ =>
      exact ⟨[], .write .start (.field (setField_eq_ok.2 ⟨_, _, hget, hname, rfl⟩))⟩
  | setElement n hget hi =>
      exact ⟨[], .write .start
        (.element (setElement_eq_ok.2 ⟨_, _, _, hget, checkedIndex_natCast hi, rfl⟩))⟩
  | setReference slot hget hi =>
      exact ⟨[], .write .start
        (.slot (setReference_eq_ok.2 ⟨_, _, _, hget, checkedIndex_natCast hi, rfl⟩))⟩

end Heap

/-! ### Native routines -/

/-- The routine acts on the heap by additions and writes only. -/
def Native.KeepsHistory (headers : Headers) (routine : Native) : Prop :=
  ∀ args (h : Heap), ∃ rs, h.History rs ((routine.run headers args).run.run h).2

theorem Heap.history_invariant (ctx : Context) (h : Heap) :
    Invariant ctx (Native.KeepsHistory ctx.catalog.headers) fun k => ∃ rs, h.History rs k where
  change := by
    rintro k l hchange ⟨rs, hrs⟩
    obtain ⟨qs, hqs⟩ := hchange.history
    exact ⟨rs ++ qs, hrs.trans hqs⟩
  routine := by
    rintro routine hroutine args k ⟨rs, hrs⟩
    obtain ⟨qs, hqs⟩ := hroutine args k
    exact ⟨rs ++ qs, hrs.trans hqs⟩

/-- The routines of the core library do. -/
theorem corelib_keepsHistory (headers : Headers) :
    Catalog.withCorelib.Runs (Native.KeepsHistory headers) := by
  have hpreserves : ∀ h : Heap, Catalog.withCorelib.Runs
      (Native.Preserves (fun k => ∃ rs, h.History rs k) headers) := fun h =>
    Machine.corelib_preserves (Heap.history_invariant ⟨{}, {}⟩ h).change headers
  refine ⟨fun entry hentry args h => ?_, fun m hm routine hbody args h => ?_⟩
  · exact (hpreserves h).natives entry hentry args h ⟨[], .start⟩
  · exact (hpreserves h).methods m hm routine hbody args h ⟨[], .start⟩

end CilMachine
