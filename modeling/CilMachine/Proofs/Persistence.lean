/-
CilMachine/Proofs/Persistence.lean

Runs and the objects on the heap.  Each instruction that adds an object hands out the handle that
comes next (`performInstruction_handsOut`), and so does the creation of an object by the host.  And
whatever a run does to the heap, the same can be done to a store that represents it, operation by
operation: that is where handles are drawn from a counter, and what is live in a map
(`occurs_persists`).
-/
import CilMachine.Proofs.Operations
import CilMachine.Proofs.Stores

namespace CilMachine

namespace Machine

variable {ctx : Context} {fuel : Nat} {i : Instruction} {e : Effect} {r : Handle} {s t u : Machine}

/-! ### Handing out -/

/-- From the machine `s` to `u` one object has been added, under the next handle.  It has been
pushed, or a constructor is about to be called on it. -/
inductive HandsOut (s : Machine) : Effect → Machine → Prop
  | pushed {o : Outcome} {u : Machine} {f : Frame} {F : List Frame} :
      u.heap.size = s.heap.size + 1 → u.calls.frames = f :: F →
      f.stack.head? = some (.object s.heap.next) → HandsOut s (.outcome o) u
  | called {c : Call} {u : Machine} : u.heap.size = s.heap.size + 1 →
      c.created = some s.heap.next → c.arguments.head? = some (.object s.heap.next) →
      HandsOut s (.call c) u

theorem handsOut_of_push (hsize : t.heap.size = s.heap.size + 1)
    (h : (push (.object s.heap.next) >>= fun _ => proceed) t = (.ok e, u)) : s.HandsOut e u := by
  obtain ⟨⟨⟩, t', hpush, h⟩ := op_bind_eq_ok h
  obtain ⟨f, F, -, rfl⟩ := push_eq_ok hpush
  cases h
  exact .pushed hsize rfl rfl

theorem handsOut_of_record {traced : Bool} {event : Event} (hsize : t.heap.size = s.heap.size + 1)
    (h : (recordIf traced event >>= fun _ => push (.object s.heap.next) >>= fun _ => proceed) t =
      (.ok e, u)) : s.HandsOut e u := by
  obtain ⟨⟨⟩, t', hrecord, h⟩ := op_bind_eq_ok h
  have ht' := recordIf_eq_ok hrecord
  have hsize' : t'.heap.size = s.heap.size + 1 := by rw [ht']; exact hsize
  exact handsOut_of_push hsize' h

theorem loadString_handsOut {text : String} (h : loadString ctx text s = (.ok e, u)) :
    s.HandsOut e u := by
  obtain ⟨type, s₁, hlift, h⟩ := op_bind_eq_ok h
  obtain ⟨-, rfl⟩ := lift_eq_ok hlift
  obtain ⟨r, s₂, halloc, h⟩ := op_bind_eq_ok h
  obtain ⟨k, hk, hs₂⟩ := allocate_eq_ok halloc
  cases hk
  refine handsOut_of_record ?_ h
  rw [hs₂]
  exact Heap.size_alloc s.heap _

theorem newArray_handsOut {element : TypeRef} (h : newArray ctx element s = (.ok e, u)) :
    s.HandsOut e u := by
  obtain ⟨type, s₁, hlift, h⟩ := op_bind_eq_ok h
  obtain ⟨-, rfl⟩ := lift_eq_ok hlift
  obtain ⟨n, s₂, hpop, h⟩ := op_bind_eq_ok h
  obtain ⟨v, hpop, -⟩ := popInteger_eq_ok hpop
  obtain ⟨f, F, stack, -, -, hs₂⟩ := pop_eq_ok hpop
  split at h
  · cases h
  · obtain ⟨r, s₃, halloc, h⟩ := op_bind_eq_ok h
    obtain ⟨k, hk, hs₃⟩ := allocate_eq_ok halloc
    have hheap : s₂.heap = s.heap := by rw [hs₂]
    rw [hheap] at hk
    unfold Heap.allocArray at hk
    split at hk
    · cases hk
      refine handsOut_of_record ?_ h
      rw [hs₃]
      exact Heap.size_alloc s.heap _
    · cases hk

/-- An empty slot is filled with a new object. -/
theorem materialize_eq_ok {index : Int} {q : Handle}
    (h : materialize ctx r index s = (.ok q, u)) :
    u.heap = s.heap ∨ q = s.heap.next ∧ u.heap.size = s.heap.size + 1 := by
  obtain ⟨slot, s₁, hread, h⟩ := op_bind_eq_ok h
  obtain ⟨-, rfl⟩ := readHeap_eq_ok hread
  rcases slot with - | q'
  · -- the slot is empty: the new object is added, and then stored in it
    obtain ⟨element, s₂, hread, h⟩ := op_bind_eq_ok h
    obtain ⟨-, rfl⟩ := readHeap_eq_ok hread
    obtain ⟨q', s₃, halloc, h⟩ := op_bind_eq_ok h
    obtain ⟨layout, -, rfl, hs₃⟩ := allocateObject_eq_ok halloc
    obtain ⟨⟨⟩, s₄, hwrite, h⟩ := op_bind_eq_ok h
    obtain ⟨k, hk, hs₄⟩ := writeHeap_eq_ok hwrite
    have hwritten : s₃.heap.Write k := .slot hk
    cases h
    refine .inr ⟨rfl, ?_⟩
    rw [hs₄]
    show k.size = _
    rw [hwritten.recasts.size_eq, hs₃]
    exact Heap.size_alloc s.heap _
  · cases h
    exact .inl rfl

theorem loadElementRef_handsOut (h : loadElementRef ctx s = (.ok e, u)) :
    u.heap = s.heap ∨ s.HandsOut e u := by
  obtain ⟨n, s₁, hpop, h⟩ := op_bind_eq_ok h
  obtain ⟨v, hpop, -⟩ := popInteger_eq_ok hpop
  obtain ⟨f, F, stack, -, -, hs₁⟩ := pop_eq_ok hpop
  obtain ⟨r, s₂, hpop, h⟩ := op_bind_eq_ok h
  obtain ⟨g, G, stack', -, -, hs₂⟩ := pop_eq_ok (popObject_eq_ok hpop)
  obtain ⟨q, s₃, hmaterialize, h⟩ := op_bind_eq_ok h
  have hheap : s₂.heap = s.heap := by rw [hs₂, hs₁]
  rcases materialize_eq_ok hmaterialize with hkeep | ⟨rfl, hsize⟩
  · -- the slot was filled
    left
    obtain ⟨⟨⟩, s₄, hpush, h⟩ := op_bind_eq_ok h
    obtain ⟨f', F', -, rfl⟩ := push_eq_ok hpush
    cases h
    exact hkeep.trans hheap
  · right
    rw [hheap] at h hsize
    exact handsOut_of_push hsize h

theorem newObject_handsOut {ctor : MethodRef}
    (h : perform ctx (.newObject ctor) s = (.ok e, u)) : s.HandsOut e u := by
  obtain ⟨args, s₁, hpop, h⟩ := op_bind_eq_ok h
  obtain ⟨f, F, stack, -, -, -, hs₁⟩ := popMany_eq_ok hpop
  obtain ⟨⟨r, c⟩, s₂, hprepare, h⟩ := op_bind_eq_ok h
  obtain ⟨m, layout, -, -, -, rfl, rfl, hs₂⟩ := prepareConstruction_eq_ok hprepare
  have hheap : s₁.heap = s.heap := by rw [hs₁]
  cases h
  rw [hheap] at hs₂ ⊢
  refine .called ?_ rfl rfl
  rw [hs₂]
  exact Heap.size_alloc s.heap _

/-- The actions that add an object hand out the next handle; one of them adds it only where a slot
is empty. -/
def HandsOutNew (s : Machine) (a : Action) (e : Effect) (u : Machine) : Prop :=
  match a with
  | .loadString _ | .newArray _ | .newObject _ => s.HandsOut e u
  | .loadElementRef => u.heap = s.heap ∨ s.HandsOut e u
  | _ => True

theorem performInstruction_handsOut {a : Action} (ha : i.action? = .ok a)
    (h : performInstruction ctx i s = (.ok e, u)) : s.HandsOutNew a e u := by
  have h := performInstruction_eq_ok ha h
  cases a with
  | loadString text => exact loadString_handsOut h
  | newArray element => exact newArray_handsOut h
  | newObject ctor => exact newObject_handsOut h
  | loadElementRef => exact loadElementRef_handsOut h
  | _ => trivial

theorem construct_handsOut {ctor : MethodRef} {args : List Value}
    (h : construct ctx fuel ctor args s = some (.ok r, u)) : r = s.heap.next := by
  rw [construct_apply] at h
  rcases hp : prepareConstruction ctx ctor args s with ⟨e | ⟨q, c⟩, t⟩ <;> rw [hp] at h
  · cases h
  · obtain ⟨m, layout, -, -, -, rfl, -, -⟩ := prepareConstruction_eq_ok hp
    obtain ⟨⟨a, u'⟩, -, heq⟩ := Option.map_eq_some_iff.1 h
    rcases a with e | v <;> cases heq
    rfl

/-! ### Runs -/

/-- **Objects persist.**  There is a store that represents the heap before the run, made by
operations on the empty one; and whichever it is, at every point of the run, and whether its parts
succeed or fail, there are operations that take it to a store which represents the heap then.  These
operations have given out every handle once, and none that was live; what is live is what was and
what they have given out, numbered from one, and the counter is behind it; and every object that was
live still is, in its mold (`Store.Persists`).  The routes by which an object is added hand out the
handle of the counter, which is not live. -/
theorem occurs_persists (hruns : s.RunsOnly ctx (Native.KeepsHistory ctx.catalog.headers))
    (h : s.Occurs ctx (Native.KeepsHistory ctx.catalog.headers) u) :
    (∃ qs σ, Store.History {} qs σ ∧ σ.Represents s.heap) ∧
    ∀ σ : Store, σ.Represents s.heap →
      ∃ rs τ, σ.History rs τ ∧ s.heap.History rs u.heap ∧ τ.Represents u.heap ∧
        σ.Persists rs τ ∧ ¬ τ.contains τ.next ∧ u.heap.next = τ.next ∧
        (∀ i a e u', i.action? = .ok a → performInstruction ctx i u = (.ok e, u') →
          u.HandsOutNew a e u') ∧
        ∀ fuel ctor args r u', construct ctx fuel ctor args u = some (.ok r, u') →
          r = τ.next := by
  refine ⟨Store.exists_represents s.heap, fun σ hσ => ?_⟩
  have hkeeps : s.Keeps ctx (Native.KeepsHistory ctx.catalog.headers)
      fun k => ∃ rs, s.heap.History rs k := ⟨⟨[], .start⟩, hruns⟩
  obtain ⟨rs, hrs⟩ := (h.keeps (s.heap.history_invariant ctx) hkeeps).heap
  obtain ⟨τ, hτs, hτ⟩ := Store.exists_history hσ hrs
  have hnext : ¬ τ.contains τ.next := by
    rw [hτ.contains_eq, hτ.next_eq]
    exact u.heap.not_contains_next
  refine ⟨rs, τ, hτs, hrs, hτ, hτs.persists hσ, hnext, hτ.next_eq.symm, ?_, ?_⟩
  · intro i a e u' ha hperform
    exact performInstruction_handsOut ha hperform
  · intro fuel ctor args r u' hconstruct
    rw [hτ.next_eq]
    exact construct_handsOut hconstruct

/-- The object that was there is still there when another one has been created beside it. -/
theorem occurs_persists_run :
    ∃ (u : Machine) (σ τ : Store) (rs : List Handle),
      invoke Sample.context 9 Sample.run [] Sample.holding = some (.ok (some (.int32 7)), u) ∧
      σ.Represents Sample.holding.heap ∧ σ.History rs τ ∧ τ.Represents u.heap ∧ τ.nextId = 3 ∧
      rs = [⟨2⟩] ∧ ∃ o, τ.get? ⟨1⟩ = some o ∧ o.mold = .record Sample.type ["Self"] := by
  have hrun : (invoke Sample.context 9 Sample.run [] Sample.holding).map
      (fun p => (p.1, p.2.heap.size)) = some (.ok (some (.int32 7)), 2) := by decide +kernel
  obtain ⟨⟨_, u⟩, hu, heq⟩ := Option.map_eq_some_iff.1 hrun
  obtain ⟨rfl, hsize⟩ := Prod.mk.inj heq
  have hnothing : ∀ name,
      Native.KeepsHistory Sample.context.catalog.headers (.nothing name) :=
    fun _ _ _ => ⟨[], .start⟩
  have hinterpreted : Sample.run.Runs (Native.KeepsHistory Sample.context.catalog.headers) := by
    rintro _ ⟨⟩
  have hoccurs := Occurs.invoke .start hinterpreted hu
  obtain ⟨⟨-, σ, -, hσ⟩, hpersists⟩ := occurs_persists (Sample.runsOnly hnothing rfl) hoccurs
  obtain ⟨rs, τ, hist, hheap, hτ, hstore, -⟩ := hpersists σ hσ
  refine ⟨u, σ, τ, rs, hu, hσ, hist, hτ, ?_, ?_, hstore.kept ⟨1⟩ _ (hσ.get?_eq ⟨1⟩)⟩
  · rw [hstore.nextId, hτ.size_eq, hsize]
  · obtain ⟨hrs, hlength⟩ := hheap.handles
    rw [hsize] at hlength
    have hone : rs.length = 1 := by
      have hholding : Sample.holding.heap.size = 1 := rfl
      omega
    rw [hrs, hone]
    rfl

end Machine

end CilMachine
