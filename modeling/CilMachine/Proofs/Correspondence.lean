/-
CilMachine/Proofs/Correspondence.lean

Two machines side by side.  A `Correspondence` says when a handle of one machine stands for a handle
of the other, when their heaps agree, and what else has to agree for the two to behave alike.  As
both machines allocate, more handles come to stand for each other; how far this has got is called a
*world*.

`Agree w x y A` says of two operations that, from machines that correspond in `w`, they come out
alike: with the same failure, or with values that `A` relates; and that the machines then correspond
in a later world, each with its call stack continued.  A correspondence is `Lawful` for two contexts
if it survives the few things that machines do to heaps, counters, logs and dispatchers; then every
basic operation agrees with itself.  The laws are all that is asked of a correspondence.  Those for
heaps ask no more than that it survives a `Heap.Change` made on both sides.

Taken with a relation of handles to themselves, the notion speaks of one machine: what the relation
holds of is then an invariant.
-/
import CilMachine.Machine.Action
import CilMachine.Proofs.Changes
import CilMachine.Proofs.Continues
import CilMachine.Proofs.Ordinary

namespace CilMachine

variable {W : Type} {α β γ δ : Type}

/-- What two machines have to agree on. -/
structure Correspondence (W : Type) where
  /-- One world is later than another. -/
  le : W → W → Prop
  /-- A handle of the one machine stands for a handle of the other. -/
  handle : W → Handle → Handle → Prop
  /-- The heaps agree. -/
  heap : W → Heap → Heap → Prop
  /-- The call stacks agree, apart from what is in their frames. -/
  callStacks : CallStack → CallStack → Prop
  /-- The counters agree. -/
  counters : Stats → Stats → Prop
  /-- The answers that the dispatchers keep agree. -/
  answers : Dispatch → Dispatch → Prop
  /-- The logs agree. -/
  logs : Array Event → Array Event → Prop
  /-- Which methods may be run. -/
  method : Method → Prop
  /-- Which failures may come out. -/
  failure : Failure → Prop

namespace Correspondence

/-- The machines correspond: their heaps agree, and so do their top frames, if there are any. -/
structure Machines (R : Correspondence W) (w : W) (s t : Machine) : Prop where
  heap : R.heap w s.heap t.heap
  frame : Option.Rel (Frame.Rel (R.handle w)) s.calls.frames.head? t.calls.frames.head?
  callStacks : R.callStacks s.calls t.calls
  counters : R.counters s.stats t.stats
  answers : R.answers s.dispatch t.dispatch
  logs : R.logs s.log t.log

/-- The machines correspond in everything but their frames. -/
structure Outside (R : Correspondence W) (w : W) (s t : Machine) : Prop where
  heap : R.heap w s.heap t.heap
  callStacks : R.callStacks s.calls t.calls
  counters : R.counters s.stats t.stats
  answers : R.answers s.dispatch t.dispatch
  logs : R.logs s.log t.log

theorem Machines.outside {R : Correspondence W} {w : W} {s t : Machine} (h : R.Machines w s t) :
    R.Outside w s t :=
  ⟨h.heap, h.callStacks, h.counters, h.answers, h.logs⟩

/-- The execution errors that may come out. -/
abbrev error (R : Correspondence W) (e : ExecError) : Prop := R.failure (.execution e)

/-- The laws of a correspondence for code that runs in one context here and in another there. -/
structure Lawful (R : Correspondence W) (ctx ctx' : Context) : Prop where
  catalog : ctx'.catalog = ctx.catalog
  refl : ∀ w, R.le w w
  trans : ∀ {w₁ w₂ w₃}, R.le w₁ w₂ → R.le w₂ w₃ → R.le w₁ w₃
  mono : ∀ {w w' r q}, R.le w w' → R.handle w r q → R.handle w' r q
  biUnique : ∀ w, Relator.BiUnique (R.handle w)
  ordinary : ∀ {f : Failure}, f.IsOrdinary → R.failure f
  size : ∀ {w h k}, R.heap w h k → k.size = h.size
  /-- Handles that stand for each other name related objects, or are one handle that names none. -/
  object : ∀ {w h k r q}, R.heap w h k → R.handle w r q →
    (∃ o p, h.get? r = some o ∧ k.get? q = some p ∧ o.Rel (R.handle w) p) ∨
      (h.get? r = none ∧ k.get? q = none ∧ q = r ∧ R.error (.unresolved (.heapObject r)))
  setField : ∀ {w h k r q type fields fields' name v u}, R.heap w h k → R.handle w r q →
    h.get? r = some (.record type fields) → k.get? q = some (.record type fields') →
    Value.Rel (R.handle w) v u → (fields.get? name).isSome → h.Stores ctx.catalog name v →
    R.heap w (h.replace r (.record type (fields.put name v)))
      (k.replace q (.record type (fields'.put name u)))
  setElement : ∀ {w h k r q element items items' i n}, R.heap w h k → R.handle w r q →
    h.get? r = some (.array element (.values items)) →
    k.get? q = some (.array element (.values items')) → i < items.size →
    R.heap w (h.replace r (.array element (.values (items.setIfInBounds i (.int32 n)))))
      (k.replace q (.array element (.values (items'.setIfInBounds i (.int32 n)))))
  setReference : ∀ {w h k r q element slots slots' i a b}, R.heap w h k → R.handle w r q →
    h.get? r = some (.array element (.references slots)) →
    k.get? q = some (.array element (.references slots')) →
    Option.Rel (R.handle w) a b → i < slots.size →
    R.heap w (h.replace r (.array element (.references (slots.setIfInBounds i a))))
      (k.replace q (.array element (.references (slots'.setIfInBounds i b))))
  /-- The same fresh object can be added on both sides; the new handles then stand for each
  other. -/
  alloc : ∀ {w h k o}, R.heap w h k → o.Fresh ctx.catalog →
    ∃ w', R.le w w' ∧ R.heap w' (h.alloc o).2 (k.alloc o).2 ∧ R.handle w' h.next k.next
  continues : ∀ {c c' d d'}, R.callStacks c d → c.Continues c' → d.Continues d' → R.callStacks c' d'
  count : ∀ {x y} (f : Stats → Stats), R.counters x y → R.counters (f x) (f y)
  /-- The same can be logged on both sides, if it is traced there. -/
  record : ∀ {w l k e e'} (traced : Tracing → Bool), R.logs l k → Event.Rel (R.handle w) e e' →
    R.logs (if traced ctx.tracing then l.push e else l)
      (if traced ctx'.tracing then k.push e' else k)
  dispatch : ∀ {d e} (declared : Method) (runtime : TypeRef), R.answers d e →
    Alike R.error (fun p q => q.1 = p.1 ∧ R.method p.1 ∧ R.answers p.2 q.2)
      (d.resolve ctx.catalog declared runtime) (e.resolve ctx.catalog declared runtime)
  declared : ∀ {m : Method}, ctx.catalog.Declares m → R.method m

/-- From corresponding machines, the operations come out alike, with corresponding machines. -/
def Agree (R : Correspondence W) (w : W) (x : Machine.Op α) (y : Machine.Op β)
    (A : W → α → β → Prop) : Prop :=
  ∀ s t, R.Machines w s t → ∃ w', R.le w w' ∧ R.Machines w' (x s).2 (y t).2 ∧
    s.calls.Continues (x s).2.calls ∧ t.calls.Continues (y t).2.calls ∧
    Alike R.failure (A w') (x s).1 (y t).1

variable {R : Correspondence W} {ctx ctx' : Context} {w : W}

theorem Lawful.only {x : Except ExecError α} (hR : R.Lawful ctx ctx') (h : OnlyOrdinary x) :
    Only R.error x :=
  fun e he => hR.ordinary (h e he)

/-- Related frames stay related in later worlds. -/
theorem Lawful.frame_mono {w' : W} {F G : Option Frame} (hR : R.Lawful ctx ctx') (hle : R.le w w')
    (h : Option.Rel (Frame.Rel (R.handle w)) F G) :
    Option.Rel (Frame.Rel (R.handle w')) F G := by
  cases h with
  | none => exact .none
  | some hfg => exact .some (hfg.mono fun _ _ => hR.mono hle)

/-! ### One heap on both sides -/

/-- The correspondence of machines with one and the same heap, and given demands on the rest. -/
def sameHeap (callStacks : CallStack → CallStack → Prop) (counters : Stats → Stats → Prop)
    (answers : Dispatch → Dispatch → Prop) (logs : Array Event → Array Event → Prop)
    (method : Method → Prop) (failure : Failure → Prop) :
    Correspondence Unit where
  le _ _ := True
  handle _ := Eq
  heap _ := Eq
  callStacks := callStacks
  counters := counters
  answers := answers
  logs := logs
  method := method
  failure := failure

theorem sameHeap_lawful {callStacks : CallStack → CallStack → Prop}
    {counters : Stats → Stats → Prop} {answers : Dispatch → Dispatch → Prop}
    {logs : Array Event → Array Event → Prop} {method : Method → Prop} {failure : Failure → Prop}
    (catalog : ctx'.catalog = ctx.catalog)
    (ordinary : ∀ {f : Failure}, f.IsOrdinary → failure f)
    (missing : ∀ r, failure (.unresolved (.heapObject r)))
    (continues : ∀ {c c' d d'}, callStacks c d → c.Continues c' → d.Continues d' → callStacks c' d')
    (count : ∀ {x y} (f : Stats → Stats), counters x y → counters (f x) (f y))
    (record : ∀ {l k} (traced : Tracing → Bool) (e : Event), logs l k →
      logs (if traced ctx.tracing then l.push e else l)
        (if traced ctx'.tracing then k.push e else k))
    (dispatch : ∀ {d e} (declared : Method) (runtime : TypeRef), answers d e →
      Alike (fun e => failure (.execution e))
        (fun p q => q.1 = p.1 ∧ method p.1 ∧ answers p.2 q.2)
        (d.resolve ctx.catalog declared runtime) (e.resolve ctx.catalog declared runtime))
    (declared : ∀ {m : Method}, ctx.catalog.Declares m → method m) :
    (sameHeap callStacks counters answers logs method failure).Lawful ctx ctx' where
  catalog := catalog
  refl _ := trivial
  trans _ _ := trivial
  mono _ h := h
  biUnique _ := ⟨fun _ _ _ h h' => h.trans h'.symm, fun _ _ _ h h' => h.symm.trans h'⟩
  ordinary := ordinary
  size hh := congrArg Heap.size hh.symm
  object {_ h _ r _} hh hr := by
    obtain rfl : h = _ := hh
    obtain rfl : r = _ := hr
    rcases ho : h.get? r with - | o
    · exact .inr ⟨rfl, rfl, rfl, missing r⟩
    · exact .inl ⟨o, o, rfl, rfl, o.rel_eq⟩
  setField {_ h _ r _ _ _ _ _ v _} hh hr ho hp hv _ _ := by
    obtain rfl : h = _ := hh
    obtain rfl : r = _ := hr
    obtain rfl : v = _ := hv.eq
    cases ho.symm.trans hp
    rfl
  setElement {_ h _ r _ _ _ _ _ _} hh hr ho hp _ := by
    obtain rfl : h = _ := hh
    obtain rfl : r = _ := hr
    cases ho.symm.trans hp
    rfl
  setReference {_ h _ r _ _ _ _ _ a _} hh hr ho hp hab _ := by
    obtain rfl : h = _ := hh
    obtain rfl : r = _ := hr
    cases ho.symm.trans hp
    cases hab with
    | none => rfl
    | some hab =>
        cases hab
        rfl
  alloc {_ h _ _} hh _ := by
    obtain rfl : h = _ := hh
    exact ⟨(), trivial, rfl, rfl⟩
  continues := continues
  count := count
  record {_ _ _ e _} traced hl he := by
    obtain rfl : e = _ := he.eq
    exact record traced e hl
  dispatch := dispatch
  declared := declared

/-! ### Composition -/

namespace Agree

variable {x : Machine.Op α} {y : Machine.Op β} {f : α → Machine.Op γ} {g : β → Machine.Op δ}
  {A B : W → α → β → Prop} {C : W → γ → δ → Prop}

theorem imp (h : R.Agree w x y A) (hAB : ∀ w' a b, R.le w w' → A w' a b → B w' a b) :
    R.Agree w x y B := by
  intro s t hst
  obtain ⟨w', hle, hm, hc, hd, ho⟩ := h s t hst
  exact ⟨w', hle, hm, hc, hd, ho.imp fun a b => hAB w' a b hle⟩

theorem bind (hR : R.Lawful ctx ctx') (h : R.Agree w x y A)
    (hfg : ∀ w', R.le w w' → ∀ a b, A w' a b → R.Agree w' (f a) (g b) C) :
    R.Agree w (x >>= f) (y >>= g) C := by
  intro s t hst
  obtain ⟨w', hle, hm, hc, hd, ho⟩ := h s t hst
  rcases hx : x s with ⟨a, s'⟩
  rcases hy : y t with ⟨b, t'⟩
  rw [hx, hy] at hm ho
  rw [hx] at hc
  rw [hy] at hd
  rw [op_bind_apply, op_bind_apply, hx, hy]
  cases ho with
  | error he => exact ⟨w', hle, hm, hc, hd, .error he⟩
  | ok ha =>
      obtain ⟨w'', hle', hm', hc', hd', ho'⟩ := hfg w' hle _ _ ha s' t' hm
      exact ⟨w'', hR.trans hle hle', hm', hc.trans hc', hd.trans hd', ho'⟩

theorem discard (h : R.Agree w x y A) :
    R.Agree w (Functor.discard x) (Functor.discard y) fun _ _ _ => True := by
  intro s t hst
  obtain ⟨w', hle, hm, hc, hd, ho⟩ := h s t hst
  rw [op_discard_apply, op_discard_apply]
  exact ⟨w', hle, hm, hc, hd, ho.map fun _ _ _ => trivial⟩

theorem pure (hR : R.Lawful ctx ctx') {a : α} {b : β} (h : A w a b) :
    R.Agree w (pure a) (pure b) A :=
  fun _ _ hst => ⟨w, hR.refl w, hst, .refl _, .refl _, .ok h⟩

theorem throw (hR : R.Lawful ctx ctx') {e : Failure} (h : R.failure e) :
    R.Agree w (throw e : Machine.Op α) (throw e : Machine.Op β) A :=
  fun _ _ hst => ⟨w, hR.refl w, hst, .refl _, .refl _, .error h⟩

/-- What follows a failure does not matter. -/
theorem throw_bind (hR : R.Lawful ctx ctx') {e : Failure} (h : R.failure e) :
    R.Agree w (MonadExcept.throw e >>= f) (MonadExcept.throw e >>= g) C :=
  (throw (A := fun _ _ _ => False) hR h).bind hR fun _ _ _ _ hf => hf.elim

/-- Computations that do not touch the machine. -/
theorem lift (hR : R.Lawful ctx ctx') {x : Except ExecError α} {y : Except ExecError β}
    (h : Alike R.error (A w) x y) :
    R.Agree w (liftM x : Machine.Op α) (liftM y : Machine.Op β) A := by
  intro s t hst
  rw [Machine.lift_apply, Machine.lift_apply]
  refine ⟨w, hR.refl w, hst, .refl _, .refl _, ?_⟩
  cases h with
  | ok ha => exact .ok ha
  | error he => exact .error he

/-- A computation that does not touch the machine and fails with ordinary errors only. -/
theorem liftSelf (hR : R.Lawful ctx ctx') {x : Except ExecError α} (h : OnlyOrdinary x) :
    R.Agree w (liftM x : Machine.Op α) (liftM x : Machine.Op α)
      fun _ a b => a = b ∧ x = .ok a :=
  .lift hR (.of_only (hR.only h))

end Agree

/-! ### Logs -/

theorem agree_recordIf (hR : R.Lawful ctx ctx') (traced : Tracing → Bool) {e e' : Event}
    (he : Event.Rel (R.handle w) e e') :
    R.Agree w (Machine.recordIf (traced ctx.tracing) e)
      (Machine.recordIf (traced ctx'.tracing) e') fun _ _ _ => True := by
  intro s t hst
  rw [Machine.recordIf_apply, Machine.recordIf_apply]
  exact ⟨w, hR.refl w, ⟨hst.heap, hst.frame, hst.callStacks, hst.counters, hst.answers,
    hR.record traced hst.logs he⟩, .refl _, .refl _, .ok trivial⟩

/-! ### Frames -/

theorem agree_current (hR : R.Lawful ctx ctx') {s t : Machine} (h : R.Machines w s t) :
    Alike R.error (Frame.Rel (R.handle w)) s.calls.current t.calls.current := by
  have hf := h.frame
  unfold CallStack.current
  generalize s.calls.frames = F, t.calls.frames = G at hf
  rcases F with - | ⟨f, F⟩ <;> rcases G with - | ⟨g, G⟩ <;> cases hf
  · exact .error (hR.ordinary rfl)
  · exact .ok ‹_›

theorem agree_frame (hR : R.Lawful ctx ctx') :
    R.Agree w Machine.frame Machine.frame fun w => Frame.Rel (R.handle w) := by
  intro s t hst
  rw [Machine.frame_apply, Machine.frame_apply]
  refine ⟨w, hR.refl w, hst, .refl _, .refl _, ?_⟩
  have h := agree_current hR hst
  generalize s.calls.current = f, t.calls.current = g at h
  cases h with
  | ok hfg => exact .ok hfg
  | error he => exact .error he

theorem onFrame_apply (φ : Frame → Except ExecError (α × Frame)) (s : Machine) :
    Machine.onFrame φ s = match s.calls.current >>= φ with
      | .ok (a, f) => (.ok a, { s with calls := s.calls.setCurrent f })
      | .error e => (.error (Failure.execution e), s) := by
  rw [Machine.onFrame, op_bind_apply, Machine.frame_apply]
  rcases s.calls.current with e | f
  · rfl
  · show (liftM (φ f) >>= _ : Machine.Op α) s = match φ f with
      | .ok (a, f) => (.ok a, { s with calls := s.calls.setCurrent f })
      | .error e => (.error (Failure.execution e), s)
    rw [op_bind_apply, Machine.lift_apply]
    rcases φ f with e | ⟨a, g⟩ <;> rfl

theorem machines_setCurrent (hR : R.Lawful ctx ctx') {s t : Machine} {f f' g g' : Frame}
    (h : R.Machines w s t) (hs : s.calls.current = .ok f) (ht : t.calls.current = .ok g)
    (hrel : f'.Rel (R.handle w) g') (hf : f.Continues f') (hg : g.Continues g') :
    R.Machines w { s with calls := s.calls.setCurrent f' }
      { t with calls := t.calls.setCurrent g' } := by
  refine ⟨h.heap, ?_, hR.continues h.callStacks (.setCurrent hs hf) (.setCurrent ht hg),
    h.counters, h.answers, h.logs⟩
  obtain ⟨sheap, ⟨sframes, sentries, slimit⟩, sdispatch, sstats, slog⟩ := s
  obtain ⟨theap, ⟨tframes, tentries, tlimit⟩, tdispatch, tstats, tlog⟩ := t
  rcases sframes with - | ⟨f, F⟩
  · cases hs
  · rcases tframes with - | ⟨g, G⟩
    · cases ht
    · exact .some hrel

/-- Changes of the top frame agree if they do so on related frames. -/
theorem agree_onFrame (hR : R.Lawful ctx ctx') {φ : Frame → Except ExecError (α × Frame)}
    {ψ : Frame → Except ExecError (β × Frame)} {A : W → α → β → Prop}
    (h : ∀ f g, f.Rel (R.handle w) g →
      Alike R.error (fun p q => A w p.1 q.1 ∧ p.2.Rel (R.handle w) q.2 ∧
        f.Continues p.2 ∧ g.Continues q.2) (φ f) (ψ g)) :
    R.Agree w (Machine.onFrame φ) (Machine.onFrame ψ) A := by
  intro s t hst
  rw [onFrame_apply, onFrame_apply]
  have hcur := agree_current hR hst
  rcases hs : s.calls.current with e | f <;> rcases ht : t.calls.current with e' | g <;>
    rw [hs, ht] at hcur <;> cases hcur
  · exact ⟨w, hR.refl w, hst, .refl _, .refl _, .error ‹_›⟩
  · have hfg := h f g ‹_›
    simp only [bind, Except.bind]
    rcases hφ : φ f with e | ⟨a, f'⟩ <;> rcases hψ : ψ g with e' | ⟨b, g'⟩ <;>
      rw [hφ, hψ] at hfg <;> cases hfg
    · exact ⟨w, hR.refl w, hst, .refl _, .refl _, .error ‹_›⟩
    · obtain ⟨ha, hrel, hf, hg⟩ := ‹A w _ _ ∧ _›
      exact ⟨w, hR.refl w, machines_setCurrent hR hst hs ht hrel hf hg,
        .setCurrent hs hf, .setCurrent ht hg, .ok ha⟩

/-- Changes of the operand stack agree if they do so on related stacks. -/
theorem agree_onStack (hR : R.Lawful ctx ctx')
    {φ : OperandStack → Except ExecError (α × OperandStack)}
    {ψ : OperandStack → Except ExecError (β × OperandStack)} {A : W → α → β → Prop}
    (h : ∀ x y, ValuesRel (R.handle w) x y →
      Alike R.error (fun p q => A w p.1 q.1 ∧ ValuesRel (R.handle w) p.2 q.2) (φ x) (ψ y)) :
    R.Agree w (Machine.onStack φ) (Machine.onStack ψ) A := by
  refine agree_onFrame hR fun f g hfg => ?_
  refine (h _ _ hfg.stack).map fun p q hpq => ?_
  exact ⟨hpq.1, ⟨hfg.arguments, hfg.locals, hpq.2⟩, .withStack f _, .withStack g _⟩

theorem agree_push (hR : R.Lawful ctx ctx') {v u : Value} (h : Value.Rel (R.handle w) v u) :
    R.Agree w (Machine.push v) (Machine.push u) fun _ _ _ => True :=
  agree_onStack hR fun _ _ hst => .ok ⟨trivial, .cons h hst⟩

theorem agree_pop (hR : R.Lawful ctx ctx') :
    R.Agree w Machine.pop Machine.pop fun w => Value.Rel (R.handle w) := by
  refine agree_onStack hR fun x y hxy => ?_
  cases hxy with
  | nil => exact .error (hR.ordinary rfl)
  | cons hv hrest => exact .ok ⟨hv, hrest⟩

theorem agree_popMany (hR : R.Lawful ctx ctx') (n : Nat) :
    R.Agree w (Machine.popMany n) (Machine.popMany n) fun w => ValuesRel (R.handle w) := by
  refine agree_onStack hR fun x y hxy => ?_
  unfold OperandStack.popMany
  rw [← hxy.length_eq]
  split
  · exact .ok ⟨List.rel_reverse (List.forall₂_take n hxy), List.forall₂_drop n hxy⟩
  · exact .error (hR.ordinary rfl)

theorem agree_dup (hR : R.Lawful ctx ctx') :
    R.Agree w Machine.dup Machine.dup fun _ _ _ => True := by
  refine agree_onStack hR fun x y hxy => ?_
  cases hxy with
  | nil => exact .error (hR.ordinary rfl)
  | cons hv hrest => exact .ok ⟨trivial, .cons hv (.cons hv hrest)⟩

theorem agree_setLocal (hR : R.Lawful ctx ctx') {v u : Value} (index : Nat)
    (h : Value.Rel (R.handle w) v u) :
    R.Agree w (Machine.setLocal index v) (Machine.setLocal index u) fun _ _ _ => True := by
  refine agree_onFrame hR fun f g hfg => ?_
  have h := Locals.set_alike hfg.locals index h
  rcases hf : f.locals.set index v with e | ls <;>
    rcases hg : g.locals.set index u with e' | ls' <;>
    rw [hf, hg] at h <;> cases h
  · exact .error (hR.ordinary ‹_›)
  · exact .ok ⟨trivial, ⟨hfg.arguments, ‹_›, hfg.stack⟩, .withLocal hf, .withLocal hg⟩

theorem ordinary_rejected (op : Operation) (v : Value) : (Machine.rejected op v).IsOrdinary := rfl

theorem agree_popInteger (hR : R.Lawful ctx ctx') (op : Operation) :
    R.Agree w (Machine.popInteger op) (Machine.popInteger op) fun _ n k => n = k := by
  refine (agree_pop hR).bind hR fun w' _ v u hv => ?_
  rw [Machine.rejected, Machine.rejected, hv.integer?_eq, hv.kind_eq]
  rcases v.integer? with - | n
  · exact .throw hR (hR.ordinary (ordinary_rejected op v))
  · exact .pure hR rfl

theorem agree_popObject (hR : R.Lawful ctx ctx') (op : Operation) :
    R.Agree w (Machine.popObject op) (Machine.popObject op) fun w => R.handle w := by
  refine (agree_pop hR).bind hR fun w' _ v u hv => ?_
  cases hv with
  | object hr => exact .pure hR hr
  | same hv =>
      cases v with
      | object r => cases hv
      | null => exact .throw hR (hR.ordinary rfl)
      | _ => exact .throw hR (hR.ordinary (ordinary_rejected op _))

/-! ### Reading the heap -/

section Heap

variable {h k : Heap} {r q : Handle}

theorem Lawful.get (hR : R.Lawful ctx ctx') (hh : R.heap w h k) (hr : R.handle w r q) :
    Alike R.error (HeapObject.Rel (R.handle w)) (h.get r) (k.get q) := by
  unfold Heap.get
  rcases hR.object hh hr with ⟨o, p, ho, hp, hop⟩ | ⟨ho, hp, rfl, he⟩
  · rw [ho, hp]
    exact .ok hop
  · rw [ho, hp]
    exact .error he

theorem Lawful.mismatch (hR : R.Lawful ctx ctx') (o : HeapObject) (shape : Shape) :
    R.error (o.mismatch shape) :=
  hR.ordinary rfl

theorem Lawful.getRecord (hR : R.Lawful ctx ctx') (hh : R.heap w h k) (hr : R.handle w r q) :
    Alike R.error (fun p p' => p'.1 = p.1 ∧ FieldsRel (R.handle w) p.2 p'.2)
      (h.getRecord r) (k.getRecord q) := by
  refine (hR.get hh hr).bind fun o p hop => ?_
  cases hop with
  | record type hfields => exact .ok ⟨rfl, hfields⟩
  | values => exact .error (hR.mismatch _ _)
  | references => exact .error (hR.mismatch _ _)

theorem Lawful.getField (hR : R.Lawful ctx ctx') (hh : R.heap w h k) (hr : R.handle w r q)
    (name : String) :
    Alike R.error (Value.Rel (R.handle w)) (h.getField r name) (k.getField q name) := by
  refine (hR.getRecord hh hr).bind fun p p' hp => ?_
  obtain ⟨type, fields⟩ := p
  obtain ⟨type', fields'⟩ := p'
  obtain ⟨rfl, hfields⟩ := hp
  have hv := hfields.get? name
  dsimp only
  generalize fields.get? name = a, fields'.get? name = b at hv
  cases hv with
  | none => exact .error (hR.ordinary rfl)
  | some hv => exact .ok hv

theorem Lawful.getArray (hR : R.Lawful ctx ctx') (hh : R.heap w h k) (hr : R.handle w r q) :
    Alike R.error (fun p p' => p'.1 = p.1 ∧ p'.2.size = p.2.size) (h.getArray r)
      (k.getArray q) := by
  refine (hR.get hh hr).bind fun o p hop => ?_
  cases hop with
  | record => exact .error (hR.mismatch _ _)
  | values element hitems => exact .ok ⟨rfl, hitems.length_eq.symm⟩
  | references element hslots => exact .ok ⟨rfl, hslots.length_eq.symm⟩

theorem Lawful.elementType (hR : R.Lawful ctx ctx') (hh : R.heap w h k)
    (hr : R.handle w r q) : Alike R.error Eq (h.elementType r) (k.elementType q) :=
  (hR.getArray hh hr).bind fun _ _ hp => .ok hp.1.symm

theorem Lawful.arrayLength (hR : R.Lawful ctx ctx') (hh : R.heap w h k)
    (hr : R.handle w r q) : Alike R.error Eq (h.arrayLength r) (k.arrayLength q) :=
  (hR.getArray hh hr).bind fun _ _ hp => .ok hp.2.symm

theorem Lawful.indexed (hR : R.Lawful ctx ctx') (index : Int) (length : Nat) :
    Alike R.error (fun i j => i = j ∧ i < length) (checkedIndex index length)
      (checkedIndex index length) :=
  (Alike.of_only (hR.only (checkedIndex_onlyPlain index length).ordinary)).imp fun _ _ h =>
    ⟨h.1, checkedIndex_lt h.2⟩

theorem Lawful.getElement (hR : R.Lawful ctx ctx') (hh : R.heap w h k) (hr : R.handle w r q)
    (index : Int) :
    Alike R.error (Value.Rel fun _ _ => True) (h.getElement r index) (k.getElement q index) := by
  have hvalues : Alike R.error
      (fun p p' => ValuesRel (fun _ _ => True) p.2.toList p'.2.toList)
      (h.getValues r) (k.getValues q) := by
    refine (hR.get hh hr).bind fun o p hop => ?_
    cases hop with
    | record => exact .error (hR.mismatch _ _)
    | values element hitems => exact .ok hitems
    | references => exact .error (hR.mismatch _ _)
  refine hvalues.bind fun ⟨_, items⟩ ⟨_, items'⟩ hp => ?_
  have hsize : items'.size = items.size := hp.length_eq.symm
  simp only [hsize]
  refine (hR.indexed index items.size).bind fun i j hij => ?_
  obtain ⟨rfl, -⟩ := hij
  exact .ok (forall₂_getD hp (.same rfl) i)

theorem Lawful.getReference (hR : R.Lawful ctx ctx') (hh : R.heap w h k)
    (hr : R.handle w r q) (index : Int) :
    Alike R.error (Option.Rel (R.handle w)) (h.getReference r index)
      (k.getReference q index) := by
  have hslots : Alike R.error
      (fun p p' => List.Forall₂ (Option.Rel (R.handle w)) p.2.toList p'.2.toList)
      (h.getSlots r) (k.getSlots q) := by
    refine (hR.get hh hr).bind fun o p hop => ?_
    cases hop with
    | record => exact .error (hR.mismatch _ _)
    | values => exact .error (hR.mismatch _ _)
    | references element hslots => exact .ok hslots
  refine hslots.bind fun ⟨_, slots⟩ ⟨_, slots'⟩ hp => ?_
  have hsize : slots'.size = slots.size := hp.length_eq.symm
  simp only [hsize]
  refine (hR.indexed index slots.size).bind fun i j hij => ?_
  obtain ⟨rfl, -⟩ := hij
  exact .ok (forall₂_getD hp .none i)

/-! ### Writing the heap -/

theorem Lawful.writeField (hR : R.Lawful ctx ctx') (hh : R.heap w h k) (hr : R.handle w r q)
    {name : String} {v u : Value} (hv : Value.Rel (R.handle w) v u)
    (hstores : h.Stores ctx.catalog name v) :
    Alike R.error (R.heap w) (h.setField r name v) (k.setField q name u) := by
  unfold Heap.setField Heap.getRecord Heap.get
  rcases hR.object hh hr with ⟨o, p, ho, hp, hop⟩ | ⟨ho, hp, rfl, he⟩
  · rw [ho, hp]
    cases hop with
    | record type hfields =>
        rename_i fields fields'
        have hname : (fields'.get? name).isSome = (fields.get? name).isSome := by
          have hv := hfields.get? name
          generalize fields.get? name = a, fields'.get? name = b at hv
          cases hv <;> rfl
        show Alike R.error _
          (if (fields.get? name).isSome then .ok _ else .error (.unresolved _))
          (if (fields'.get? name).isSome then .ok _ else .error (.unresolved _))
        rw [hname]
        split
        · exact .ok (hR.setField hh hr ho hp hv ‹_› hstores)
        · exact .error (hR.ordinary rfl)
    | values => exact .error (hR.mismatch _ _)
    | references => exact .error (hR.mismatch _ _)
  · rw [ho, hp]
    exact .error he

theorem Lawful.writeElement (hR : R.Lawful ctx ctx') (hh : R.heap w h k)
    (hr : R.handle w r q) (index : Int) (n : Int32) :
    Alike R.error (R.heap w) (h.setElement r index (.int32 n))
      (k.setElement q index (.int32 n)) := by
  unfold Heap.setElement Heap.getValues Heap.get
  rcases hR.object hh hr with ⟨o, p, ho, hp, hop⟩ | ⟨ho, hp, rfl, he⟩
  · rw [ho, hp]
    cases hop with
    | record => exact .error (hR.mismatch _ _)
    | values element hitems =>
        rename_i items items'
        have hsize : items'.size = items.size := hitems.length_eq.symm
        show Alike R.error _ (checkedIndex index items.size >>= _)
          (checkedIndex index items'.size >>= _)
        rw [hsize]
        refine (hR.indexed index items.size).bind fun i j hij => ?_
        obtain ⟨rfl, hi⟩ := hij
        exact .ok (hR.setElement hh hr ho hp hi)
    | references => exact .error (hR.mismatch _ _)
  · rw [ho, hp]
    exact .error he

theorem Lawful.writeReference (hR : R.Lawful ctx ctx') (hh : R.heap w h k)
    (hr : R.handle w r q) (index : Int) {a b : Option Handle}
    (hab : Option.Rel (R.handle w) a b) :
    Alike R.error (R.heap w) (h.setReference r index a) (k.setReference q index b) := by
  unfold Heap.setReference Heap.getSlots Heap.get
  rcases hR.object hh hr with ⟨o, p, ho, hp, hop⟩ | ⟨ho, hp, rfl, he⟩
  · rw [ho, hp]
    cases hop with
    | record => exact .error (hR.mismatch _ _)
    | values => exact .error (hR.mismatch _ _)
    | references element hslots =>
        rename_i slots slots'
        have hsize : slots'.size = slots.size := hslots.length_eq.symm
        show Alike R.error _ (checkedIndex index slots.size >>= _)
          (checkedIndex index slots'.size >>= _)
        rw [hsize]
        refine (hR.indexed index slots.size).bind fun i j hij => ?_
        obtain ⟨rfl, hi⟩ := hij
        exact .ok (hR.setReference hh hr ho hp hab hi)
  · rw [ho, hp]
    exact .error he

end Heap

end Correspondence

end CilMachine
