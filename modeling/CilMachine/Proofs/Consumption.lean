/-
CilMachine/Proofs/Consumption.lean

What an instruction has done when it fails.  It takes its operands off the stack and checks them
before it has any effect, so an instruction that fails has consumed operands and done nothing else
(`step_consumes`).  Calls are apart: they fail with the method that they run.

The proof goes through an instruction in that order.  Operations that do no more than take values
off come first (`Consuming`).  Then there may be one that has an effect or fails without it
(`Tidy`), and after that only such as succeed as long as there is a frame (`Sure`).  A load from an
empty slot has two effects, of which the second could fail by itself; but by then the slot has been
looked at.
-/
import CilMachine.Proofs.Slots

namespace CilMachine

/-! ### Calls -/

/-- Whether the action makes a call. -/
def Action.isCall : Action → Bool
  | call _ | callVirtual _ | newObject _ => true
  | _ => false

/-- Whether the action of the form makes a call. -/
def ActionForm.isCall : ActionForm → Bool
  | .plain a => a.isCall
  | _ => false

/-- Only instructions of the call category make calls. -/
theorem Instruction.isCall_of_action? {i : Instruction} {a : Action} (h : i.action? = .ok a)
    (hflow : i.flow ≠ .call) : a.isCall = false := by
  cases reads_of_action? h with
  | @sequential form _ hlookup hform =>
      have htable : ∀ p ∈ sequentialForms, p.2.isCall = false := by decide
      have hcall := htable _ (mem_sequentialForms hlookup)
      cases form with
      | plain a' =>
          cases hform
          exact hcall
      | _ =>
          obtain ⟨_, -, rfl⟩ := map_eq_ok hform
          rfl
  | branch _ hbranch =>
      unfold branchAction? at hbranch
      split at hbranch <;> cases hbranch <;> rfl
  | call hcall _ => exact absurd hcall hflow
  | leave _ hleave =>
      rw [hleave]
      rfl

namespace Machine

variable {α β : Type} {P : α → Prop} {Q : β → Prop} {ctx : Context} {s t u : Machine} {f : Frame}
  {F : List Frame}

/-! ### Three kinds of operations -/

/-- There is a frame on top. -/
def Active (s : Machine) : Prop := ∃ f F, s.calls.frames = f :: F

/-- Values have been taken off the operand stack on top, and nothing else has happened. -/
inductive Consumes (s : Machine) : Machine → Prop
  | intro {f : Frame} {F : List Frame} {S : OperandStack} : s.calls.frames = f :: F →
      S <:+ f.stack → Consumes s (s.withStack S)

theorem Consumes.refl (hs : s.Active) : s.Consumes s := by
  obtain ⟨f, F, hframes⟩ := hs
  have hsame := Consumes.intro hframes (List.suffix_refl f.stack)
  rwa [withStack_self hframes rfl] at hsame

theorem Consumes.trans (hst : s.Consumes t) (htu : t.Consumes u) : s.Consumes u := by
  obtain ⟨hframes, hS⟩ := hst
  obtain ⟨hframes', hS'⟩ := htu
  rw [withStack_eq hframes] at hframes'
  cases hframes'
  rw [withStack_withStack]
  exact .intro hframes (hS'.trans hS)

theorem Consumes.active (h : s.Consumes u) : u.Active := by
  obtain ⟨hframes, -⟩ := h
  rw [withStack_eq hframes]
  exact ⟨_, _, rfl⟩

/-- The operation takes values off the operand stack and does nothing else, also if it fails. -/
def Consuming (x : Op α) : Prop := ∀ s : Machine, s.Active → s.Consumes (x s).2

/-- What an operation may come to that is without effect if it fails: it succeeds with a value in
`P`, and there is still a frame, or it fails and has only taken values off. -/
inductive Comes (P : α → Prop) (s : Machine) : Except Failure α × Machine → Prop
  | succeeds {a : α} {u : Machine} : P a → u.Active → Comes P s (.ok a, u)
  | fails {e : Failure} {u : Machine} : s.Consumes u → Comes P s (.error e, u)

/-- The operation is without effect if it fails. -/
def Tidy (P : α → Prop) (x : Op α) : Prop := ∀ s, s.Active → Comes P s (x s)

/-- The operation does not fail. -/
def Sure (P : α → Prop) (x : Op α) : Prop :=
  ∀ s, s.Active → ∃ a u, x s = (.ok a, u) ∧ P a ∧ u.Active

theorem Sure.tidy {x : Op α} (hx : Sure P x) : Tidy P x := by
  intro s hs
  obtain ⟨a, u, hsure, ha, hu⟩ := hx s hs
  rw [hsure]
  exact .succeeds ha hu

theorem Sure.bind {x : Op α} {g : α → Op β} (hx : Sure P x) (hg : ∀ a, Sure Q (g a)) :
    Sure Q (x >>= g) := by
  intro s hs
  obtain ⟨a, u, hsure, -, hu⟩ := hx s hs
  rw [op_bind_apply, hsure]
  exact hg a u hu

theorem Tidy.thenSure {x : Op α} {g : α → Op β} (hx : Tidy P x) (hg : ∀ a, Sure Q (g a)) :
    Tidy Q (x >>= g) := by
  intro s hs
  have hcomes := hx s hs
  rw [op_bind_apply]
  rcases h : x s with ⟨e | a, u⟩ <;> rw [h] at hcomes <;> cases hcomes
  · exact .fails ‹_›
  · obtain ⟨b, v, hsure, hb, hv⟩ := hg a u ‹_›
    dsimp only
    rw [hsure]
    exact .succeeds hb hv

namespace Consuming

theorem bind {x : Op α} {g : α → Op β} (hx : Consuming x) (hg : ∀ a, Consuming (g a)) :
    Consuming (x >>= g) := by
  intro s hs
  have hconsumes := hx s hs
  rw [op_bind_apply]
  rcases h : x s with ⟨e | a, u⟩ <;> rw [h] at hconsumes
  · exact hconsumes
  · exact hconsumes.trans (hg a u hconsumes.active)

theorem thenTidy {x : Op α} {g : α → Op β} (hx : Consuming x) (hg : ∀ a, Tidy Q (g a)) :
    Tidy Q (x >>= g) := by
  intro s hs
  have hconsumes := hx s hs
  rw [op_bind_apply]
  rcases h : x s with ⟨e | a, u⟩ <;> rw [h] at hconsumes
  · exact .fails hconsumes
  · have hcomes := hg a u hconsumes.active
    dsimp only
    rcases hu : g a u with ⟨e' | b, v⟩ <;> rw [hu] at hcomes <;> cases hcomes
    · exact .fails (hconsumes.trans ‹_›)
    · exact .succeeds ‹_› ‹_›

theorem pure (a : α) : Consuming (Pure.pure a : Op α) := fun _ hs => .refl hs

theorem throw (e : Failure) : Consuming (MonadExcept.throw e : Op α) := fun _ hs => .refl hs

theorem discard {x : Op α} (hx : Consuming x) : Consuming (Functor.discard x) := by
  intro s hs
  rw [op_discard_apply]
  exact hx s hs

end Consuming

theorem tidy_throw (e : Failure) : Tidy P (MonadExcept.throw e : Op α) :=
  fun _ hs => .fails (.refl hs)

theorem tidy_throw_bind (e : Failure) (g : α → Op β) :
    Tidy Q ((MonadExcept.throw e : Op α) >>= g) := fun _ hs => .fails (.refl hs)

/-! ### Basic operations -/

theorem consuming_lift (x : Except ExecError α) : Consuming (liftM x : Op α) := by
  intro s hs
  rw [lift_apply]
  exact .refl hs

theorem consuming_readHeap (g : Heap → Except ExecError α) : Consuming (readHeap g) :=
  fun s hs => consuming_lift (g s.heap) s hs

theorem consuming_frame : Consuming frame := by
  intro s hs
  rw [frame_apply]
  exact .refl hs

theorem consuming_pop : Consuming pop := by
  rintro s ⟨f, F, hframes⟩
  rcases hstack : f.stack with - | ⟨v, S⟩
  · have hfail : pop s = (.error (.execution .stackUnderflow), s) := by
      rw [pop, onStack, Correspondence.onFrame_apply, CallStack.current, hframes]
      simp only [bind, Except.bind, hstack]
      rfl
    rw [hfail]
    exact .refl ⟨f, F, hframes⟩
  · rw [pop_apply hframes hstack, ← withStack_eq hframes]
    exact .intro hframes (hstack ▸ List.suffix_cons v S)

theorem consuming_popInteger (op : Operation) : Consuming (popInteger op) := by
  refine consuming_pop.bind fun v => ?_
  split
  · exact .pure _
  · exact .throw _

theorem consuming_popObject (op : Operation) : Consuming (popObject op) := by
  refine consuming_pop.bind fun v => ?_
  split
  · exact .pure _
  · exact .throw _
  · exact .throw _

theorem consuming_popSlot : Consuming popSlot := by
  refine consuming_pop.bind fun v => ?_
  split
  · exact .pure _
  · exact .pure _
  · exact .throw _

/-- What is done to the top frame may fail, and then the frame stays as it is. -/
theorem tidy_onFrame (φ : Frame → Except ExecError (α × Frame)) :
    Tidy (fun _ => True) (onFrame φ) := by
  rintro s ⟨f, F, hframes⟩
  rw [Correspondence.onFrame_apply, CallStack.current, hframes]
  rcases hφ : φ f with e | ⟨a, g⟩ <;> simp only [Bind.bind, Except.bind, hφ]
  · exact .fails (.refl ⟨f, F, hframes⟩)
  · refine .succeeds trivial ⟨g, F, ?_⟩
    simp only [CallStack.setCurrent, hframes]

theorem tidy_writeHeap (g : Heap → Except ExecError Heap) :
    Tidy (fun _ => True) (writeHeap g) := by
  rintro s ⟨f, F, hframes⟩
  rw [Correspondence.writeHeap_apply]
  rcases g s.heap with e | heap
  · exact .fails (.refl ⟨f, F, hframes⟩)
  · exact .succeeds trivial ⟨f, F, hframes⟩

/-- This is so whatever the reason is that there is no room for the object. -/
theorem tidy_allocate (g : Heap → Except ExecError (Handle × Heap)) :
    Tidy (fun _ => True) (allocate g) := by
  rintro s ⟨f, F, hframes⟩
  rw [Correspondence.allocate_apply]
  rcases g s.heap with e | p
  · exact .fails (.refl ⟨f, F, hframes⟩)
  · exact .succeeds trivial ⟨f, F, hframes⟩

theorem sure_recordIf (traced : Bool) (e : Event) : Sure (fun _ => True) (recordIf traced e) := by
  rintro s ⟨f, F, hframes⟩
  exact ⟨_, _, recordIf_apply traced e s, trivial, f, F, hframes⟩

theorem sure_push (v : Value) : Sure (fun _ => True) (push v) := by
  rintro s ⟨f, F, hframes⟩
  refine ⟨_, _, push_apply hframes v, trivial, f.push v, F, ?_⟩
  simp only [CallStack.deliver, hframes]

/-! ### Actions -/

/-- What is asked for is to go on, not to make a call. -/
def Effect.IsOutcome (e : Effect) : Prop := ∃ o, e = .outcome o

theorem sure_return (o : Outcome) : Sure Effect.IsOutcome (return .outcome o : Op Effect) :=
  fun s hs => ⟨.outcome o, s, rfl, ⟨o, rfl⟩, hs⟩

theorem sure_proceed : Sure Effect.IsOutcome proceed := sure_return .next

theorem sure_push_proceed (v : Value) : Sure Effect.IsOutcome (push v >>= fun _ => proceed) :=
  (sure_push v).bind fun _ => sure_proceed

theorem tidy_loadString (text : String) : Tidy Effect.IsOutcome (loadString ctx text) := by
  refine (consuming_lift _).thenTidy fun type => (tidy_allocate _).thenSure fun r => ?_
  exact (sure_recordIf _ _).bind fun _ => sure_push_proceed _

theorem tidy_typeTest (target : TypeRef) : Tidy Effect.IsOutcome (typeTest ctx target) := by
  refine consuming_pop.thenTidy fun v => ?_
  split
  · exact (sure_push_proceed _).tidy
  · refine (consuming_lift _).discard.thenTidy fun _ => (consuming_readHeap _).thenTidy fun o => ?_
    exact (consuming_lift _).thenTidy fun b => (sure_push_proceed _).tidy
  · exact tidy_throw_bind _ _

theorem tidy_loadField (f : FieldRef) : Tidy Effect.IsOutcome (loadField ctx f) := by
  refine (consuming_lift _).discard.thenTidy fun _ => (consuming_popObject _).thenTidy fun r => ?_
  exact (consuming_readHeap _).thenTidy fun v => (sure_push_proceed v).tidy

theorem tidy_storeField (f : FieldRef) : Tidy Effect.IsOutcome (storeField ctx f) := by
  refine (consuming_lift _).thenTidy fun declared => (consuming_lift _).thenTidy fun flavor => ?_
  refine consuming_pop.thenTidy fun v => (consuming_popObject _).thenTidy fun r => ?_
  split
  · exact (tidy_writeHeap _).thenSure fun _ => sure_proceed
  · exact tidy_throw_bind _ _

theorem tidy_storeIndirect : Tidy Effect.IsOutcome storeIndirect := by
  refine (consuming_popObject _).thenTidy fun source => ?_
  refine (consuming_popObject _).thenTidy fun destination => ?_
  exact (consuming_readHeap _).thenTidy fun v => (tidy_writeHeap _).thenSure fun _ => sure_proceed

theorem tidy_newArray (element : TypeRef) : Tidy Effect.IsOutcome (newArray ctx element) := by
  refine (consuming_lift _).thenTidy fun type => (consuming_popInteger _).thenTidy fun n => ?_
  split
  · exact tidy_throw_bind _ _
  · refine (tidy_allocate _).thenSure fun r => ?_
    exact (sure_recordIf _ _).bind fun _ => sure_push_proceed _

theorem tidy_arrayLength : Tidy Effect.IsOutcome arrayLength := by
  refine (consuming_popObject _).thenTidy fun r => (consuming_readHeap _).thenTidy fun length => ?_
  exact (sure_push_proceed _).tidy

theorem tidy_loadElement (width : ElementWidth) :
    Tidy Effect.IsOutcome (loadElement width) := by
  refine (consuming_popInteger _).thenTidy fun index => (consuming_popObject _).thenTidy fun r => ?_
  refine (consuming_readHeap _).thenTidy fun v => ?_
  split
  · exact (sure_push_proceed _).tidy
  · exact tidy_throw_bind _ _

theorem tidy_storeElement (width : ElementWidth) :
    Tidy Effect.IsOutcome (storeElement width) := by
  refine consuming_pop.thenTidy fun v => (consuming_popInteger _).thenTidy fun index => ?_
  refine (consuming_popObject _).thenTidy fun r => ?_
  split
  · exact (tidy_writeHeap _).thenSure fun _ => sure_proceed
  · exact tidy_throw_bind _ _

/-- An object is added only where it can be put in its slot. -/
theorem tidy_materialize (r : Handle) (index : Int) :
    Tidy (fun _ => True) (materialize ctx r index) := by
  rintro s ⟨f, F, hframes⟩
  rcases materialize_cases ctx r index s with
    hsame | ⟨k, element, slots, layout, rfl, hget, hempty, hlayout⟩
  · rcases h : materialize ctx r index s with ⟨e | q, u⟩ <;> rw [h] at hsame <;>
      obtain rfl : u = s := hsame
    · exact .fails (.refl ⟨f, F, hframes⟩)
    · exact .succeeds trivial ⟨f, F, hframes⟩
  · rw [materialize_of_empty hget hempty, hlayout]
    exact .succeeds trivial ⟨f, F, hframes⟩

theorem tidy_loadElementRef : Tidy Effect.IsOutcome (loadElementRef ctx) := by
  refine (consuming_popInteger _).thenTidy fun index => (consuming_popObject _).thenTidy fun r => ?_
  exact (tidy_materialize r _).thenSure fun q => sure_push_proceed _

theorem tidy_storeElementRef : Tidy Effect.IsOutcome storeElementRef := by
  refine consuming_popSlot.thenTidy fun slot => (consuming_popInteger _).thenTidy fun index => ?_
  exact (consuming_popObject _).thenTidy fun r => (tidy_writeHeap _).thenSure fun _ => sure_proceed

/-- **Actions are tidy**, but for calls. -/
theorem tidy_perform {a : Action} (ha : a.isCall = false) :
    Tidy Effect.IsOutcome (perform ctx a) := by
  cases a with
  | nop => exact sure_proceed.tidy
  | pop => exact consuming_pop.discard.thenTidy fun _ => sure_proceed.tidy
  | dup => exact (tidy_onFrame _).thenSure fun _ => sure_proceed
  | loadConstant n => exact (sure_push_proceed _).tidy
  | loadString text => exact tidy_loadString text
  | loadArgument index =>
      refine consuming_frame.thenTidy fun f => (consuming_lift _).thenTidy fun v => ?_
      exact (sure_push_proceed v).tidy
  | loadLocal index =>
      refine consuming_frame.thenTidy fun f => (consuming_lift _).thenTidy fun v => ?_
      exact (sure_push_proceed v).tidy
  | storeLocal index =>
      exact consuming_pop.thenTidy fun v => (tidy_onFrame _).thenSure fun _ => sure_proceed
  | arithmetic op =>
      refine consuming_pop.thenTidy fun right => consuming_pop.thenTidy fun left => ?_
      exact (consuming_lift _).thenTidy fun v => (sure_push_proceed v).tidy
  | compare op =>
      refine consuming_pop.thenTidy fun right => consuming_pop.thenTidy fun left => ?_
      exact (consuming_lift _).thenTidy fun v => (sure_push_proceed v).tidy
  | convert op =>
      refine consuming_pop.thenTidy fun v => ?_
      exact (consuming_lift _).thenTidy fun v' => (sure_push_proceed v').tidy
  | typeTest target => exact tidy_typeTest target
  | loadField f => exact tidy_loadField f
  | storeField f => exact tidy_storeField f
  | storeIndirect => exact tidy_storeIndirect
  | newArray element => exact tidy_newArray element
  | arrayLength => exact tidy_arrayLength
  | loadElement width => exact tidy_loadElement width
  | storeElement width => exact tidy_storeElement width
  | loadElementRef => exact tidy_loadElementRef
  | storeElementRef => exact tidy_storeElementRef
  | jump target => exact (sure_return _).tidy
  | branch onTrue target =>
      refine consuming_pop.thenTidy fun v => ?_
      split
      · exact (sure_return _).tidy
      · exact tidy_throw _
  | leave => exact (sure_return _).tidy
  | call _ | callVirtual _ | newObject _ => cases ha

/-! ### Instructions -/

theorem tidy_performInstruction {i : Instruction} (hi : i.flow ≠ .call) :
    Tidy Effect.IsOutcome (performInstruction ctx i) := by
  intro s hs
  rcases ha : i.action? with e | a
  · rw [performInstruction, op_bind_apply, lift_apply, ha]
    exact .fails (.refl hs)
  · rw [performInstruction_of_action ha]
    exact tidy_perform (Instruction.isCall_of_action? ha hi) s hs

/-- **Failing instructions only consume operands.**  In a machine with a frame, an instruction that
is not of the call category comes to an end at once, whatever its mnemonic and its operand are.  If
it fails, then what is left on the operand stack of the top frame is the lower part of what was
there, and nothing else has changed: not the heap and its next handle, the counters, the dispatcher,
the log, the frames below, or the arguments and the locals of the top frame. -/
theorem step_consumes (ctx : Context) {i : Instruction} (hi : i.flow ≠ .call)
    (hs : s.calls.frames = f :: F) :
    ∃ r u, (∀ fuel, step ctx fuel i s = some (r, u)) ∧
      ∀ e, r = .error e → ∃ S, S <:+ f.stack ∧
        u = { s with calls := { s.calls with frames := { f with stack := S } :: F } } := by
  have hcomes : Comes Effect.IsOutcome s (performInstruction ctx i s) :=
    tidy_performInstruction hi s ⟨f, F, hs⟩
  simp only [step, stepWith_apply]
  rcases h : performInstruction ctx i s with ⟨e | effect, u⟩ <;> rw [h] at hcomes <;> cases hcomes
  case error.fails hconsumes =>
    refine ⟨_, u, fun _ => rfl, fun _ _ => ?_⟩
    obtain ⟨hframes, hS⟩ := hconsumes
    cases hs.symm.trans hframes
    exact ⟨_, hS, withStack_eq hs _⟩
  case ok.succeeds houtcome _ =>
    obtain ⟨o, rfl⟩ := houtcome
    refine ⟨_, u, fun _ => rfl, ?_⟩
    rintro e ⟨⟩

/-- A load from an empty slot fails where its element type is not registered.  The index and the
array are gone, and the slot is still empty. -/
theorem step_consumes_unregistered :
    ∃ S, S <:+ [.int32 0, .object ⟨1⟩, .null] ∧
      step { catalog := {} } 1 Sample.fetch
          (Sample.shelving Sample.shelf [.int32 0, .object ⟨1⟩, .null]) =
        some (.error (.execution (.unresolved (.type Sample.pair))),
          Sample.shelving Sample.shelf S) := by
  have hfails : (step { catalog := {} } 1 Sample.fetch
      (Sample.shelving Sample.shelf [.int32 0, .object ⟨1⟩, .null])).map Prod.fst =
        some (.error (.execution (.unresolved (.type Sample.pair)))) := rfl
  obtain ⟨r, u, hstep, hconsumes⟩ := step_consumes { catalog := {} } (i := Sample.fetch)
    (s := Sample.shelving Sample.shelf [.int32 0, .object ⟨1⟩, .null]) (by decide) rfl
  rw [hstep 1] at hfails
  cases hfails
  obtain ⟨S, hS, rfl⟩ := hconsumes _ rfl
  exact ⟨S, hS, hstep 1⟩

end Machine

end CilMachine
