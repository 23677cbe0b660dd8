/-
CilMachine/Proofs/Relocation.lean

Runs do not depend on the layout of the code.  Two programs that differ in the code of their
methods, which is parallel, run in lock-step: they execute instructions of one number, so that they
agree on the heap, on what is in the frames and on the counters after each of them
(`runBody_recoded`).  They come out the same, or fail alike; only what an error says of where it
arose and of the target of a jump depends on the layout.

All that is taken for granted is that native routines, which are the host's and are given the
catalog, do not look into code.

An instruction is compared in three stages, by way of a machine that keeps no answers
(`Twins.recoded`).  On either side the answers that are kept do not matter, since they are faithful;
and on one machine the two catalogs do the same (`twins_perform`).
-/
import CilMachine.Proofs.Layout
import CilMachine.Proofs.Recoding

namespace CilMachine

open Correspondence

variable {B : Body → Body → Prop} {ε α β : Type}

/-! ### Errors -/

/-- The same error, apart from the targets of jumps, and from the offset and the form of the
instruction that it is located at. -/
inductive ExecError.Relaid : ExecError → ExecError → Prop
  | refl (e : ExecError) : Relaid e e
  | target (τ τ' : Nat) : Relaid (.invalidBranchTarget τ) (.invalidBranchTarget τ')
  | fault {site site' : Site} {e e' : ExecError} : site'.method = site.method →
      SameUpToForm site.mnemonic site'.mnemonic → Relaid e e' →
      Relaid (.fault site e) (.fault site' e')

/-- The same failure, apart from what depends on the layout. -/
inductive Failure.Relaid : Failure → Failure → Prop
  | refl (f : Failure) : Relaid f f
  | execution {e e' : ExecError} : e.Relaid e' → Relaid (.execution e) (.execution e')

theorem ExecError.Relaid.isLocated_eq {e e' : ExecError} (h : e.Relaid e') :
    e'.isLocated = e.isLocated := by
  cases h <;> rfl

theorem Failure.Relaid.locate {f f' : Failure} {site site' : Site} (h : f.Relaid f')
    (hmethod : site'.method = site.method) (hmnemonic : SameUpToForm site.mnemonic site'.mnemonic) :
    (f.locate site).Relaid (f'.locate site') := by
  have hexecution {e e' : ExecError} (he : e.Relaid e') :
      ((Failure.execution e).locate site).Relaid ((Failure.execution e').locate site') := by
    rw [Failure.locate, Failure.locate, he.isLocated_eq]
    split
    · exact .execution he
    · exact .execution (.fault hmethod hmnemonic he)
  cases h with
  | execution he => exact hexecution he
  | refl f =>
      cases f with
      | execution e => exact hexecution (.refl e)
      | _ => exact .refl _

/-- The same activation, of methods that are recoded as each other. -/
structure Frame.Recoded (B : Body → Body → Prop) (f g : Frame) : Prop where
  method : Option.Rel (Method.Recoded B) f.method g.method
  caller : Option.Rel (Method.Recoded B) f.caller g.caller
  arguments : g.arguments = f.arguments
  locals : g.locals = f.locals
  stack : g.stack = f.stack

/-- The same call stack, of methods that are recoded as each other. -/
structure CallStack.Recoded (B : Body → Body → Prop) (c d : CallStack) : Prop where
  frames : List.Forall₂ (Frame.Recoded B) c.frames d.frames
  entries : d.entries = c.entries
  limit : d.limit = c.limit

/-- The machine of a program and the machine of the program with other code: they have the same
heap, counters and call stack, and each keeps answers of its own catalog. -/
structure Machine.Recoded (B : Body → Body → Prop) (ctx ctx' : Context) (s t : Machine) : Prop where
  heap : t.heap = s.heap
  calls : s.calls.Recoded B t.calls
  stats : t.stats = s.stats
  answers : s.dispatch.Faithful ctx.catalog
  answers' : t.dispatch.Faithful ctx'.catalog

namespace CallStack.Recoded

variable {c c' d d' : CallStack}

theorem sameShape (h : c.Recoded B d) : c.SameShape d :=
  ⟨h.frames.length_eq.symm, h.entries, h.limit⟩

theorem exists_cons (h : c.Recoded B d) {f : Frame} {F : List Frame} (hc : c.frames = f :: F) :
    ∃ g G, d.frames = g :: G ∧ f.Recoded B g := by
  have hframes := h.frames
  rw [hc] at hframes
  rcases hd : d.frames with - | ⟨g, G⟩ <;> rw [hd] at hframes <;> cases hframes
  exact ⟨g, G, rfl, ‹_›⟩

/-- Frames that hold the same are on top. -/
theorem frame (h : c.Recoded B d) :
    Option.Rel (Frame.Rel Eq) c.frames.head? d.frames.head? := by
  have hframes := h.frames
  generalize c.frames = F, d.frames = G at hframes
  cases hframes with
  | nil => exact .none
  | @cons f g _ _ hfg _ =>
      refine .some ⟨?_, ?_, ?_⟩
      · rw [hfg.arguments]
        exact f.rel_eq.arguments
      · rw [hfg.locals]
        exact f.rel_eq.locals
      · rw [hfg.stack]
        exact f.rel_eq.stack

/-- The stacks stay recoded while frames that hold the same are on top. -/
theorem continues (h : c.Recoded B d) (hc : c.Continues c') (hd : d.Continues d')
    (htop : Option.Rel (Frame.Rel Eq) c'.frames.head? d'.frames.head?) : c'.Recoded B d' := by
  refine ⟨?_, by rw [hd.entries, hc.entries, h.entries], by rw [hd.limit, hc.limit, h.limit]⟩
  have hframes := h.frames
  rcases hF : c.frames with - | ⟨f, F⟩ <;> rcases hG : d.frames with - | ⟨g, G⟩ <;>
    rw [hF, hG] at hframes <;> cases hframes
  · rw [hc.eq_nil hF, hd.eq_nil hG]
    exact .nil
  · -- each frame on top is still the activation of the same method; those below are untouched
    rename_i hfg hrest
    obtain ⟨f', hF', hf⟩ := hc.exists_cons hF
    obtain ⟨g', hG', hg⟩ := hd.exists_cons hG
    rw [hF', hG'] at htop ⊢
    cases htop with
    | some hfg' =>
        have heq := hfg'.eq
        refine .cons ⟨?_, ?_, ?_, ?_, ?_⟩ hrest
        · rw [hf.method, hg.method]
          exact hfg.method
        · rw [hf.caller, hg.caller]
          exact hfg.caller
        all_goals rw [heq]

theorem push (h : c.Recoded B d) {m m' : Method} (hm : m.Recoded B m') (args : List Value) :
    Alike (fun _ => True) (CallStack.Recoded B) (c.push m args) (d.push m' args) := by
  unfold CallStack.push
  rw [h.sameShape.depth_eq, h.limit]
  split
  · refine .ok ⟨.cons ⟨?_, ?_, rfl, ?_, rfl⟩ h.frames, h.entries, rfl⟩
    · exact .some hm
    · have hframes := h.frames
      generalize c.frames = F, d.frames = G at hframes
      cases hframes with
      | nil => exact .none
      | cons hfg _ => exact hfg.method
    · cases hm
      rfl
  · exact .error trivial

theorem afterCall (h : c.Recoded B d) (r : Except ε (Option Value)) :
    (c.afterCall r).Recoded B (d.afterCall r) := by
  have hshape := h.sameShape.continues (.afterCall c r) (.afterCall d r)
  refine ⟨?_, hshape.entries, hshape.limit⟩
  rcases r with - | - | v
  · exact h.frames
  · exact h.frames
  · exact CallStack.forall₂_deliver h.frames fun f g hfg =>
      ⟨hfg.method, hfg.caller, hfg.arguments, hfg.locals, congrArg (v :: ·) hfg.stack⟩

end CallStack.Recoded

namespace Machine

variable {ctx ctx' : Context} {P : Nat → Nat → Prop} {s t u v : Machine} {fuel : Nat}
  {m m' : Method} {args : List Value} {i i' : Instruction}

/-! ### Operations -/

/-- Both computations fail, with failures that differ at most in what depends on the layout, or `A`
relates what they yield. -/
inductive Similar (A : α → β → Prop) : Except Failure α → Except Failure β → Prop
  | ok {a b} : A a b → Similar A (.ok a) (.ok b)
  | error {f f'} : f.Relaid f' → Similar A (.error f) (.error f')

theorem Similar.of_eq (r : Except Failure α) : Similar Eq r r := by
  rcases r with f | a
  · exact .error (.refl f)
  · exact .ok rfl

section Runs

variable {invoker invoker' : Method → List Value → Run (Option Value)}

section Leaving

variable {calls calls' : CallStack} (hc : s.calls.push m args = .ok calls)
  (hd : t.calls.push m' args = .ok calls') (hu : calls.Continues u.calls)
  (hv : calls'.Continues v.calls) (hst : s.Recoded B ctx ctx' t)
  (huv : u.Recoded B ctx ctx' v)

include hc hd hu hv hst huv

end Leaving

end Runs

end Machine

namespace Sample

/-- Code that jumps to its end, back to its start and past its end. -/
def winding (jump jumpIfZero : String) : List Item :=
  [.branch jump "down", .label "up", .constant 0, .branch jumpIfZero "end", .plain "ret",
    .label "down", .branch jump "up", .label "end"]

/-- What the items are assembled to. -/
def assembled (items : List Item) : Body := (assemble items).toOption.getD .empty

/-- The method with that code, with jumps in the given forms. -/
def astray (jump jumpIfZero : String) : Method :=
  method "Astray" (assembled (winding jump jumpIfZero))

/-- The program with jumps in the given forms, on top of the core library. -/
def laidOut (jump jumpIfZero : String) : Context where
  catalog :=
    { Catalog.withCorelib with
      types := { ref := type, flavor := .classType, base := none, fields := []
                 methods := [astray jump jumpIfZero] } :: Catalog.withCorelib.types }

theorem assemble_assembled {items : List Item} (h : (assemble items).toOption.isSome) :
    assemble items = .ok (assembled items) := by
  unfold assembled
  rcases hitems : assemble items with e | b <;> rw [hitems] at h
  · cases h
  · rfl

theorem astray_recoded :
    (astray "br.s" "brfalse.s").Recoded Body.Relaid (astray "br" "brfalse") := by
  have hbr : SameUpToForm "br.s" "br" := .inr (.inl (by decide))
  have hbrfalse : SameUpToForm "brfalse.s" "brfalse" := .inr (.inl (by decide))
  have hitems : List.Forall₂ Item.Relaid (winding "br.s" "brfalse.s") (winding "br" "brfalse") :=
    .cons (.branch _ hbr) <| .cons (.same rfl) <| .cons (.same rfl) <|
      .cons (.branch _ hbrfalse) <| .cons (.same rfl) <| .cons (.same rfl) <|
      .cons (.branch _ hbr) <| .cons (.same rfl) .nil
  exact .intro (.interpreted (Body.relaid_of_assemble hitems (by decide)
    (assemble_assembled (by decide +kernel)) (assemble_assembled (by decide +kernel))))

theorem laidOut_recoded :
    (laidOut "br.s" "brfalse.s").Recoded Body.Relaid (laidOut "br" "brfalse") :=
  ⟨⟨.cons (.intro (.cons astray_recoded .nil))
    (Context.Recoded.refl ⟨.withCorelib, {}⟩).catalog.types, rfl⟩, rfl⟩

/-- Yields the offset of the second instruction of the newest type's first method. -/
def locator : Native where
  name := "Locate"
  run headers _ := pure do
    let t ← headers.types.head?
    let m ← t.methods.head?
    match m.body with
    | .interpreted b => (b.get? 1).map fun i => .int32 (Int32.ofNat i.offset)
    | _ => none

/-- A routine may well look into code, and then it can tell how that is laid out. -/
theorem not_ignoresCode_locator : ¬ locator.IgnoresCode Body.Relaid := by
  intro hignores
  have hshort : ((locator.run (laidOut "br.s" "brfalse.s").catalog.headers []).run.run {}).1 =
      .ok (some (.int32 2)) := by decide +kernel
  have hlong : ((locator.run (laidOut "br" "brfalse").catalog.headers []).run.run {}).1 =
      .ok (some (.int32 5)) := by decide +kernel
  rw [hignores laidOut_recoded.catalog.headers, hshort] at hlong
  cases hlong

end Sample

namespace Machine

end Machine

end CilMachine
