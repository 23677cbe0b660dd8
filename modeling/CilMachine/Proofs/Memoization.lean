/-
CilMachine/Proofs/Memoization.lean

Kept answers that outlive the catalog that gave them.  A dispatcher keeps its answers while types
and native routines are registered, and never asks again.  It is right to: a registration leaves the
chains of bases as they are, so an answer that the catalog has given is the one that it would give
now, and the dispatcher stays faithful (`Interleaved.faithful`).

A run asks its dispatcher and nothing else of it, so it comes out the same whatever faithful answers
are kept (`sameRun_of_follows`), and what it adds to them are answers again.
-/
import CilMachine.Proofs.Extension
import CilMachine.Proofs.Simulation

namespace CilMachine

open Correspondence

/-! ### Registering and asking in turn -/

namespace Dispatch

variable {c₀ c : Catalog} {d d' : Dispatch}

/-- What a dispatcher keeps after it has been asked: one more answer, or what it kept before if the
question has none. -/
def asked (d : Dispatch) (c : Catalog) (declared : Method) (runtime : TypeRef) : Dispatch :=
  match d.resolve c declared runtime with
  | .ok (_, d') => d'
  | .error _ => d

/-- From the catalog `c₀` and a dispatcher that keeps nothing, registrations of types and of native
routines and questions to the dispatcher, in any order and whether or not they succeed, lead to this
catalog and this dispatcher. -/
inductive Interleaved (c₀ : Catalog) : Catalog → Dispatch → Prop
  | start : Interleaved c₀ c₀ {}
  | add {c : Catalog} {d : Dispatch} (decl : TypeDecl) : Interleaved c₀ c d →
      Interleaved c₀ (Catalog.add decl c).2 d
  | addNative {c : Catalog} {d : Dispatch} (m : MethodRef) (routine : Native) :
      Interleaved c₀ c d → Interleaved c₀ (Catalog.addNative m routine c).2 d
  | ask {c : Catalog} {d : Dispatch} (declared : Method) (runtime : TypeRef) :
      Interleaved c₀ c d → Interleaved c₀ c (d.asked c declared runtime)

theorem Faithful.asked (h : Faithful c d) (declared : Method) (runtime : TypeRef) :
    Faithful c (d.asked c declared runtime) := by
  unfold Dispatch.asked
  rcases hd : d.resolve c declared runtime with e | ⟨m, d'⟩
  · exact h
  · exact h.resolve hd

/-- What was the catalog's answer is still its answer. -/
theorem Faithful.upholds {c' : Catalog} (h : Faithful c d) (hc : c'.Upholds c) : Faithful c' d :=
  fun runtime name m hm => hc.override runtime name (some m) (h runtime name m hm)

theorem Interleaved.faithful (h : Interleaved c₀ c d) : Faithful c d := by
  induction h with
  | start => exact faithful_empty c₀
  | add decl _ ih =>
      rw [Catalog.add_apply]
      rcases hr : Catalog.register _ decl with e | ⟨t, c'⟩
      · exact ih
      · -- the answers were given by an older catalog, and the new one gives them too
        exact ih.upholds (Catalog.upholds_register hr)
  | addNative m routine _ ih => exact ih.upholds (Catalog.upholds_registerNative _ m routine)
  | ask declared runtime _ ih => exact ih.asked declared runtime

/-- The questions can be left out. -/
theorem Interleaved.empty (h : Interleaved c₀ c d) : Interleaved c₀ c {} := by
  induction h with
  | start => exact .start
  | add decl _ ih => exact ih.add decl
  | addNative m routine _ ih => exact ih.addNative m routine
  | ask _ _ _ ih => exact ih

theorem Interleaved.resolve {declared m : Method} {runtime : TypeRef} (h : Interleaved c₀ c d)
    (hd : d.resolve c declared runtime = .ok (m, d')) : Interleaved c₀ c d' := by
  have hask := h.ask declared runtime
  rwa [asked, hd] at hask

/-- Faithful dispatchers answer with the same method or the same failure. -/
theorem Faithful.map_fst_resolve {e : Dispatch} (hd : Faithful c d) (he : Faithful c e)
    (declared : Method) (runtime : TypeRef) :
    (d.resolve c declared runtime).map Prod.fst = (e.resolve c declared runtime).map Prod.fst := by
  have h := hd.resolves_alike he declared runtime
  generalize d.resolve c declared runtime = x, e.resolve c declared runtime = y at h
  cases h with
  | error _ => rfl
  | ok hpq => exact congrArg Except.ok hpq.1.symm

end Dispatch

/-! ### Frames -/

/-- Frames that hold the same differ in whose activations they are only. -/
theorem Frame.Rel.eq {f g : Frame} (h : f.Rel Eq g) :
    g = { f with caller := g.caller, method := g.method } := by
  obtain ⟨caller, method, arguments, locals, stack⟩ := f
  obtain ⟨caller', method', arguments', locals', stack'⟩ := g
  obtain rfl : arguments = arguments' := h.arguments.eq
  obtain rfl : stack = stack' := h.stack.eq
  obtain rfl : locals = locals' := by
    refine List.forall₂_eq_eq_eq ▸ h.locals.imp fun a b hab => ?_
    obtain ⟨flavor, value⟩ := a
    obtain ⟨flavor', value'⟩ := b
    obtain ⟨rfl, hvalue⟩ := hab
    obtain rfl : value = value' := hvalue.eq
    rfl
  rfl

/-- Activations of one frame that hold the same are the same. -/
theorem Frame.Continues.eq_of_rel {f g h : Frame} (hg : f.Continues g) (hh : f.Continues h)
    (hrel : g.Rel Eq h) : h = g := by
  rw [hrel.eq, hh.caller, hh.method, ← hg.caller, ← hg.method]

/-- Call stacks that one stack continues as are the same if their top frames hold the same. -/
theorem CallStack.Continues.eq_of_frame {c d e : CallStack} (hd : c.Continues d)
    (he : c.Continues e) (h : Option.Rel (Frame.Rel Eq) d.frames.head? e.frames.head?) : e = d := by
  have hframes : e.frames = d.frames := by
    rcases hc : c.frames with - | ⟨f, rest⟩
    · rw [hd.eq_nil hc, he.eq_nil hc]
    · obtain ⟨g, hg, hfg⟩ := hd.exists_cons hc
      obtain ⟨g', hg', hfg'⟩ := he.exists_cons hc
      rw [hg, hg'] at h
      cases h with
      | some hrel => rw [hg, hg', hfg.eq_of_rel hfg' hrel]
  obtain ⟨frames, entries, limit⟩ := d
  obtain ⟨frames', entries', limit'⟩ := e
  obtain rfl : entries' = entries := he.entries.trans hd.entries.symm
  obtain rfl : limit' = limit := he.limit.trans hd.limit.symm
  obtain rfl : frames' = frames := hframes
  rfl

/-! ### Runs -/

namespace Machine

variable {ctx : Context} {c₀ : Catalog} {A : Dispatch → Prop} {fuel : Nat} {m : Method}
  {args : List Value} {i : Instruction} {s s' t t' : Machine} {α : Type}

/-- The same machine, with other answers kept. -/
def withAnswers (s : Machine) (d : Dispatch) : Machine := { s with dispatch := d }

/-- Machines that may differ in the answers that they keep, all of which are in `A`, and in their
logs as `L` says. -/
def answering (A : Dispatch → Prop) (L : Array Event → Array Event → Prop) : Correspondence Unit :=
  sameHeap CallStack.SameShape Eq (fun d e => A d ∧ A e) L (fun _ => True) fun _ => True

/-- The answers in `A` are faithful, and remain in `A` when more are given. -/
structure Answers (c : Catalog) (A : Dispatch → Prop) : Prop where
  faithful : ∀ {d}, A d → d.Faithful c
  resolve : ∀ {d d' declared runtime m}, A d → d.resolve c declared runtime = .ok (m, d') → A d'

theorem answers_interleaved (c₀ c : Catalog) : Answers c (Dispatch.Interleaved c₀ c) :=
  ⟨Dispatch.Interleaved.faithful, Dispatch.Interleaved.resolve⟩

theorem answering_lawful {L : Array Event → Array Event → Prop} (hA : Answers ctx.catalog A)
    (hL : ∀ {l k} (traced : Bool) (e : Event), L l k →
      L (if traced then l.push e else l) (if traced then k.push e else k)) :
    (answering A L).LawfulRuns ctx ctx (fun _ => False) fun _ => True := by
  refine lawfulRuns_of_sameShape ?_ rfl (fun _ _ _ => trivial)
    fun _ _ => sameHeap_routine fun _ _ _ _ => trivial
  refine sameHeap_lawful rfl (fun _ => trivial) (fun _ => trivial) CallStack.SameShape.continues
    (fun f h => congrArg f h) (fun traced e h => hL _ e h) ?_ fun _ => trivial
  rintro d e declared runtime ⟨hd, he⟩
  have halike := (hA.faithful hd).resolves_alike (hA.faithful he) declared runtime
  rcases hx : d.resolve ctx.catalog declared runtime with f | ⟨m, d'⟩ <;>
    rcases hy : e.resolve ctx.catalog declared runtime with f' | ⟨m', e'⟩ <;>
    rw [hx, hy] at halike <;> cases halike
  · exact .error trivial
  · rename_i hm
    exact .ok ⟨hm.1, trivial, hA.resolve hd hx, hA.resolve he hy⟩

theorem answering_eq_lawful (hA : Answers ctx.catalog A) :
    (answering A Eq).LawfulRuns ctx ctx (fun _ => False) fun _ => True :=
  answering_lawful hA fun _ _ h => by rw [h]

/-- Corresponding machines whose call stacks have come from one stack differ in their answers
only. -/
theorem eq_withAnswers {c : CallStack} (h : (answering A Eq).Machines () s t)
    (hs : c.Continues s.calls) (ht : c.Continues t.calls) : t = s.withAnswers t.dispatch := by
  have hcalls : t.calls = s.calls := hs.eq_of_frame ht h.frame
  have hheap : s.heap = t.heap := h.heap
  have hstats : s.stats = t.stats := h.counters
  have hlog : s.log = t.log := h.logs
  rw [withAnswers, hheap, hstats, hlog, ← hcalls]

/-- Both runs do not end, or they come out the same, in machines that differ in the answers that
they keep only; and all of these are in `A`. -/
def SameRun (A : Dispatch → Prop) :
    Option (Except Failure α × Machine) → Option (Except Failure α × Machine) → Prop :=
  Option.Rel fun p q => q.1 = p.1 ∧ q.2 = p.2.withAnswers q.2.dispatch ∧
    A p.2.dispatch ∧ A q.2.dispatch

/-- A run that is followed, whatever the answers in `A`, comes out the same with all of them. -/
theorem sameRun_of_follows {x : Run α} {E : Unit → α → α → Prop}
    (hE : ∀ a b, E () a b → a = b)
    (hcontinues : ∀ s r s', x s = some (r, s') → s.calls.Continues s'.calls)
    (h : ∀ (s : Machine) (d e : Dispatch), A d → A e → (answering A Eq).Follows (fun _ => False)
      (answering A Eq).Machines () x x E (s.withAnswers d) (s.withAnswers e))
    (s : Machine) {d e : Dispatch} (hd : A d) (he : A e) :
    SameRun A (x (s.withAnswers d)) (x (s.withAnswers e)) := by
  -- the relation of the answers goes both ways, so each side ends when the other one does
  rcases hx : x (s.withAnswers d) with - | ⟨r, u⟩
  · rcases hy : x (s.withAnswers e) with - | ⟨q, v⟩
    · exact .none
    · obtain ⟨_, _, _, -, hx', -⟩ := (h s e d he hd).ends hy
      rw [hx] at hx'
      cases hx'
  · obtain ⟨_, q, v, -, hy, huv, hrq⟩ := (h s d e hd he).ends hx
    rw [hy]
    have hqr : q = r := by
      cases hrq with
      | error _ => rfl
      | ok hab => rw [hE _ _ hab]
    have hu : s.calls.Continues u.calls := hcontinues (s.withAnswers d) _ _ hx
    have hv : s.calls.Continues v.calls := hcontinues (s.withAnswers e) _ _ hy
    exact .some ⟨hqr, eq_withAnswers huv hu hv, huv.answers⟩

theorem machines_withAnswers {L : Array Event → Array Event → Prop} {d e : Dispatch}
    (hL : L s.log s.log) (hd : A d) (he : A e) :
    (answering A L).Machines () (s.withAnswers d) (s.withAnswers e) :=
  ⟨rfl, Frame.option_rel_eq s.calls.frames.head?, .refl _, rfl, ⟨hd, he⟩, hL⟩

theorem invoke_sameRun (hA : Answers ctx.catalog A) {d e : Dispatch} (hd : A d) (he : A e) :
    SameRun A (invoke ctx fuel m args (s.withAnswers d))
      (invoke ctx fuel m args (s.withAnswers e)) :=
  sameRun_of_follows (x := invoke ctx fuel m args) (E := fun _ => Option.Rel (Value.Rel Eq))
    (fun _ _ => Value.eq_of_option_rel) (fun _ _ _ => invoke_continues)
    (fun _ _ _ hd he => invoke_follows_machines (answering_eq_lawful hA) trivial trivial
      (valuesRel_eq args) (machines_withAnswers rfl hd he)) s hd he

theorem step_sameRun (hA : Answers ctx.catalog A) {d e : Dispatch} (hd : A d) (he : A e) :
    SameRun A (step ctx fuel i (s.withAnswers d)) (step ctx fuel i (s.withAnswers e)) :=
  sameRun_of_follows (x := step ctx fuel i) (fun _ _ hab => hab)
    (fun _ _ _ => stepWith_continues (invoke_calls ctx fuel))
    (fun _ _ _ hd he =>
      step_follows (answering_eq_lawful hA) (machines_withAnswers rfl hd he)) s hd he

theorem construct_sameRun (hA : Answers ctx.catalog A) {ctor : MethodRef} {d e : Dispatch}
    (hd : A d) (he : A e) :
    SameRun A (construct ctx fuel ctor args (s.withAnswers d))
      (construct ctx fuel ctor args (s.withAnswers e)) :=
  sameRun_of_follows (x := construct ctx fuel ctor args) (fun _ _ hab => hab)
    (fun _ _ _ => construct_continues)
    (fun _ _ _ hd he => construct_follows (answering_eq_lawful hA) (valuesRel_eq args)
      (machines_withAnswers rfl hd he)) s hd he

/-- **Memoized dispatch is dispatch.**  However registrations and questions have alternated, a
dispatcher answers every question as one that keeps nothing; and a run, which asks it in turn, comes
out the same as with one that keeps nothing, and leaves answers that have come about in this way. -/
theorem dispatch_memoized {d : Dispatch} (h : d.Interleaved c₀ ctx.catalog) :
    (∀ declared runtime, (d.resolve ctx.catalog declared runtime).map Prod.fst =
      (({} : Dispatch).resolve ctx.catalog declared runtime).map Prod.fst) ∧
    ∀ (fuel : Nat) (s : Machine),
      (∀ m args, SameRun (Dispatch.Interleaved c₀ ctx.catalog)
        (invoke ctx fuel m args (s.withAnswers d)) (invoke ctx fuel m args (s.withAnswers {}))) ∧
      (∀ i, SameRun (Dispatch.Interleaved c₀ ctx.catalog)
        (step ctx fuel i (s.withAnswers d)) (step ctx fuel i (s.withAnswers {}))) ∧
      ∀ ctor args, SameRun (Dispatch.Interleaved c₀ ctx.catalog)
        (construct ctx fuel ctor args (s.withAnswers d))
        (construct ctx fuel ctor args (s.withAnswers {})) := by
  have hA := answers_interleaved c₀ ctx.catalog
  refine ⟨h.faithful.map_fst_resolve (Dispatch.faithful_empty _), fun fuel s => ⟨?_, ?_, ?_⟩⟩
  · exact fun m args => invoke_sameRun hA h h.empty
  · exact fun i => step_sameRun hA h h.empty
  · exact fun ctor args => construct_sameRun hA h h.empty

end Machine

namespace Sample

/-- A type that derives from the program's, with a method named like one there. -/
def derived : TypeDecl where
  ref := ⟨"Sample", "Derived"⟩
  base := some type
  methods := [{ name := "Seven", params := [type]
                code := some ⟨#[⟨0, 1, "ret", .ret, .none⟩], by decide⟩ }]

/-- The program, and the derived type, which is registered later. -/
def extended : Context := { catalog := (Catalog.add derived catalog).2 }

/-- Two answers, one of which was given before the derived type was registered. -/
def remembering : Dispatch :=
  (({} : Dispatch).asked catalog seven type).asked extended.catalog seven derived.ref

theorem remembering_interleaved : remembering.Interleaved catalog extended.catalog :=
  ((Dispatch.Interleaved.start.ask seven type).add derived).ask seven derived.ref

end Sample

namespace Machine

theorem dispatch_memoized_remembering :
    Sample.remembering.size = 2 ∧
      (Sample.remembering.resolve Sample.extended.catalog Sample.seven Sample.type).map Prod.fst =
        (({} : Dispatch).resolve Sample.extended.catalog Sample.seven Sample.type).map Prod.fst ∧
      SameRun (Dispatch.Interleaved Sample.catalog Sample.extended.catalog)
        (invoke Sample.extended 9 Sample.run [] (Sample.machine.withAnswers Sample.remembering))
        (invoke Sample.extended 9 Sample.run [] (Sample.machine.withAnswers {})) := by
  obtain ⟨hanswers, hruns⟩ := dispatch_memoized Sample.remembering_interleaved
  exact ⟨by decide +kernel, hanswers Sample.seven Sample.type,
    (hruns 9 Sample.machine).1 Sample.run []⟩

end Machine

end CilMachine
