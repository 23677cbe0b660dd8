/-
CilMachine/Proofs/Activation.lean

Frames keep what they are.  The frame of a method starts with one slot for each local that the
method declares, and each slot with the default of its flavor.  From then on code replaces the
operand stack and stores values that fit (`Activation.continues`); and whatever runs above a frame
leaves it as it is.  So the frame is intact, wherever it is on the stack
(`CallStack.activation_invariant`), from the machine in which it is pushed until it is taken off
(`occurs_activation`).

`Passes` lists the machines in between, for a method that runs in the frame on top: those of the
instructions of its body, before and after they are executed, and those of the calls that they make,
however deep and however they end.
-/
import CilMachine.Proofs.Texts

namespace CilMachine

/-! ### Slots -/

/-- The slot holds the default of its flavor, or a value that fits.  So a slot for references holds
a handle or null, and a slot for a value type holds neither, nor a text. -/
structure Slot.Sound (slot : Slot) : Prop where
  holds : slot.value = .default slot.flavor ∨ slot.value.fits slot.flavor
  reference : slot.flavor.isReferenceType → slot.value.isReference
  scalar : slot.flavor.isValueType → ¬ slot.value.isReference ∧ ¬ slot.value.isText

namespace Value

variable {v : Value} {f : Flavor}

theorem isReference_default : (default f).isReference = !f.isValueType := by
  cases f <;> rfl

/-- Only handles and null fit flavors for references, and they fit no other. -/
theorem isReference_of_fits (h : v.fits f) : v.isReference = f.isReferenceType := by
  cases v <;> cases f <;> first | rfl | cases h

end Value

namespace Slot

variable {slot : Slot}

theorem sound_of_holds (h : slot.value = .default slot.flavor ∨ slot.value.fits slot.flavor) :
    slot.Sound := by
  have hkinds : ¬ (slot.flavor.isValueType ∧ slot.flavor.isReferenceType) := by
    cases slot.flavor <;> decide
  refine ⟨h, fun href => ?_, fun hvalue => ?_⟩
  · rcases h with hdefault | hfits
    · rw [hdefault, Value.isReference_default]
      simpa [href] using hkinds
    · rwa [Value.isReference_of_fits hfits]
  · rcases h with hdefault | hfits
    · rw [hdefault, Value.isReference_default, hvalue]
      exact ⟨Bool.false_ne_true, Value.not_isText_default _⟩
    · rw [Value.isReference_of_fits hfits]
      exact ⟨fun href => hkinds ⟨hvalue, href⟩, Value.not_isText_of_fits hfits⟩

theorem Sound.continues {a b : Slot} (ha : a.Sound) (h : a.Continues b) : b.Sound := by
  refine sound_of_holds ?_
  rcases h.value with hvalue | hfits
  · rw [hvalue, h.flavor]
    exact ha.holds
  · exact .inr hfits

end Slot

/-! ### Frames -/

/-- The frame is that of a call of the method with these arguments.  It has one slot for each local
of the method, of the flavor that is declared, and each of them is sound. -/
structure Frame.Activation (caller : Option Method) (m : Method) (args : List Value) (f : Frame) :
    Prop where
  method : f.method = some m
  caller : f.caller = caller
  arguments : f.arguments = args
  flavors : f.locals.map Slot.flavor = m.locals
  sound : ∀ slot ∈ f.locals, slot.Sound

namespace Frame

variable {caller : Option Method} {m : Method} {args : List Value} {f g : Frame}

theorem activation_ofMethod (caller : Option Method) (m : Method) (args : List Value) :
    (ofMethod caller m args).Activation caller m args where
  method := rfl
  caller := rfl
  arguments := rfl
  flavors := by
    simp only [ofMethod, Locals.ofFlavors, List.map_map]
    exact List.map_id _
  sound slot hslot := by
    obtain ⟨flavor, -, rfl⟩ := List.mem_map.1 hslot
    exact Slot.sound_of_holds (.inl rfl)

theorem Activation.continues (hf : f.Activation caller m args) (h : f.Continues g) :
    g.Activation caller m args where
  method := h.method.trans hf.method
  caller := h.caller.trans hf.caller
  arguments := h.arguments.trans hf.arguments
  flavors := by
    have hflavors : List.Forall₂ (fun a b : Slot => b.flavor = a.flavor) f.locals g.locals :=
      h.locals.imp fun _ _ hslots => hslots.flavor
    have hsame : g.locals.map Slot.flavor = f.locals.map Slot.flavor := by
      rw [← List.forall₂_eq_eq_eq, List.forall₂_map_left_iff, List.forall₂_map_right_iff]
      exact hflavors.flip
    rw [hsame, hf.flavors]
  sound slot hslot := by
    obtain ⟨old, hold, hslots⟩ := forall₂_exists_of_mem h.locals.flip hslot
    exact (hf.sound old hold).continues hslots

end Frame

/-! ### Call stacks -/

namespace CallStack

variable {caller : Option Method} {m : Method} {args : List Value} {F : List Frame}
  {c d : CallStack}

/-- Right above the frames `F` there is a frame of the activation. -/
def HasActivation (caller : Option Method) (m : Method) (args : List Value) (F : List Frame)
    (c : CallStack) : Prop :=
  ∃ G f, c.frames = G ++ f :: F ∧ f.Activation caller m args

/-- A frame is intact while it is on top, and while others are above it. -/
theorem activation_invariant (caller : Option Method) (m : Method) (args : List Value)
    (F : List Frame) : Invariant (HasActivation caller m args F) where
  continues := by
    rintro c d hcontinues ⟨G, f, hframes, hf⟩
    rcases G with - | ⟨top, G⟩
    · obtain ⟨g, hd, hfg⟩ := hcontinues.exists_cons hframes
      exact ⟨[], g, hd, hf.continues hfg⟩
    · obtain ⟨top', hd, -⟩ := hcontinues.exists_cons hframes
      exact ⟨top' :: G, f, hd, hf⟩
  push := by
    rintro c d m' args' hpush ⟨G, f, hframes, hf⟩
    obtain ⟨-, caller', rfl⟩ := push_eq_ok hpush
    exact ⟨.ofMethod caller' m' args' :: G, f, by rw [hframes]; rfl, hf⟩

/-- The caller of a method whose frame is pushed is the method of the frame that was on top. -/
theorem hasActivation_of_push (hpush : c.push m args = .ok d) :
    d.HasActivation (c.frames.head?.bind Frame.method) m args c.frames := by
  unfold push at hpush
  split at hpush <;> cases hpush
  exact ⟨[], _, rfl, Frame.activation_ofMethod _ m args⟩

end CallStack

/-! ### Runs -/

namespace Machine

variable {ctx : Context} {P : Native → Prop} {C : CallStack → Prop} {fuel : Nat} {m m' : Method}
  {args : List Value} {s t u w : Machine}

/-- The method `m`, run in the frame that is on top in the machine `t`, executes the instruction `i`
in the machine `u`. -/
inductive Reaches (ctx : Context) (fuel : Nat) (m : Method) (t : Machine) (i : Instruction)
    (u : Machine) : Prop
  | intro {body : Body} : m.body = .interpreted body →
      Visits ctx (stepWith (invoke ctx fuel) ctx) m body fuel 0 t i u → Reaches ctx fuel m t i u

/-- While the method `m` runs in the frame that is on top in the machine `t`, the machine is `u`.
What is listed last is the machine in which the method is over, so that the frame is to be taken
off. -/
inductive Passes (ctx : Context) : Nat → Method → Machine → Machine → Prop
  | starts {fuel : Nat} {m : Method} {t : Machine} : Passes ctx fuel m t t
  | executes {fuel : Nat} {m : Method} {t u : Machine} {i : Instruction} :
      Reaches ctx fuel m t i u → Passes ctx fuel m t u
  | executed {fuel : Nat} {m : Method} {t u w : Machine} {i : Instruction}
      {r : Except Failure Outcome} : Reaches ctx fuel m t i u →
      step ctx fuel i u = some (r, w) → Passes ctx fuel m t w
  | calls {fuel : Nat} {m : Method} {t u w : Machine} {i : Instruction} {c : Call} :
      Reaches ctx fuel m t i u → performInstruction ctx i u = (.ok (.call c), w) →
      Passes ctx fuel m t w
  | within {fuel : Nat} {m : Method} {t u v w : Machine} {i : Instruction} {c : Call}
      {pushed : CallStack} : Reaches ctx (fuel + 1) m t i u →
      performInstruction ctx i u = (.ok (.call c), v) →
      v.calls.push c.method c.arguments = .ok pushed →
      Passes ctx fuel c.method (entered ctx c.method pushed v) w → Passes ctx (fuel + 1) m t w
  | returns {fuel : Nat} {m : Method} {t u v w : Machine} {i : Instruction} {c : Call}
      {r : Except Failure (Option Value)} : Reaches ctx fuel m t i u →
      performInstruction ctx i u = (.ok (.call c), v) →
      invoke ctx fuel c.method c.arguments v = some (r, w) → Passes ctx fuel m t w
  | ends {fuel : Nat} {m : Method} {t u : Machine} {r : Except Failure Unit} :
      runMethod ctx (invoke ctx fuel) fuel m t = some (r, u) → Passes ctx fuel m t u

theorem reaches_continues {i : Instruction} (hframe : t.calls.frames ≠ [])
    (h : Reaches ctx fuel m t i u) : t.calls.Continues u.calls := by
  obtain ⟨f, F, hframes⟩ := List.exists_cons_of_ne_nil hframe
  obtain ⟨-, hvisits⟩ := h
  exact visits_continues hframes hvisits

theorem reaches_calls (hC : CallStack.Invariant C) {i : Instruction} (ht : C t.calls)
    (hframe : t.calls.frames ≠ []) (h : Reaches ctx fuel m t i u) :
    C (performInstruction ctx i u).2.calls :=
  hC.continues (performInstruction_continues ctx i u)
    (hC.continues (reaches_continues hframe h) ht)

/-- What holds of call stacks however their frames get on holds while a method runs. -/
theorem passes_calls (hC : CallStack.Invariant C) (ht : C t.calls) (hframe : t.calls.frames ≠ [])
    (h : Passes ctx fuel m t u) : C u.calls := by
  induction h with
  | starts => exact ht
  | executes hreaches => exact hC.continues (reaches_continues hframe hreaches) ht
  | executed hreaches hstep =>
      have hcontinues := reaches_continues hframe hreaches
      exact hC.continues (hcontinues.trans (stepWith_continues (invoke_calls ctx _) hstep)) ht
  | calls hreaches hcall =>
      have hcalls := reaches_calls hC ht hframe hreaches
      rwa [hcall] at hcalls
  | within hreaches hcall hpush _ ih =>
      have hcalls := reaches_calls hC ht hframe hreaches
      rw [hcall] at hcalls
      refine ih (hC.push hpush hcalls) ?_
      obtain ⟨f, hf⟩ := frames_entered hpush ctx
      rw [hf]
      exact List.cons_ne_nil _ _
  | returns hreaches hcall hinvoke =>
      have hcalls := reaches_calls hC ht hframe hreaches
      rw [hcall] at hcalls
      exact hC.continues (invoke_continues hinvoke) hcalls
  | ends hrun =>
      obtain ⟨f, F, hframes⟩ := List.exists_cons_of_ne_nil hframe
      exact hC.continues (runMethod_continues (invoke_calls ctx _) hframes hrun) ht

/-- An invocation pushes a frame, runs its method in it and takes it off. -/
theorem invoke_of_push {calls : CallStack} (hpush : s.calls.push m args = .ok calls)
    (ctx : Context) (fuel : Nat) :
    invoke ctx (fuel + 1) m args s = execute ctx fuel m (entered ctx m calls s) := by
  rw [invoke_succ_apply, hpush]
  rfl

/-- **Frames are intact.**  Let the frame of a method be pushed, by an invocation or by the host,
and let `t` be a machine with that call stack.  In every machine that occurs in a run from `t`, of
instructions, calls and constructions that may fail, and in every machine that a method passes which
runs in the frame on top there, the frame is still there, right above those that it was pushed on.
Its method, its caller and its arguments are what they were; it has one slot for each local that the
method declares, with the declared flavor; and each slot holds the default of its flavor or a value
that fits.

An invocation runs its method in such a machine and takes the frame off thereafter. -/
theorem occurs_activation {calls : CallStack} (hpush : s.calls.push m args = .ok calls)
    (ht : t.calls = calls) (hoccurs : t.Occurs ctx P u) :
    u.calls.HasActivation (s.calls.frames.head?.bind Frame.method) m args s.calls.frames ∧
    (∀ fuel m' w, Passes ctx fuel m' u w →
      w.calls.HasActivation (s.calls.frames.head?.bind Frame.method) m args s.calls.frames) ∧
    ∀ fuel, invoke ctx (fuel + 1) m args s = execute ctx fuel m (entered ctx m calls s) := by
  have hinvariant := CallStack.activation_invariant (s.calls.frames.head?.bind Frame.method) m args
    s.calls.frames
  have hpushed := CallStack.hasActivation_of_push hpush
  rw [← ht] at hpushed
  have hu := hoccurs.calls hinvariant hpushed
  refine ⟨hu, fun fuel m' w hpasses => passes_calls hinvariant hu ?_ hpasses,
    invoke_of_push hpush ctx⟩
  obtain ⟨G, f, hframes, -⟩ := hu
  rw [hframes]
  exact List.append_ne_nil_of_right_ne_nil G (List.cons_ne_nil _ _)

end Machine

namespace Sample

/-- Stores 7 in the first of its two locals and makes a call that fails. -/
def storeThenDivide : Method :=
  { method "StoreThenDivide" ⟨#[⟨0, 1, "ldc.i4.7", .sequential, .none⟩,
      ⟨1, 1, "stloc.0", .sequential, .none⟩, ⟨2, 5, "call", .call, .method divide.ref⟩,
      ⟨7, 1, "ret", .ret, .none⟩], by decide⟩ with
    locals := [.i4, .object] }

end Sample

namespace Machine

/-- The call has failed, and the frame of its caller is to be taken off. -/
theorem occurs_activation_failed :
    ∃ calls u f, Sample.machine.calls.push Sample.storeThenDivide [.null] = .ok calls ∧
      Passes Sample.context 9 Sample.storeThenDivide
        (entered Sample.context Sample.storeThenDivide calls Sample.machine) u ∧
      u.calls.frames = f :: Sample.machine.calls.frames ∧
      f.Activation none Sample.storeThenDivide [.null] ∧
      f.locals = [⟨.i4, .int32 7⟩, ⟨.object, .null⟩] := by
  obtain ⟨calls, hpush⟩ : ∃ calls,
      Sample.machine.calls.push Sample.storeThenDivide [.null] = .ok calls := ⟨_, rfl⟩
  have hfails : (runMethod Sample.context (invoke Sample.context 9) 9 Sample.storeThenDivide
      (entered Sample.context Sample.storeThenDivide calls Sample.machine)).map (fun p =>
        (p.1.isOk, p.2.calls.frames.map Frame.locals)) =
      some (false, [[⟨.i4, .int32 7⟩, ⟨.object, .null⟩], []]) := by
    cases hpush
    decide +kernel
  obtain ⟨⟨r, u⟩, hrun, hu⟩ := Option.map_eq_some_iff.1 hfails
  have hstart : (entered Sample.context Sample.storeThenDivide calls Sample.machine).Occurs
      Sample.context (fun _ => True)
      (entered Sample.context Sample.storeThenDivide calls Sample.machine) := .start
  obtain ⟨-, hpasses, -⟩ := occurs_activation hpush rfl hstart
  obtain ⟨G, f, hframes, hf⟩ := hpasses 9 Sample.storeThenDivide u (.ends hrun)
  have hlocals := congrArg Prod.snd hu
  dsimp only at hlocals
  rw [hframes] at hlocals
  rcases G with - | ⟨g, G⟩
  · exact ⟨calls, u, f, hpush, .ends hrun, hframes, hf, (List.cons.inj hlocals).1⟩
  · -- there are two frames in all
    have hlength := congrArg List.length hlocals
    have hbelow : Sample.machine.calls.frames.length = 1 := rfl
    simp only [List.length_map, List.cons_append, List.length_cons, List.length_append,
      List.length_nil] at hlength
    omega

end Machine

end CilMachine
