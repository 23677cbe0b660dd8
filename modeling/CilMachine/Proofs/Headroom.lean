/-
CilMachine/Proofs/Headroom.lean

What an invocation can tell of the context that it is made in.  The *headroom* of a call stack is
the number of frames that can still be pushed on it for methods.  An invocation in a machine with
more headroom comes out the same, whatever the frames below it, the counters, the limit and the
tracing are and whatever the dispatcher has kept, unless it was the headroom that made it fail; and
if it does not use all of the headroom, it comes out the same with less (`invoke_headroom`).
-/
import CilMachine.Proofs.Simulation

namespace CilMachine

open Correspondence

/-! ### Headroom -/

namespace CallStack

variable {c d : CallStack} {m : Method} {args : List Value}

/-- The number of frames that can still be pushed for methods. -/
def headroom (c : CallStack) : Nat := c.limit - c.depth

/-- The number of entry frames is the one that the stack keeps. -/
def WellFormed (c : CallStack) : Prop := c.entries = c.frames.countP Frame.isEntry

theorem WellFormed.entries_le (h : c.WellFormed) : c.entries ≤ c.frames.length :=
  Nat.le_trans (Nat.le_of_eq h) List.countP_le_length

theorem wellFormed_ofLimit (limit : Nat) : (ofLimit limit).WellFormed := rfl

theorem WellFormed.push (h : c.WellFormed) (hd : c.push m args = .ok d) : d.WellFormed := by
  obtain ⟨-, caller, rfl⟩ := push_eq_ok hd
  unfold WellFormed at h ⊢
  rw [List.countP_cons_of_neg (by simp [Frame.ofMethod, Frame.isEntry]), ← h]

theorem WellFormed.pushEntry (h : c.WellFormed) : c.pushEntry.WellFormed := by
  unfold WellFormed at h ⊢
  show c.entries + 1 = (Frame.entry :: c.frames).countP Frame.isEntry
  rw [List.countP_cons_of_pos rfl, h]

theorem WellFormed.discard (h : c.WellFormed) : c.discard.2.WellFormed := by
  obtain ⟨frames, entries, limit⟩ := c
  unfold WellFormed at h ⊢
  rcases frames with - | ⟨f, rest⟩
  · exact h
  · show (if f.isEntry then entries - 1 else entries) = rest.countP Frame.isEntry
    dsimp only at h
    rw [List.countP_cons] at h
    split <;> simp_all

theorem depth_push_le (h : c.push m args = .ok d) : d.depth ≤ c.depth + 1 := by
  obtain ⟨-, caller, rfl⟩ := push_eq_ok h
  simp only [depth, List.length_cons]
  omega

theorem depth_push (hc : c.entries ≤ c.frames.length) (h : c.push m args = .ok d) :
    d.depth = c.depth + 1 := by
  obtain ⟨-, caller, rfl⟩ := push_eq_ok h
  simp only [depth, List.length_cons]
  omega

theorem entries_le_push (hc : c.entries ≤ c.frames.length) (h : c.push m args = .ok d) :
    d.entries ≤ d.frames.length := by
  obtain ⟨-, caller, rfl⟩ := push_eq_ok h
  exact Nat.le_succ_of_le hc

theorem limit_push (h : c.push m args = .ok d) : d.limit = c.limit := by
  obtain ⟨-, caller, rfl⟩ := push_eq_ok h
  rfl

theorem Continues.entries_le (h : c.Continues d) (hc : c.entries ≤ c.frames.length) :
    d.entries ≤ d.frames.length := by
  rw [h.entries, h.length_eq]
  exact hc

theorem Continues.wellFormed (h : c.Continues d) (hc : c.WellFormed) : d.WellFormed := by
  unfold WellFormed at hc ⊢
  rcases hframes : c.frames with - | ⟨f, rest⟩
  · rw [h.entries, h.eq_nil hframes, hc, hframes]
  · obtain ⟨g, hd, hfg⟩ := h.exists_cons hframes
    have hentry : g.isEntry = f.isEntry := by rw [Frame.isEntry, Frame.isEntry, hfg.method]
    rw [h.entries, hc, hframes, hd, List.countP_cons, List.countP_cons, hentry]

theorem Continues.headroom_eq (h : c.Continues d) : d.headroom = c.headroom := by
  rw [headroom, headroom, h.limit, h.depth_eq]

/-- The same stack with another limit. -/
def withLimit (c : CallStack) (limit : Nat) : CallStack := { c with limit }

theorem afterCall_withLimit {ε : Type} (c : CallStack) (limit : Nat)
    (r : Except ε (Option Value)) :
    (c.withLimit limit).afterCall r = (c.afterCall r).withLimit limit := by
  obtain ⟨frames, entries, _⟩ := c
  rcases r with e | - | v
  · rfl
  · rfl
  · cases frames <;> rfl

end CallStack

/-- The root cause of the failure is a frame that was refused. -/
def Failure.IsDepthExceeded (f : Failure) : Prop :=
  ∃ e depth limit, f = .execution e ∧ e.cause = .stackDepthExceeded depth limit

theorem Failure.IsDepthExceeded.locate {f : Failure} (h : f.IsDepthExceeded) (site : Site) :
    (f.locate site).IsDepthExceeded := by
  obtain ⟨e, depth, limit, rfl, he⟩ := h
  obtain ⟨e', hlocate, hcause⟩ := Failure.locate_execution site e
  exact ⟨e', depth, limit, hlocate, hcause.trans he⟩

namespace Machine

variable {ctx ctx' : Context} {fuel : Nat} {m : Method} {args : List Value} {s s' t : Machine}
  {r : Except Failure (Option Value)}

/-- The same machine with another limit. -/
def withLimit (s : Machine) (limit : Nat) : Machine :=
  { s with calls := s.calls.withLimit limit }

/-- The invocation, or one that is made while it runs, pushes its frame at this depth. -/
def Invocation.Reaches (ctx : Context) (v : Invocation) (depth : Nat) : Prop :=
  ∃ (v' : Invocation) (calls : CallStack), v'.Within ctx v ∧
    v'.machine.calls.push v'.method v'.arguments = .ok calls ∧ calls.depth = depth

/-! ### More headroom -/

/-- Machines with one heap, the second of which has at least the headroom of the first. -/
def roomier (c : Catalog) : Correspondence Unit :=
  sameHeap (fun a b => a.entries ≤ a.frames.length ∧ a.headroom ≤ b.headroom) (fun _ _ => True)
    (fun d e => d.Faithful c ∧ e.Faithful c) (fun _ _ => True) (fun _ => True) (fun _ => True)

theorem roomier_lawful (hctx : ctx'.catalog = ctx.catalog) :
    (roomier ctx.catalog).LawfulRuns ctx ctx' Failure.IsDepthExceeded fun _ => True where
  toLawful := by
    refine sameHeap_lawful hctx (fun _ => trivial) (fun _ => trivial) ?_ (fun _ _ => trivial)
      (fun _ _ _ => trivial) ?_ fun _ => trivial
    · rintro c c' d d' ⟨hc, hcd⟩ hc' hd'
      exact ⟨hc'.entries_le hc, by rwa [hc'.headroom_eq, hd'.headroom_eq]⟩
    · rintro d e declared runtime ⟨hd, he⟩
      exact (hd.resolves_alike he declared runtime).mono (fun _ _ => trivial)
        fun p q hpq => ⟨hpq.1, trivial, hpq.2⟩
  locate _ _ := trivial
  lost_locate site h := h.locate site
  routine _ _ := sameHeap_routine fun _ _ _ _ => trivial
  push {v d args'} _ hstacks := by
    obtain ⟨hentries, hroom⟩ := hstacks
    unfold CallStack.headroom at hroom
    rcases hc : v.machine.calls.push v.method v.arguments with e | c
    · obtain ⟨-, rfl⟩ := CallStack.push_eq_error hc
      exact .lost ⟨_, _, _, rfl, rfl⟩
    · obtain ⟨hlt, -⟩ := CallStack.push_eq_ok hc
      rcases hd : d.push v.method args' with e | d'
      · obtain ⟨hle, -⟩ := CallStack.push_eq_error hd
        omega
      · have hdepth := CallStack.depth_push hentries hc
        have hdepth' := CallStack.depth_push_le hd
        have hroom' : c.headroom ≤ d'.headroom := by
          unfold CallStack.headroom
          rw [CallStack.limit_push hc, CallStack.limit_push hd]
          omega
        exact .ok fun hst => ⟨hst.heap, ⟨CallStack.entries_le_push hentries hc, hroom'⟩, trivial,
          hst.answers, trivial⟩
  makes _ _ := trivial

/-- An invocation that does not fail for want of headroom comes out the same with more of it. -/
theorem invoke_of_headroom_le (hctx : ctx'.catalog = ctx.catalog)
    (hs : s.calls.entries ≤ s.calls.frames.length) (hds : s.dispatch.Faithful ctx.catalog)
    (hdt : t.dispatch.Faithful ctx.catalog) (hheap : t.heap = s.heap)
    (hroom : s.calls.headroom ≤ t.calls.headroom)
    (h : invoke ctx fuel m args s = some (r, s'))
    (hr : ∀ e, r = .error e → ¬ e.IsDepthExceeded) :
    ∃ t', invoke ctx' fuel m args t = some (r, t') ∧ t'.heap = s'.heap := by
  have hst : (roomier ctx.catalog).Outside () s t :=
    ⟨hheap.symm, ⟨hs, hroom⟩, trivial, ⟨hds, hdt⟩, trivial⟩
  rcases invoke_follows (roomier_lawful hctx) trivial trivial (valuesRel_eq args) hst r s' h with
    ⟨e, he, hlost⟩ | ⟨w, q, t', -, ht, hout, hrq⟩
  · exact absurd hlost (hr e he)
  · have hheap' : s'.heap = t'.heap := hout.heap
    obtain rfl : r = q := alike_rel_eq hrq
    exact ⟨t', ht, hheap'.symm⟩

/-! ### Less headroom -/

/-- The stack `d` has as many frames as `c`, and the limit `limit`, which `c` has not passed. -/
structure LoweredTo (limit : Nat) (c d : CallStack) : Prop where
  entries : c.entries ≤ c.frames.length
  depth_le : c.depth ≤ limit
  limit_le : limit ≤ c.limit
  size_eq : d.frames.length = c.frames.length
  entries_eq : d.entries = c.entries
  limit_eq : d.limit = limit

theorem LoweredTo.depth_eq {limit : Nat} {c d : CallStack} (h : LoweredTo limit c d) :
    d.depth = c.depth := by
  rw [CallStack.depth, CallStack.depth, h.size_eq, h.entries_eq]

/-- Machines that have all in common but the frames and the limit, which the second one has lower.
-/
def lowered (limit : Nat) : Correspondence Unit :=
  sameHeap (LoweredTo limit) Eq Eq Eq (fun _ => True) (fun _ => True)

theorem lowered_lawful (ctx : Context) (limit : Nat) :
    (lowered limit).LawfulRuns ctx ctx (fun _ => False)
      fun v => ∀ depth, v.Reaches ctx depth → depth ≤ limit where
  toLawful := by
    refine sameHeap_lawful rfl (fun _ => trivial) (fun _ => trivial) ?_ (fun f h => congrArg f h)
      (fun traced e h => by rw [h]) ?_ fun _ => trivial
    · intro c c' d d' h hc hd
      refine ⟨hc.entries_le h.entries, ?_, ?_, ?_, ?_, ?_⟩
      · rw [hc.depth_eq]
        exact h.depth_le
      · rw [hc.limit]
        exact h.limit_le
      · rw [hd.length_eq, hc.length_eq, h.size_eq]
      · rw [hd.entries, hc.entries, h.entries_eq]
      · rw [hd.limit, h.limit_eq]
    · rintro d _ declared runtime rfl
      refine (Alike.of_only (d.resolve_onlyPlain ctx.catalog declared runtime).ordinary).mono
        (fun _ _ => trivial) ?_
      rintro p _ ⟨rfl, -⟩
      exact ⟨rfl, trivial, rfl⟩
  locate _ _ := trivial
  lost_locate _ h := h
  routine _ _ := sameHeap_routine fun _ _ _ _ => trivial
  push {v d args'} hreaches h := by
    have hdepth := h.depth_eq
    have hdepth_le := h.depth_le
    have hlimit_le := h.limit_le
    have hlimit := h.limit_eq
    rcases hc : v.machine.calls.push v.method v.arguments with e | c
    · obtain ⟨hle, rfl⟩ := CallStack.push_eq_error hc
      -- a frame that is refused here has used up the lower limit as well
      have hsame : d.limit = v.machine.calls.limit := by omega
      rcases hd : d.push v.method args' with e | d'
      · obtain ⟨-, rfl⟩ := CallStack.push_eq_error hd
        rw [hdepth, hsame]
        exact .error trivial
      · obtain ⟨hlt, -⟩ := CallStack.push_eq_ok hd
        omega
    · -- a frame that is pushed here has been reached, so there is room for it below the lower limit
      have hreach : c.depth ≤ limit := hreaches _ ⟨v, c, .refl, hc, rfl⟩
      have hcdepth := CallStack.depth_push h.entries hc
      have hcentries := CallStack.entries_le_push h.entries hc
      have hclimit := CallStack.limit_push hc
      rcases hd : d.push v.method args' with e | d'
      · obtain ⟨hle, -⟩ := CallStack.push_eq_error hd
        omega
      · obtain ⟨-, caller, rfl⟩ := CallStack.push_eq_ok hc
        obtain ⟨-, caller', rfl⟩ := CallStack.push_eq_ok hd
        have hlowered : LoweredTo limit
            { v.machine.calls with
              frames := .ofMethod caller v.method v.arguments :: v.machine.calls.frames }
            { d with frames := .ofMethod caller' v.method args' :: d.frames } :=
          ⟨hcentries, hreach, h.limit_le, congrArg (· + 1) h.size_eq, h.entries_eq, h.limit_eq⟩
        refine .ok fun hst => ⟨hst.heap, hlowered, ?_, hst.answers, ?_⟩
        · rw [entered, entered, hlowered.depth_eq, hst.counters]
          rfl
        · rw [entered, entered, hlowered.depth_eq, hst.logs]
          rfl
  makes hreaches hmakes depth := by
    rintro ⟨v', calls, hwithin, hpush, hdepth⟩
    exact hreaches depth ⟨v', calls, .head hmakes hwithin, hpush, hdepth⟩

/-- An invocation that does not reach the limit `limit` comes out the same if that is the limit. -/
theorem invoke_withLimit {limit : Nat} (hs : s.calls.entries ≤ s.calls.frames.length)
    (hdepth : s.calls.depth ≤ limit) (hlimit : limit ≤ s.calls.limit)
    (h : invoke ctx fuel m args s = some (r, s'))
    (hreaches : ∀ depth, Invocation.Reaches ctx ⟨fuel, m, args, s⟩ depth → depth ≤ limit) :
    invoke ctx fuel m args (s.withLimit limit) = some (r, s'.withLimit limit) := by
  have hst : (lowered limit).Outside () s (s.withLimit limit) :=
    ⟨rfl, ⟨hs, hdepth, hlimit, rfl, rfl, rfl⟩, rfl, rfl, rfl⟩
  obtain ⟨w, q, t', -, ht, hout, hrq⟩ :=
    (invoke_follows (lowered_lawful ctx limit) hreaches trivial (valuesRel_eq args) hst).ends h
  obtain rfl : r = q := alike_rel_eq hrq
  have hcalls : t'.calls = s'.calls.withLimit limit := by
    rw [invoke_calls ctx fuel m args _ _ _ ht, invoke_calls ctx fuel m args _ _ _ h]
    exact CallStack.afterCall_withLimit s.calls limit r
  have hheap : s'.heap = t'.heap := hout.heap
  have hcounters : s'.stats = t'.stats := hout.counters
  have hanswers : s'.dispatch = t'.dispatch := hout.answers
  have hlogs : s'.log = t'.log := hout.logs
  rw [ht, withLimit, hheap, hcounters, hanswers, hlogs, ← hcalls]

/-- **An invocation depends on its context only through the headroom.**  In a machine with the same
heap and at least as much headroom it returns the same or fails the same, with the same heap after
it, unless it is a refused frame that makes it fail; and an invocation that reaches at most `d`
frames above its start goes on in the same way when that is all the headroom there is. -/
theorem invoke_headroom (hcatalog : ctx'.catalog = ctx.catalog) (hs : s.calls.WellFormed)
    (h : invoke ctx fuel m args s = some (r, s')) :
    (∀ t : Machine, t.heap = s.heap → s.dispatch.FilledOn ctx.catalog →
      t.dispatch.FilledOn ctx.catalog → s.calls.headroom ≤ t.calls.headroom →
      (∀ e, r = .error e → ¬ e.IsDepthExceeded) →
      ∃ t', invoke ctx' fuel m args t = some (r, t') ∧ t'.heap = s'.heap) ∧
    ∀ d, s.calls.depth + d ≤ s.calls.limit →
      (∀ depth, Invocation.Reaches ctx ⟨fuel, m, args, s⟩ depth → depth ≤ s.calls.depth + d) →
      (s.withLimit (s.calls.depth + d)).calls.headroom = d ∧
      invoke ctx fuel m args (s.withLimit (s.calls.depth + d)) =
        some (r, s'.withLimit (s.calls.depth + d)) := by
  refine ⟨fun t hheap hds hdt hroom hr => ?_, fun d hd hreaches => ⟨?_, ?_⟩⟩
  · exact invoke_of_headroom_le hcatalog hs.entries_le hds.faithful hdt.faithful hheap hroom h hr
  · exact Nat.add_sub_cancel_left s.calls.depth d
  · exact invoke_withLimit hs.entries_le (Nat.le_add_right _ d) hd h hreaches

/-- An invocation that executes no call reaches its own depth only. -/
theorem Invocation.Reaches.eq_of_no_call {v : Invocation} {depth : Nat} (h : v.Reaches ctx depth)
    (hv : ∀ i u c u', v.Executes ctx i u → performInstruction ctx i u ≠ (.ok (.call c), u')) :
    ∃ calls, v.machine.calls.push v.method v.arguments = .ok calls ∧ calls.depth = depth := by
  obtain ⟨v', calls, hwithin, hpush, hdepth⟩ := h
  rcases hwithin.cases_head with rfl | ⟨v₁, hmakes, -⟩
  · exact ⟨calls, hpush, hdepth⟩
  · obtain ⟨i, u, hexecutes, hperform⟩ := hmakes
    exact absurd hperform (hv _ _ _ _ hexecutes)

end Machine

namespace Sample

/-- The program, with all tracing on. -/
def traced : Context := { catalog, tracing := ⟨true, true, true⟩ }

/-- A machine inside a method, with more headroom than the sample machine. -/
def deeperMachine : Machine where
  calls := {
    frames := [.ofMethod none divide [], { stack := [.int32 1] }], entries := 1, limit := 9 }
  stats := { calls := 1, maxDepth := 1 }

end Sample

namespace Machine

/-- No instruction of the method makes a call. -/
theorem seven_makes_no_call {fuel : Nat} {u u' : Machine} {i : Instruction} {c : Call}
    (h : Invocation.Executes Sample.context ⟨fuel, Sample.seven, [], s⟩ i u) :
    performInstruction Sample.context i u ≠ (.ok (.call c), u') := by
  obtain ⟨-, hbody, hvisits⟩ := h
  cases hbody
  obtain ⟨j, hj⟩ := hvisits.exists_get
  intro hperform
  rcases j with - | - | j
  · cases hj
    change (push (.int32 7) >>= fun _ => proceed) u = _ at hperform
    rw [op_bind_apply] at hperform
    rcases hpush : push (.int32 7) u with ⟨e | ⟨⟩, v⟩ <;> rw [hpush] at hperform <;>
      cases hperform
  · cases hj
    cases hperform
  · cases hj

/-- An invocation that creates an object and calls a method, in a deeper machine with all tracing
on; and one that calls nothing, with room for one frame. -/
theorem invoke_headroom_sample :
    (∃ s', invoke Sample.context 9 Sample.run [] Sample.machine =
        some (.ok (some (.int32 7)), s') ∧
      ∃ t', invoke Sample.traced 9 Sample.run [] Sample.deeperMachine =
        some (.ok (some (.int32 7)), t') ∧ t'.heap = s'.heap) ∧
    ∃ s', invoke Sample.context 9 Sample.seven [] Sample.machine =
        some (.ok (some (.int32 7)), s') ∧
      invoke Sample.context 9 Sample.seven [] (Sample.machine.withLimit 1) =
        some (.ok (some (.int32 7)), s'.withLimit 1) := by
  have hrun : (invoke Sample.context 9 Sample.run [] Sample.machine).map Prod.fst =
      some (.ok (some (.int32 7))) := by decide +kernel
  have hseven : (invoke Sample.context 9 Sample.seven [] Sample.machine).map Prod.fst =
      some (.ok (some (.int32 7))) := by decide +kernel
  have hcatalog : Sample.traced.catalog = Sample.context.catalog := rfl
  have hwf : Sample.machine.calls.WellFormed := rfl
  obtain ⟨⟨_, s'⟩, hs', rfl⟩ := Option.map_eq_some_iff.1 hrun
  obtain ⟨⟨_, u'⟩, hu', rfl⟩ := Option.map_eq_some_iff.1 hseven
  refine ⟨⟨s', hs', ?_⟩, u', ?_⟩
  · have hroom : Sample.machine.calls.headroom ≤ Sample.deeperMachine.calls.headroom := by decide
    have hok : ∀ e, (.ok (some (.int32 7)) : Except Failure (Option Value)) = .error e →
        ¬ e.IsDepthExceeded := by
      rintro e ⟨⟩
    exact (invoke_headroom hcatalog hwf hs').1 Sample.deeperMachine rfl .empty .empty hroom hok
  · have hreaches : ∀ depth,
        Invocation.Reaches Sample.context ⟨9, Sample.seven, [], Sample.machine⟩ depth →
          depth ≤ 1 := by
      intro depth h
      obtain ⟨calls, hpush, rfl⟩ := h.eq_of_no_call fun i u c u' => seven_makes_no_call
      cases hpush
      decide
    have hlower : Sample.machine.calls.depth + 1 ≤ Sample.machine.calls.limit := by decide
    obtain ⟨-, hl⟩ := (invoke_headroom hcatalog hwf hu').2 1 hlower hreaches
    exact ⟨hu', hl⟩

end Machine

end CilMachine
