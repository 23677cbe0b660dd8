/-
CilMachine/Proofs/StackOperations.lean

Call stacks under their operations, in any order.  A stack keeps three things beside its frames that
have to agree with them: the number of entry frames, the limit of the number of method frames, and
for each method's frame the method that has called it.  Each operation keeps the agreement
(`Consistent.apply`), also a push that is refused and an unwinding that fails; so it holds of every
stack that operations make of the empty one (`operations_consistent`).

The frame on top is open to its user, who may put anything on its operand stack and into its locals;
that is one of the operations (`Operation.edit`).
-/
import CilMachine.Proofs.Headroom

namespace CilMachine

namespace CallStack

/-! ### Operations -/

/-- What can be done to a call stack. -/
inductive Operation
  | pushEntry
  | push (m : Method) (args : List Value)
  | unwind
  | discard
  | truncate (size : Nat)
  | edit (stack : OperandStack) (locals : Locals)

/-- The stack after an operation.  A push that is refused leaves it as it was. -/
def apply (c : CallStack) : Operation → CallStack
  | .pushEntry => c.pushEntry
  | .push m args => match c.push m args with
    | .ok d => d
    | .error _ => c
  | .unwind => c.unwind.2
  | .discard => c.discard.2
  | .truncate size => c.truncate size
  | .edit stack locals => match c.current with
    | .ok f => c.setCurrent { f with stack, locals }
    | .error _ => c

/-- The stack after operations one after another. -/
def applyAll (c : CallStack) (ops : List Operation) : CallStack := ops.foldl apply c

/-! ### Consistent stacks -/

/-- Each method's frame names the method of the frame below as its caller, and none where that is an
entry frame or where there is no frame below. -/
def Linked : List Frame → Prop
  | [] => True
  | f :: below => (f.isEntry = false → f.caller = below.head?.bind Frame.method) ∧ Linked below

/-- The number of entry frames is the one that is kept, the others are within the limit, and the
callers are those of the frames. -/
structure Consistent (c : CallStack) : Prop where
  wellFormed : c.WellFormed
  depth_le : c.depth ≤ c.limit
  linked : Linked c.frames

variable {c d : CallStack} {f g : Frame} {above below F : List Frame} {m : Method}
  {args : List Value}

theorem Linked.caller_eq (h : Linked (above ++ f :: below)) (hf : f.isEntry = false) :
    f.caller = below.head?.bind Frame.method := by
  induction above with
  | nil => exact h.1 hf
  | cons _ above ih => exact ih h.2

/-- The caller is what matters of a frame, and the method. -/
theorem Linked.replace (h : Linked (f :: below)) (hmethod : g.method = f.method)
    (hcaller : g.caller = f.caller) : Linked (g :: below) := by
  obtain ⟨hf, hbelow⟩ := h
  refine ⟨fun hg => ?_, hbelow⟩
  rw [hcaller]
  refine hf ?_
  rw [← hg, Frame.isEntry, Frame.isEntry, hmethod]

/-- The depth is the number of method frames. -/
theorem WellFormed.depth_eq (h : c.WellFormed) :
    c.depth = c.frames.countP fun f => !f.isEntry := by
  have hlength := List.length_eq_countP_add_countP Frame.isEntry (l := c.frames)
  unfold WellFormed at h
  rw [depth, h]
  simp only [Bool.not_eq_true, Bool.decide_eq_false] at hlength
  omega

namespace Consistent

theorem ofLimit (limit : Nat) : (CallStack.ofLimit limit).Consistent :=
  ⟨wellFormed_ofLimit limit, Nat.zero_le limit, trivial⟩

/-! ### One operation -/

theorem pushEntry (h : c.Consistent) : c.pushEntry.Consistent := by
  refine ⟨h.wellFormed.pushEntry, ?_, ⟨nofun, h.linked⟩⟩
  have hdepth : c.pushEntry.depth = c.depth := Nat.add_sub_add_right _ 1 _
  rw [hdepth]
  exact h.depth_le

/-- A push has compared the depth with the limit, and takes the caller from the frame on top. -/
theorem push (h : c.Consistent) (hd : c.push m args = .ok d) : d.Consistent := by
  refine ⟨h.wellFormed.push hd, ?_, ?_⟩
  · obtain ⟨hlt, -⟩ := push_eq_ok hd
    rw [depth_push h.wellFormed.entries_le hd, limit_push hd]
    exact hlt
  · unfold CallStack.push at hd
    split at hd <;> cases hd
    exact ⟨fun _ => rfl, h.linked⟩

/-- What is taken off is the top frame. -/
theorem discard_eq (h : c.Consistent) (hc : c.frames = f :: below) :
    c.discard =
      (some f, { c with frames := below, entries := below.countP Frame.isEntry }) := by
  have hentries := h.wellFormed
  unfold WellFormed at hentries
  rw [hc, List.countP_cons] at hentries
  rw [discard, hc]
  cases hf : f.isEntry <;> simp_all

theorem discard (h : c.Consistent) : c.discard.2.Consistent := by
  rcases hc : c.frames with - | ⟨f, below⟩
  · rw [CallStack.discard, hc]
    exact h
  · refine ⟨h.wellFormed.discard, ?_, ?_⟩
    · -- one frame less, and it is counted among the entry frames or among the others
      have hdepth := h.wellFormed.discard.depth_eq
      have hle := h.depth_le
      rw [h.wellFormed.depth_eq, hc, List.countP_cons] at hle
      rw [h.discard_eq hc] at hdepth ⊢
      exact hdepth ▸ Nat.le_of_add_right_le hle
    · have hlinked := h.linked
      rw [hc] at hlinked
      rw [h.discard_eq hc]
      exact hlinked.2

/-- Another frame on top, which belongs to the same activation. -/
theorem setCurrent (h : c.Consistent) (hc : c.frames = f :: below) (hmethod : g.method = f.method)
    (hcaller : g.caller = f.caller) : (c.setCurrent g).Consistent := by
  obtain ⟨frames, entries, limit⟩ := c
  obtain rfl : frames = f :: below := hc
  obtain ⟨hwf, hdepth, hlinked⟩ := h
  refine ⟨?_, hdepth, hlinked.replace hmethod hcaller⟩
  have hentry : g.isEntry = f.isEntry := by rw [Frame.isEntry, Frame.isEntry, hmethod]
  unfold WellFormed at hwf ⊢
  show entries = (g :: below).countP Frame.isEntry
  rw [List.countP_cons, hentry, ← List.countP_cons]
  exact hwf

theorem deliver (h : c.Consistent) (v : Value) : (c.deliver v).Consistent := by
  rcases hc : c.frames with - | ⟨f, below⟩
  · rw [CallStack.deliver, hc]
    exact h
  · have hset := h.setCurrent (g := f.push v) hc rfl rfl
    rw [CallStack.setCurrent, hc] at hset
    rw [CallStack.deliver, hc]
    exact hset

theorem truncate (h : c.Consistent) (size : Nat) : (c.truncate size).Consistent := by
  unfold CallStack.truncate
  generalize c.size - size = n
  induction n generalizing c with
  | zero => exact h
  | succ n ih => exact ih h.discard

end Consistent

/-- To unwind is to take the top frame off, and to deliver the value that it returns. -/
theorem unwind_eq_discard (c : CallStack) : c.unwind.2 = c.discard.2.afterCall c.unwind.1 := by
  rw [unwind]
  rcases c.discard with ⟨- | f, d⟩
  · rfl
  · rcases hm : f.method with - | m
    · simp only [hm]
      rfl
    · simp only [hm]
      rcases returned m f.stack with e | - | v <;> rfl

theorem Consistent.unwind (h : c.Consistent) : c.unwind.2.Consistent := by
  rw [unwind_eq_discard]
  rcases c.unwind.1 with e | - | v
  · exact h.discard
  · exact h.discard
  · exact h.discard.deliver v

/-- Every operation keeps a call stack consistent. -/
theorem Consistent.apply (h : c.Consistent) (op : Operation) : (c.apply op).Consistent := by
  cases op with
  | pushEntry => exact h.pushEntry
  | push m args =>
      rcases hd : c.push m args with e | d <;> simp only [CallStack.apply, hd]
      · exact h
      · exact h.push hd
  | unwind => exact h.unwind
  | discard => exact h.discard
  | truncate size => exact h.truncate size
  | edit stack locals =>
      unfold CallStack.apply
      rcases hc : c.frames with - | ⟨f, below⟩
      · rw [current, hc]
        exact h
      · rw [current, hc]
        exact h.setCurrent hc rfl rfl

/-! ### All operations -/

theorem limit_apply (c : CallStack) (op : Operation) : (c.apply op).limit = c.limit := by
  have hdiscard (c : CallStack) : c.discard.2.limit = c.limit := by
    unfold discard
    split <;> rfl
  cases op with
  | pushEntry => rfl
  | push m args =>
      rcases hd : c.push m args with e | d <;> simp only [apply, hd]
      exact limit_push hd
  | unwind =>
      show c.unwind.2.limit = c.limit
      rw [unwind_eq_discard, (Continues.afterCall _ _).limit, hdiscard]
  | discard => exact hdiscard c
  | truncate size =>
      show (truncate.go (c.size - size) c).limit = c.limit
      generalize c.size - size = n
      induction n generalizing c with
      | zero => rfl
      | succ n ih => exact (ih c.discard.2).trans (hdiscard c)
  | edit stack locals =>
      unfold apply current setCurrent
      rcases hc : c.frames with - | ⟨f, below⟩ <;> rfl

theorem Consistent.applyAll (h : c.Consistent) (ops : List Operation) :
    (c.applyAll ops).Consistent := by
  induction ops generalizing c with
  | nil => exact h
  | cons op ops ih => exact ih (h.apply op)

theorem limit_applyAll (c : CallStack) (ops : List Operation) :
    (c.applyAll ops).limit = c.limit := by
  induction ops generalizing c with
  | nil => rfl
  | cons op ops ih => exact (ih (c.apply op)).trans (limit_apply c op)

/-- A frame is refused just if the limit is reached. -/
theorem Consistent.push_eq_error_iff (h : c.Consistent) (m : Method) (args : List Value) :
    (∃ e, c.push m args = .error e) ↔ c.depth = c.limit := by
  constructor
  · rintro ⟨e, he⟩
    exact Nat.le_antisymm h.depth_le (push_eq_error he).1
  · intro hdepth
    rcases hd : c.push m args with e | d
    · exact ⟨e, rfl⟩
    · exact absurd hdepth (Nat.ne_of_lt (push_eq_ok hd).1)

/-- **Call stacks stay consistent.**  Whatever operations have made of an empty stack, the number of
entry frames is the one that is kept, so that the depth is the number of the other frames; the depth
is within the limit; and the caller of a method's frame is the method of the frame below.  A method
is refused just if the depth is the limit, and then a machine that was to enter it is as it was.
To unwind takes off the top frame and no other, whatever comes of it, and leaves the frames below as
they were but for a value that is returned, which is pushed on the first of them. -/
theorem operations_consistent (limit : Nat) (ops : List Operation) :
    let c := (ofLimit limit).applyAll ops
    (c.entries = c.frames.countP Frame.isEntry ∧ c.entries ≤ c.size) ∧
    (c.depth = (c.frames.countP fun f => !f.isEntry) ∧ c.depth ≤ limit) ∧
    (∀ above f below, c.frames = above ++ f :: below → f.isEntry = false →
      f.caller = below.head?.bind Frame.method) ∧
    (∀ m args, (∃ e, c.push m args = .error e) ↔ c.depth = limit) ∧
    (∀ ctx m args (s : Machine), s.calls = c → c.depth = limit →
      ∃ e, Machine.enter ctx m args s = (.error e, s)) ∧
    ∀ f below, c.frames = f :: below → c.unwind.2 =
      ({ c with frames := below, entries := below.countP Frame.isEntry } : CallStack).afterCall
        c.unwind.1 := by
  intro c
  have hc : c.Consistent := (Consistent.ofLimit limit).applyAll ops
  have hlimit : c.limit = limit := limit_applyAll (ofLimit limit) ops
  have hrefused := hc.push_eq_error_iff
  rw [hlimit] at hrefused
  refine ⟨⟨hc.wellFormed, hc.wellFormed.entries_le⟩, ⟨hc.wellFormed.depth_eq, ?_⟩, ?_, hrefused,
    ?_, ?_⟩
  · exact hlimit ▸ hc.depth_le
  · intro above f below hframes hf
    have hlinked := hc.linked
    rw [hframes] at hlinked
    exact hlinked.caller_eq hf
  · rintro ctx m args s hs hdepth
    obtain ⟨e, he⟩ := (hrefused m args).2 hdepth
    refine ⟨.execution e, ?_⟩
    rw [Machine.enter_apply, hs, he]
  · intro f below hframes
    rw [unwind_eq_discard, hc.discard_eq hframes]

end CallStack

namespace Sample

/-- An entry frame, a method that has pushed its result, another entry frame and again the method,
with room for no more. -/
def interleaved : List CallStack.Operation :=
  [.pushEntry, .push seven [], .edit [.int32 7] [], .pushEntry, .push seven [], .push seven []]

end Sample

namespace CallStack

/-- Of two entry frames and three pushes, the last of which is refused. -/
theorem operations_consistent_interleaved :
    let c := (ofLimit 2).applyAll Sample.interleaved
    c.size = 4 ∧ c.entries = 2 ∧ (∃ e, c.push Sample.seven [] = .error e) ∧
      ∀ f below, c.frames = f :: below → f.isEntry = false ∧ f.caller = none := by
  obtain ⟨⟨hentries, -⟩, -, hcaller, hrefused, -, -⟩ := operations_consistent 2 Sample.interleaved
  refine ⟨rfl, hentries, (hrefused Sample.seven []).2 rfl, fun f below hframes => ?_⟩
  cases hframes
  exact ⟨rfl, hcaller [] _ _ rfl rfl⟩

end CallStack

end CilMachine
