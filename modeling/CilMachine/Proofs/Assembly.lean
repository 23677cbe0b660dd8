/-
CilMachine/Proofs/Assembly.lean

What an operation of the assembler leaves behind when it fails.  An instruction and a jump are
checked before anything is placed or announced, so nothing has happened (`emit_eq_error`,
`branch_eq_error`).  A label is given the current position before it is found to be taken: the
operation that defines a label twice fails, and has moved the label all the same.

Assemblers that differ in the order of their labels at most (`Same`) stay so, item by item, and
finish alike.  Hence whoever passes over a failure gets the body that there would have been without
the failing operation, unless that has moved a label (`add_error`).
-/
import CilMachine.Proofs.Layout

namespace CilMachine

namespace Assembler

variable {s t : Assembler} {item : Item} {m name : String} {operand : Operand} {opcode : Opcode}
  {e : Failure}

/-! ### What is left behind -/

/-- An instruction that is refused leaves nothing behind. -/
theorem emit_eq_error (h : (emit m operand s).1 = .error e) : (emit m operand s).2 = s := by
  rcases hm : Opcode.lookup m with - | opcode
  · rw [emit_snd, hm]
    rfl
  · rcases haccepts : opcode.operand.accepts operand
    · rw [emit_snd, hm, Option.filter_some, haccepts]
      rfl
    · rw [emit_of_accepts hm haccepts] at h
      cases h

/-- A jump that is refused leaves nothing behind: one that is announced is placed. -/
theorem branch_eq_error {label : String} (h : (branch m label s).1 = .error e) :
    (branch m label s).2 = s := by
  refine branch_of_not (fun opcode hm => Bool.eq_false_iff.2 fun hflow => ?_) label s
  rw [branch_apply hm hflow] at h
  cases h

/-- A label that is refused is taken, and now names the current position. -/
theorem label_eq_error (h : (label name s).1 = .error e) :
    e = .malformed (.labelDefinedTwice name) ∧ (∃ position, s.labels.lookup name = some position) ∧
      (label name s).2 = { s with labels := (name, s.position) :: s.labels } := by
  rw [label_apply] at h ⊢
  dsimp only at h
  split at h
  · cases h
    exact ⟨rfl, Option.isSome_iff_exists.1 ‹_›, rfl⟩
  · cases h

theorem add_eq_error (hitem : ∀ name, item ≠ .label name) (h : (add item s).1 = .error e) :
    (add item s).2 = s := by
  cases item with
  | emit => exact emit_eq_error h
  | raw => cases h
  | constant => exact emit_eq_error h
  | loadArgument => exact emit_eq_error h
  | loadLocal => exact emit_eq_error h
  | storeLocal => exact emit_eq_error h
  | branch => exact branch_eq_error h
  | label name => exact absurd rfl (hitem name)

/-! ### Assemblers alike -/

/-- The assemblers differ in the order of their labels at most. -/
structure Same (s t : Assembler) : Prop where
  code : t.code = s.code
  labels : ∀ name, t.labels.lookup name = s.labels.lookup name
  fixups : t.fixups = s.fixups
  position : t.position = s.position

theorem Same.refl (s : Assembler) : Same s s := ⟨rfl, fun _ => rfl, rfl, rfl⟩

theorem Same.place (h : Same s t) (opcode : Opcode) (operand : Operand) :
    Same (s.place opcode operand) (t.place opcode operand) where
  code := by rw [Assembler.place, Assembler.place, next, next, h.code, h.position]
  labels := h.labels
  fixups := h.fixups
  position := congrArg (advance · opcode.size) h.position

theorem Same.emit (h : Same s t) (m : String) (operand : Operand) :
    Same (emit m operand s).2 (Assembler.emit m operand t).2 := by
  rw [emit_snd, emit_snd]
  generalize (Opcode.lookup m).filter (·.operand.accepts operand) = placed
  rcases placed with - | opcode
  · exact h
  · exact h.place opcode operand

theorem Same.branch (h : Same s t) (m label : String) :
    Same (branch m label s).2 (Assembler.branch m label t).2 := by
  rcases Classical.em (∃ opcode, Opcode.lookup m = some opcode ∧ opcode.flow.isBranch) with
    ⟨opcode, hm, hflow⟩ | hnot
  · have hawaiting : Same (s.awaiting label) (t.awaiting label) :=
      ⟨h.code, h.labels, by rw [awaiting, awaiting, h.fixups, h.code], h.position⟩
    rw [branch_apply hm hflow, branch_apply hm hflow]
    exact hawaiting.place opcode (.target 0)
  · have hrefused : ∀ opcode, Opcode.lookup m = some opcode → opcode.flow.isBranch = false :=
      fun opcode hm => Bool.eq_false_iff.2 fun hflow => hnot ⟨opcode, hm, hflow⟩
    rw [branch_of_not hrefused, branch_of_not hrefused]
    exact h

theorem Same.label (h : Same s t) (name : String) :
    Same (label name s).2 (Assembler.label name t).2 := by
  rw [label_apply, label_apply]
  refine ⟨h.code, fun other => ?_, h.fixups, h.position⟩
  rw [List.lookup_cons, List.lookup_cons, h.labels, h.position]

theorem Same.add (h : Same s t) (item : Item) : Same (add item s).2 (Assembler.add item t).2 := by
  cases item with
  | emit m operand => exact h.emit m operand
  | raw i =>
      exact ⟨congrArg (·.push i) h.code, h.labels, h.fixups,
        congrArg (max · i.nextOffset) h.position⟩
  | constant n => exact h.emit _ _
  | loadArgument index => exact h.emit _ _
  | loadLocal index => exact h.emit _ _
  | storeLocal index => exact h.emit _ _
  | branch m label => exact h.branch m label
  | label name => exact h.label name

/-- The assembler after further items.  An operation that fails is passed over. -/
def onwards (s : Assembler) (items : List Item) : Assembler :=
  items.foldl (fun s item => (add item s).2) s

theorem Same.onwards (h : Same s t) (items : List Item) :
    Same (s.onwards items) (t.onwards items) := by
  induction items generalizing s t with
  | nil => exact h
  | cons item rest ih => exact ih (h.add item)

theorem resolve_congr {labels labels' : List (String × Nat)}
    (h : ∀ name, labels'.lookup name = labels.lookup name) (fixups : List Fixup)
    (code : Array Instruction) : resolve labels' fixups code = resolve labels fixups code := by
  induction fixups generalizing code with
  | nil => rfl
  | cons f rest ih =>
      unfold resolve
      rw [h]
      rcases labels.lookup f.label with - | target
      · rfl
      · exact ih _

theorem Same.finish_eq (h : Same s t) : t.finish = s.finish := by
  rw [finish, finish, h.fixups, h.code, resolve_congr h.labels]

/-! ### Failing operations -/

/-- The item is a label that is taken and names another position than the current one. -/
def Moves (s : Assembler) (item : Item) : Prop :=
  ∃ name position, item = .label name ∧ s.labels.lookup name = some position ∧
    position ≠ s.position

/-- To give a label once more to the position that it names changes nothing. -/
theorem same_label (h : s.labels.lookup name = some s.position) :
    Same s { s with labels := (name, s.position) :: s.labels } := by
  refine ⟨rfl, fun other => ?_, rfl, rfl⟩
  rw [List.lookup_cons]
  split
  · rename_i heq
    rw [eq_of_beq heq, h]
  · rfl

theorem same_of_error (hmoves : ¬ s.Moves item) (h : (add item s).1 = .error e) :
    Same s (add item s).2 := by
  rcases Classical.em (∃ name, item = .label name) with ⟨name, rfl⟩ | hitem
  · obtain ⟨-, ⟨position, htaken⟩, hlabel⟩ := label_eq_error h
    have hposition : position = s.position :=
      Decidable.not_not.1 fun hne => hmoves ⟨name, position, rfl, htaken, hne⟩
    show Same s (label name s).2
    rw [hlabel]
    exact same_label (hposition ▸ htaken)
  · rw [add_eq_error (fun name heq => hitem ⟨name, heq⟩) h]
    exact .refl s

/-- A label that is moved tells the assemblers apart. -/
theorem not_same_of_moves (hmoves : s.Moves item) : ¬ Same s (add item s).2 := by
  obtain ⟨name, position, rfl, htaken, hne⟩ := hmoves
  intro hsame
  have hlookup := hsame.labels name
  rw [show (add (.label name) s).2 = (label name s).2 from rfl, label_apply, List.lookup_cons_self,
    htaken] at hlookup
  exact hne (Option.some.inj hlookup).symm

/-- **A failing operation changes nothing, unless it moves a label.**  If it is no label, the
assembler is as it was.  If it is one, that was taken; it now names the current position, and all
else is as it was.  So the assemblers before and after it are told apart only if it named another
position; and unless it did, they finish alike with whatever further items. -/
theorem add_error (h : (add item s).1 = .error e) :
    ((∀ name, item ≠ .label name) → (add item s).2 = s) ∧
    (∀ name, item = .label name →
      e = .malformed (.labelDefinedTwice name) ∧
        (∃ position, s.labels.lookup name = some position) ∧
        (add item s).2 = { s with labels := (name, s.position) :: s.labels }) ∧
    (Same s (add item s).2 ↔ ¬ s.Moves item) ∧
    (¬ s.Moves item →
      ∀ items, ((add item s).2.onwards items).finish = (s.onwards items).finish) := by
  refine ⟨fun hitem => add_eq_error hitem h, fun name heq => ?_, ?_, fun hmoves items => ?_⟩
  · subst heq
    exact label_eq_error h
  · exact ⟨fun hsame hmoves => not_same_of_moves hmoves hsame, fun hmoves => same_of_error hmoves h⟩
  · exact ((same_of_error hmoves h).onwards items).finish_eq

end Assembler

namespace Sample

/-- A label, and an instruction behind it. -/
def labelled : Assembler := Assembler.after [.label "a", .plain "nop"]

/-- A jump to the label, and the end. -/
def toLabel : List Item := [.branch "br.s" "a", .plain "ret"]

end Sample

namespace Assembler

/-- An operand that is missing is noticed, and the body is what it would have been; so is a label
that is defined twice in one place. -/
theorem add_error_missing :
    (((add (.plain "ldfld") Sample.labelled).2.onwards Sample.toLabel).finish =
      (Sample.labelled.onwards Sample.toLabel).finish) ∧
    (((add (.label "a") (after [.label "a"])).2.onwards Sample.toLabel).finish =
      ((after [.label "a"]).onwards Sample.toLabel).finish) := by
  have hmissing : (add (.plain "ldfld") Sample.labelled).1 =
      .error (.malformed (.operandMismatch .none "ldfld" .field)) := by decide +kernel
  have htwice : (add (.label "a") (after [.label "a"])).1 =
      .error (.malformed (.labelDefinedTwice "a")) := by decide +kernel
  constructor
  · refine (add_error hmissing).2.2.2 ?_ _
    rintro ⟨name, position, hitem, -⟩
    cases hitem
  · refine (add_error htwice).2.2.2 ?_ _
    rintro ⟨name, position, hitem, htaken, hne⟩
    cases hitem
    cases htaken
    exact hne rfl

/-- It is not so that every failing operation changes nothing: here the label is defined again
behind the instruction, and the jump leads there. -/
theorem add_error_moved :
    ¬ ∀ (s : Assembler) (item : Item) (e : Failure), (add item s).1 = .error e →
        Same s (add item s).2 ∧
          ∀ items, ((add item s).2.onwards items).finish = (s.onwards items).finish := by
  intro hclaim
  have hfails : (add (.label "a") Sample.labelled).1 =
      .error (.malformed (.labelDefinedTwice "a")) := by decide +kernel
  have hfinish := (hclaim Sample.labelled (.label "a") _ hfails).2 Sample.toLabel
  have htargets := congrArg (·.map fun b => b.toList.filterMap (·.operand.target?)) hfinish
  have hmoved : (((add (.label "a") Sample.labelled).2.onwards Sample.toLabel).finish.map
      fun b => b.toList.filterMap (·.operand.target?)) = .ok [1] := by decide +kernel
  have hkept : ((Sample.labelled.onwards Sample.toLabel).finish.map
      fun b => b.toList.filterMap (·.operand.target?)) = .ok [0] := by decide +kernel
  rw [hmoved, hkept] at htargets
  cases htargets

end Assembler

end CilMachine
