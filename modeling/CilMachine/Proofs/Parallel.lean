/-
CilMachine/Proofs/Parallel.lean

Code that differs in its layout only.  Parallel instructions stand at different offsets and jump to
different ones, and a jump may have its short form on one side and its long form on the other; apart
from that they are the same.  So they are read as the same action, or as jumps under one condition
(`Instruction.Parallel.action?_alike`).

Bodies are parallel if their instructions are, with jumps that lead to instructions of one number.
-/
import CilMachine.Instruction.Action
import CilMachine.Proofs.Handles
import CilMachine.Proofs.Ordinary

namespace CilMachine

variable {P Q : Nat → Nat → Prop} {τ τ' : Nat} {α : Type}

/-! ### Short and long forms -/

/-- The mnemonics of the jumps in their short and in their long form. -/
def jumpForms : List (String × String) :=
  [("br.s", "br"), ("brtrue.s", "brtrue"), ("brfalse.s", "brfalse")]

/-- The mnemonics are the same, or the two forms of one jump. -/
def SameUpToForm (m m' : String) : Prop :=
  m' = m ∨ (m, m') ∈ jumpForms ∨ (m', m) ∈ jumpForms

theorem SameUpToForm.refl (m : String) : SameUpToForm m m := .inl rfl

/-! ### Parallel instructions -/

/-- The same instruction at another offset.  The targets of jumps are related by `P`, and a jump may
have its other form. -/
inductive Instruction.Parallel (P : Nat → Nat → Prop) : Instruction → Instruction → Prop
  | same {i i' : Instruction} : i.operand.target? = none → i'.flow = i.flow →
      i'.mnemonic = i.mnemonic → i'.operand = i.operand → Parallel P i i'
  | target {i i' : Instruction} {τ τ' : Nat} : i.operand = .target τ → i'.operand = .target τ' →
      P τ τ' → i'.flow = i.flow →
      (i'.mnemonic = i.mnemonic ∨ i.flow.isBranch ∧ SameUpToForm i.mnemonic i'.mnemonic) →
      Parallel P i i'

/-- The offsets are those of instructions of one number, or there is no instruction at either. -/
def Body.SameTarget (b b' : Body) (τ τ' : Nat) : Prop := b'.indexOf? τ' = b.indexOf? τ

/-- The bodies have parallel instructions, and jumps of one number lead to instructions of one
number. -/
def Body.Parallel (b b' : Body) : Prop :=
  List.Forall₂ (Instruction.Parallel (b.SameTarget b')) b.toList b'.toList

namespace Instruction.Parallel

variable {i i' : Instruction}

theorem mono (h : Parallel P i i') (hPQ : ∀ τ τ', P τ τ' → Q τ τ') : Parallel Q i i' := by
  cases h with
  | same hnone hflow hmnemonic hoperand => exact .same hnone hflow hmnemonic hoperand
  | target hi hi' hP hflow hmnemonic => exact .target hi hi' (hPQ _ _ hP) hflow hmnemonic

theorem refl (hP : ∀ τ, i.operand.target? = some τ → P τ τ) : Parallel P i i := by
  rcases hi : i.operand.target? with - | τ
  · exact .same hi rfl rfl rfl
  · have hτ : i.operand = .target τ := by
      cases ho : i.operand <;> rw [ho] at hi <;> cases hi
      rfl
    exact .target hτ hτ (hP τ hi) rfl (.inl rfl)

theorem flow_eq (h : Parallel P i i') : i'.flow = i.flow := by
  cases h with
  | same _ hflow _ _ => exact hflow
  | target _ _ _ hflow _ => exact hflow

theorem mnemonic (h : Parallel P i i') : SameUpToForm i.mnemonic i'.mnemonic := by
  cases h with
  | same _ _ hmnemonic _ => exact .inl hmnemonic
  | target _ _ _ _ hmnemonic => exact hmnemonic.elim .inl And.right

end Instruction.Parallel

theorem Body.SameTarget.refl (b : Body) (τ : Nat) : b.SameTarget b τ τ := rfl

theorem Body.Parallel.refl (b : Body) : b.Parallel b :=
  List.forall₂_same.2 fun _ _ => Instruction.Parallel.refl fun τ _ => SameTarget.refl b τ

theorem Body.Parallel.get? {b b' : Body} (h : b.Parallel b') (index : Nat) :
    Option.Rel (Instruction.Parallel (b.SameTarget b')) (b.get? index) (b'.get? index) := by
  rw [Body.get?, Body.get?, ← Array.getElem?_toList, ← Array.getElem?_toList]
  exact forall₂_getElem? h index

/-! ### Actions -/

/-- Whether the action may jump. -/
def Action.isJump : Action → Bool
  | .jump _ | .branch _ _ => true
  | _ => false

/-- Whether the form is that of an action that may jump. -/
def ActionForm.isJump : ActionForm → Bool
  | .plain a => a.isJump
  | _ => false

/-- The same action, which does not jump, or jumps under one condition to related targets. -/
inductive Action.Rel (P : Nat → Nat → Prop) : Action → Action → Prop
  | same {a : Action} : a.isJump = false → Rel P a a
  | jump {τ τ' : Nat} : P τ τ' → Rel P (.jump τ) (.jump τ')
  | branch (onTrue : Bool) {τ τ' : Nat} : P τ τ' → Rel P (.branch onTrue τ) (.branch onTrue τ')

theorem branchAction?_rel (hP : P τ τ') (m : String) :
    Option.Rel (Action.Rel P) (branchAction? τ m) (branchAction? τ' m) := by
  unfold branchAction?
  split
  · exact .some (.jump hP)
  · exact .some (.jump hP)
  · exact .some (.branch true hP)
  · exact .some (.branch true hP)
  · exact .some (.branch false hP)
  · exact .some (.branch false hP)
  · exact .none

/-- The two forms of a jump have one condition. -/
theorem branchAction?_form (hP : P τ τ') {m m' : String} (h : SameUpToForm m m') :
    m' = m ∨ ∃ a a', branchAction? τ m = some a ∧ branchAction? τ' m' = some a' ∧
      Action.Rel P a a' := by
  rcases h with rfl | h | h
  · exact .inl rfl
  all_goals
    simp only [jumpForms, List.mem_cons, Prod.mk.injEq, List.not_mem_nil, or_false] at h
    rcases h with ⟨rfl, rfl⟩ | ⟨rfl, rfl⟩ | ⟨rfl, rfl⟩
    · exact .inr ⟨_, _, rfl, rfl, .jump hP⟩
    · exact .inr ⟨_, _, rfl, rfl, .branch true hP⟩
    · exact .inr ⟨_, _, rfl, rfl, .branch false hP⟩

theorem isJump_of_sequentialForms {m : String} {form : ActionForm}
    (h : sequentialForms.lookup m = some form) : form.isJump = false := by
  have htable : ∀ p ∈ sequentialForms, p.2.isJump = false := by decide
  exact htable _ (mem_sequentialForms h)

theorem isJump_of_callAction? {m : MethodRef} {mnemonic : String} {a : Action}
    (h : callAction? m mnemonic = some a) : a.isJump = false := by
  unfold callAction? at h
  split at h <;> cases h <;> rfl

namespace Instruction.Parallel

variable {i i' : Instruction}

theorem mnemonic_eq (h : i.Parallel P i') (hflow : i.flow.isBranch = false) :
    i'.mnemonic = i.mnemonic := by
  cases h with
  | same _ _ hmnemonic _ => exact hmnemonic
  | target _ _ _ _ hmnemonic =>
      rcases hmnemonic with hmnemonic | ⟨hbranch, -⟩
      · exact hmnemonic
      · rw [hflow] at hbranch
        cases hbranch

/-- What is not asked for a target finds the same in both operands. -/
theorem need_eq (h : i.Parallel P i') (hflow : i.flow.isBranch = false) (role : OperandRole)
    {part : Operand → Option α} (hpart : ∀ τ, part (.target τ) = none) :
    i'.need role part = i.need role part := by
  have hoperand : part i'.operand = part i.operand := by
    cases h with
    | same _ _ _ hoperand => rw [hoperand]
    | target hi hi' _ _ _ => rw [hi, hi', hpart, hpart]
  unfold need
  rw [hoperand, h.mnemonic_eq hflow]

theorem need_alike {A : Action → Action → Prop} (h : i.Parallel P i')
    (hflow : i.flow.isBranch = false) (role : OperandRole) {part : Operand → Option α}
    (hpart : ∀ τ, part (.target τ) = none) {f : α → Action} (hf : ∀ a, A (f a) (f a)) :
    AlikeOrdinary A ((i.need role part).map f) ((i'.need role part).map f) := by
  rw [h.need_eq hflow role hpart]
  refine (Alike.of_only (i.need_onlyOrdinary role part)).map fun a _ ha => ?_
  rw [← ha.1]
  exact hf a

theorem formAction_alike (h : i.Parallel P i') (hflow : i.flow.isBranch = false) {form : ActionForm}
    (hform : form.isJump = false) :
    AlikeOrdinary (Action.Rel P) (i.formAction form) (i'.formAction form) := by
  cases form with
  | plain a => exact .ok (.same hform)
  | _ => exact h.need_alike hflow _ (fun _ => rfl) fun _ => .same rfl

theorem unsupported_eq (h : i.Parallel P i') (hmnemonic : i'.mnemonic = i.mnemonic) :
    i'.unsupported = i.unsupported := by
  rw [unsupported, unsupported, hmnemonic, h.flow_eq]

theorem target_alike (h : i.Parallel P i') :
    AlikeOrdinary P (i.need .branchTarget Operand.target?)
      (i'.need .branchTarget Operand.target?) := by
  unfold need
  cases h with
  | same hnone _ hmnemonic hoperand =>
      rw [hoperand, hnone, hmnemonic]
      exact .error rfl
  | target hi hi' hP _ _ =>
      rw [hi, hi']
      exact .ok hP

/-- Parallel instructions are read as actions that correspond, or are refused alike. -/
theorem action?_alike (h : i.Parallel P i') :
    AlikeOrdinary (Action.Rel P) i.action? i'.action? := by
  unfold action?
  rw [h.flow_eq]
  cases hflow : i.flow with
  | conditionalBranch | unconditionalBranch =>
      -- here alone the mnemonics may differ, and then both are in the table of forms
      refine h.target_alike.bind fun τ τ' hP => ?_
      rcases branchAction?_form hP h.mnemonic with hmnemonic | ⟨a, a', ha, ha', haa'⟩
      · have haction := branchAction?_rel hP i.mnemonic
        rw [hmnemonic, h.unsupported_eq hmnemonic]
        generalize branchAction? τ i.mnemonic = x, branchAction? τ' i.mnemonic = y at haction
        cases haction with
        | none => exact .error rfl
        | some ha => exact .ok ha
      · rw [ha, ha']
        exact .ok haa'
  | sequential =>
      have hmnemonic := h.mnemonic_eq (by rw [hflow]; rfl)
      rw [hmnemonic, h.unsupported_eq hmnemonic]
      dsimp only
      rcases hform : sequentialForms.lookup i.mnemonic with - | form
      · exact .error rfl
      · exact h.formAction_alike (by rw [hflow]; rfl) (isJump_of_sequentialForms hform)
  | call =>
      have hmnemonic := h.mnemonic_eq (by rw [hflow]; rfl)
      rw [hmnemonic, h.unsupported_eq hmnemonic,
        h.need_eq (by rw [hflow]; rfl) .method fun _ => rfl]
      refine (Alike.of_only (i.need_onlyOrdinary _ _)).bind fun m _ hm => ?_
      obtain ⟨rfl, -⟩ := hm
      rcases hcall : callAction? m i.mnemonic with - | a
      · exact .error rfl
      · exact .ok (.same (isJump_of_callAction? hcall))
  | ret =>
      have hmnemonic := h.mnemonic_eq (by rw [hflow]; rfl)
      rw [hmnemonic, h.unsupported_eq hmnemonic]
      dsimp only
      split
      · exact .ok (.same rfl)
      · exact .error rfl
  | _ =>
      rw [h.unsupported_eq (h.mnemonic_eq (by rw [hflow]; rfl))]
      exact .error rfl

end Instruction.Parallel

end CilMachine
