/-
CilMachine/Proofs/Decoding.lean

Which instructions are read.  The opcode table says what the assembler accepts, and decoding has a
table of its own for each family of instructions.  The two agree: what the assembler places is read
(`action?_of_emitted`), and what is read is in the opcode table under the same family
(`listed_of_action?`).  Both are checked for one mnemonic after the other; what is left is that an
operand of an accepted kind has the part that is asked for (`formAction_of_accepts`).

An instruction that is not read is refused before it has any effect.  One that is read is not
refused later on, because actions never refuse; so where its step fails with a refusal, this comes
from a native routine that it calls.
-/
import CilMachine.Proofs.Location
import CilMachine.Proofs.Operations
import CilMachine.Proofs.Placement
import CilMachine.Proofs.Refusals

namespace CilMachine

/-! ### Families -/

/-- The families by which instructions are routed. -/
inductive Family
  | sequential | call | branch | ret
deriving DecidableEq, Inhabited

/-- The family of a flow category, if it is ever executed. -/
def FlowType.family? : FlowType → Option Family
  | sequential => some .sequential
  | call => some .call
  | conditionalBranch | unconditionalBranch => some .branch
  | ret => some .ret
  | throw | debugBreak | metadata | unsupported => none

/-- The mnemonics that are in the table only so that bodies can contain them. -/
def Opcode.inert : List String := ["break", "throw"]

/-- Whether the mnemonic is one that is executed, of the family. -/
def Opcode.listed (family : Family) (mnemonic : String) : Bool :=
  mnemonic ∉ inert && (lookup mnemonic).any (·.flow.family? = some family)

namespace Instruction

/-- The assembler, when it is given the mnemonic and the operand, places the instruction. -/
def Emitted (i : Instruction) : Prop :=
  ∃ (s t : Assembler) (offset size : Nat), Assembler.emit i.mnemonic i.operand s = (.ok (), t) ∧
    t.code = s.code.push { i with offset, size }

/-- The mnemonic is not in the table, or not in the family of the instruction, or it is one of those
that are never executed. -/
inductive Misplaced (i : Instruction) : Prop
  | unlisted : Opcode.lookup i.mnemonic = none → Misplaced i
  | elsewhere {opcode : Opcode} : Opcode.lookup i.mnemonic = some opcode →
      opcode.flow.family? ≠ i.flow.family? → Misplaced i
  | inert : i.mnemonic ∈ Opcode.inert → Misplaced i

/-- The instructions that are placed are those of the table, with an operand of the kind. -/
theorem emitted_iff {i : Instruction} :
    i.Emitted ↔ ∃ opcode, Opcode.lookup i.mnemonic = some opcode ∧ opcode.flow = i.flow ∧
      opcode.operand.accepts i.operand = true := by
  constructor
  · rintro ⟨s, t, offset, size, hemit, hcode⟩
    obtain ⟨opcode, hlookup, rfl⟩ := Assembler.emit_eq_ok hemit
    have hflow := congrArg flow (Array.push_inj_right.1 hcode)
    refine ⟨opcode, hlookup, hflow, ?_⟩
    cases haccepts : opcode.operand.accepts i.operand
    · unfold Assembler.emit at hemit
      simp only [hlookup, haccepts] at hemit
      cases hemit
    · rfl
  · rintro ⟨opcode, hlookup, hflow, haccepts⟩
    refine ⟨{}, _, 0, opcode.size, Assembler.emit_of_accepts hlookup haccepts {}, ?_⟩
    rw [← hflow, ← Assembler.mnemonic_of_lookup hlookup]
    rfl

end Instruction

/-! ### Operands -/

/-- The kinds of operands of which each has the part that the form asks for. -/
def ActionForm.kinds : ActionForm → List OperandKind
  | .plain _ => OperandKind.all
  | .constant => [.int8, .int32]
  | .string => [.string]
  | .loadArgument | .loadLocal | .storeLocal => [.uint8, .uint16]
  | .typeTest | .newArray => [.type]
  | .loadField | .storeField => [.field]

namespace Operand

variable {o : Operand} {kind : OperandKind}

theorem isSome_int32? (hkind : kind ∈ [OperandKind.int8, .int32]) (h : kind.accepts o = true) :
    o.int32?.isSome := by
  simp only [List.mem_cons, List.not_mem_nil, or_false] at hkind
  rcases hkind with rfl | rfl <;> cases o with
  | immediate c => cases c <;> first | rfl | cases h
  | _ => cases h

theorem isSome_index? (hkind : kind ∈ [OperandKind.uint8, .uint16]) (h : kind.accepts o = true) :
    o.index?.isSome := by
  simp only [List.mem_cons, List.not_mem_nil, or_false] at hkind
  rcases hkind with rfl | rfl <;> cases o with
  | localSlot | argument => rfl
  | immediate c => cases c <;> first | rfl | cases h
  | _ => cases h

theorem isSome_method? (h : OperandKind.accepts .method o = true) : o.method?.isSome := by
  cases o <;> first | rfl | cases h

theorem isSome_target? (h : OperandKind.accepts .target o = true) : o.target?.isSome := by
  cases o <;> first | rfl | cases h

end Operand

namespace Instruction

variable {i : Instruction} {a : Action} {kind : OperandKind} {form : ActionForm}

theorem need_of_isSome {α : Type} {part : Operand → Option α} (h : (part i.operand).isSome)
    (role : OperandRole) : ∃ x, i.need role part = .ok x := by
  obtain ⟨x, hx⟩ := Option.isSome_iff_exists.1 h
  exact ⟨x, by rw [need, hx]⟩

theorem map_need_of_isSome {α : Type} {part : Operand → Option α} (h : (part i.operand).isSome)
    (role : OperandRole) (f : α → Action) : ∃ a, (i.need role part).map f = .ok a := by
  obtain ⟨x, hx⟩ := need_of_isSome h role
  rw [hx]
  exact ⟨f x, rfl⟩

/-- An accepted operand has what the form asks for. -/
theorem formAction_of_accepts (hkind : kind ∈ form.kinds) (h : kind.accepts i.operand = true) :
    ∃ a, i.formAction form = .ok a := by
  cases form with
  | plain a => exact ⟨a, rfl⟩
  | constant => exact map_need_of_isSome (Operand.isSome_int32? hkind h) _ _
  | loadArgument | loadLocal | storeLocal =>
      exact map_need_of_isSome (Operand.isSome_index? hkind h) _ _
  | _ =>
      obtain rfl := List.mem_singleton.1 hkind
      refine map_need_of_isSome ?_ _ _
      cases hoperand : i.operand <;> rw [hoperand] at h <;> first | rfl | cases h

/-! ### The two tables -/

/-- What is placed is read. -/
theorem action?_of_emitted (hi : i.Emitted) (hinert : i.mnemonic ∉ Opcode.inert) :
    ∃ a, i.action? = .ok a := by
  obtain ⟨opcode, hlookup, hflow, haccepts⟩ := emitted_iff.1 hi
  have hmem : opcode ∈ Opcode.table := List.mem_of_find?_eq_some hlookup
  have hname := Assembler.mnemonic_of_lookup hlookup
  rw [action?, ← hflow]
  cases h : opcode.flow with
  | sequential =>
      have htable : ∀ o ∈ Opcode.table, o.flow = .sequential →
          (sequentialForms.lookup o.mnemonic).any (o.operand ∈ ·.kinds) = true := by decide
      have hform := htable opcode hmem h
      rw [hname] at hform
      obtain ⟨form, hlookup', hkind⟩ := (Option.any_eq_true _ _).1 hform
      dsimp only
      rw [hlookup']
      exact formAction_of_accepts (of_decide_eq_true hkind) haccepts
  | call =>
      have htable : ∀ o ∈ Opcode.table, o.flow = .call →
          o.operand = .method ∧ o.mnemonic ∈ ["call", "callvirt", "newobj"] := by decide
      obtain ⟨hkind, hcall⟩ := htable opcode hmem h
      rw [hkind] at haccepts
      obtain ⟨m, hm⟩ := need_of_isSome (Operand.isSome_method? haccepts) .method
      dsimp only
      rw [hm, ← hname]
      simp only [List.mem_cons, List.not_mem_nil, or_false] at hcall
      rcases hcall with hcall | hcall | hcall <;> rw [hcall] <;> exact ⟨_, rfl⟩
  | conditionalBranch | unconditionalBranch =>
      have htable : ∀ o ∈ Opcode.table, o.flow.isBranch → o.operand = .target ∧
          o.mnemonic ∈ ["br", "br.s", "brtrue", "brtrue.s", "brfalse", "brfalse.s"] := by decide
      obtain ⟨hkind, hbranch⟩ := htable opcode hmem (by rw [h]; rfl)
      rw [hkind] at haccepts
      obtain ⟨target, htarget⟩ := need_of_isSome (Operand.isSome_target? haccepts) .branchTarget
      dsimp only
      rw [htarget, ← hname]
      simp only [List.mem_cons, List.not_mem_nil, or_false] at hbranch
      rcases hbranch with hbranch | hbranch | hbranch | hbranch | hbranch | hbranch <;>
        rw [hbranch] <;> exact ⟨_, rfl⟩
  | ret =>
      have htable : ∀ o ∈ Opcode.table, o.flow = .ret → o.mnemonic = "ret" := by decide
      exact ⟨.leave, if_pos (hname.symm.trans (htable opcode hmem h))⟩
  | throw | debugBreak | metadata | unsupported =>
      have htable : ∀ o ∈ Opcode.table, o.flow.family? = none → o.mnemonic ∈ Opcode.inert := by
        decide
      exact absurd (hname ▸ htable opcode hmem (by rw [h]; rfl)) hinert

theorem listed_of_branchAction? {target : Nat} {m : String} (h : branchAction? target m = some a) :
    Opcode.listed .branch m = true := by
  unfold branchAction? at h
  split at h <;> first | rfl | cases h

theorem listed_of_callAction? {r : MethodRef} {m : String} (h : callAction? r m = some a) :
    Opcode.listed .call m = true := by
  unfold callAction? at h
  split at h <;> first | rfl | cases h

/-- What is read is in the opcode table, in the family of the instruction. -/
theorem listed_of_action? (h : i.action? = .ok a) :
    ∃ family, i.flow.family? = some family ∧ Opcode.listed family i.mnemonic = true := by
  cases reads_of_action? h with
  | sequential hflow hlookup =>
      have htable : ∀ p ∈ sequentialForms, Opcode.listed .sequential p.1 = true := by decide
      exact ⟨.sequential, by rw [hflow]; rfl, htable _ (mem_sequentialForms hlookup)⟩
  | branch hflow hbranch =>
      have hfamily : i.flow.family? = some .branch := by
        cases hcategory : i.flow <;> rw [hcategory] at hflow <;> first | rfl | cases hflow
      exact ⟨.branch, hfamily, listed_of_branchAction? hbranch⟩
  | call hflow hcall => exact ⟨.call, by rw [hflow]; rfl, listed_of_callAction? hcall⟩
  | leave hflow =>
      refine ⟨.ret, by rw [hflow]; rfl, ?_⟩
      rw [action?, hflow] at h
      dsimp only at h
      split at h
      · rename_i hret
        rw [hret]
        rfl
      · cases h

theorem Misplaced.not_listed (hi : i.Misplaced) {family : Family}
    (hfamily : i.flow.family? = some family) : Opcode.listed family i.mnemonic = false := by
  rw [Opcode.listed]
  cases hi with
  | unlisted hlookup =>
      rw [hlookup]
      exact Bool.and_false _
  | elsewhere hlookup hne =>
      rw [hfamily] at hne
      rw [hlookup, Option.any_some, decide_eq_false hne]
      exact Bool.and_false _
  | inert hinert => rw [decide_eq_false (not_not.2 hinert), Bool.false_and]

/-- What is misplaced is not read. -/
theorem action?_of_misplaced (hi : i.Misplaced) : ∃ e, i.Refuses e ∧ i.action? = .error e := by
  rcases ha : i.action? with e | a
  · exact ⟨e, i.action?_refuses e ha, rfl⟩
  · obtain ⟨family, hfamily, hlisted⟩ := listed_of_action? ha
    rw [hi.not_listed hfamily] at hlisted
    cases hlisted

end Instruction

/-! ### The step -/

namespace Machine

variable {ctx : Context} {fuel : Nat} {m : Method} {args : List Value} {i : Instruction}
  {s t u : Machine} {e : ExecError}

/-- An instruction that is not read has no effect. -/
theorem step_of_refused (ctx : Context) (h : i.action? = .error e) (fuel : Nat) (s : Machine) :
    step ctx fuel i s = some (.error (.execution e), s) := by
  have hperform : performInstruction ctx i s = (.error (.execution e), s) := by
    rw [performInstruction, op_bind_apply, lift_apply, h]
    rfl
  rw [step, stepWith_apply, hperform]

/-- Where an invocation fails with a refusal that has no location, a native routine does. -/
theorem native_of_refusal (h : invoke ctx fuel m args s = some (.error (.execution e), u))
    (he : e.isRefusal = true) :
    ∃ routine, m.body = .native routine ∧
      ((routine.run ctx.catalog.headers args).run.run s.heap).1 = .error (.execution e) := by
  have hunlocated : e.isLocated = false := by
    cases e <;> first | rfl | cases he
  cases failsOutright_of_unlocated h hunlocated with
  | refused hpush =>
      obtain ⟨-, rfl⟩ := CallStack.push_eq_error hpush
      cases he
  | @native calls routine _ hpush hbody hrun =>
      refine ⟨routine, hbody, ?_⟩
      obtain ⟨-, caller, rfl⟩ := CallStack.push_eq_ok hpush
      rw [runNative_apply (s := entered ctx m _ s) rfl ctx routine] at hrun
      change ((routine.run ctx.catalog.headers args).run.run s.heap).1.map _ = _ at hrun
      rcases hr : ((routine.run ctx.catalog.headers args).run.run s.heap).1 with f | v <;>
        rw [hr] at hrun <;> cases hrun
      rfl
  | abstract => cases he
  | inconsistent => cases he

/-- Where the step of an instruction that is read fails with a refusal, it makes a call, and a
native routine fails with this refusal. -/
theorem native_of_step {a : Action} (ha : i.action? = .ok a)
    (h : step ctx fuel i s = some (.error (.execution e), u)) (he : e.isRefusal = true) :
    ∃ c t routine, performInstruction ctx i s = (.ok (.call c), t) ∧
      c.method.body = .native routine ∧
      ((routine.run ctx.catalog.headers c.arguments).run.run t.heap).1 = .error (.execution e) := by
  rw [step, stepWith_apply] at h
  rcases hp : performInstruction ctx i s with ⟨f | o | c, t⟩ <;> rw [hp] at h
  · cases h
    have hperform := neverRefuses_perform ctx a s
    rw [← performInstruction_of_action ha, hp] at hperform
    exact absurd he (hperform _ rfl)
  · cases h
  · dsimp only at h
    rw [settle_call_apply] at h
    rcases hrun : invoke ctx fuel c.method c.arguments t with - | ⟨f | v, t'⟩ <;> rw [hrun] at h
    · cases h
    · cases h
      obtain ⟨routine, hbody, hroutine⟩ := native_of_refusal hrun he
      exact ⟨c, t, routine, rfl, hbody, hroutine⟩
    · dsimp only at h
      rcases hcreated : c.created with - | r <;> rw [hcreated] at h
      · cases h
      · -- the new object is pushed, which fails at most for want of a frame
        have hpush := neverRefuses_push (.object r) t'
        dsimp only at h
        rcases hv : push (.object r) t' with ⟨f | ⟨⟩, v'⟩ <;> rw [hv] at h hpush <;> cases h
        exact absurd he (hpush _ rfl)

/-- **The opcode table and the machine agree on the instructions.**  Let the assembler place an
instruction, which is none of the two that are never executed.  In no machine does its step fail
with a refusal of its own: a refusal can only come from a native routine that the instruction calls.
Let, on the other hand, an instruction have a mnemonic that is not in the table or not in its
family, or one of the two that are never executed.  Then its step is refused in every machine, and
the machine stays as it is. -/
theorem step_decodes (ctx : Context) (i : Instruction) :
    (i.Emitted → i.mnemonic ∉ Opcode.inert → ∀ fuel s e u,
      step ctx fuel i s = some (.error (.execution e), u) → e.isRefusal = true →
        ∃ c t routine, performInstruction ctx i s = (.ok (.call c), t) ∧
          c.method.body = .native routine ∧
          ((routine.run ctx.catalog.headers c.arguments).run.run t.heap).1 =
            .error (.execution e)) ∧
    (i.Misplaced → ∃ e, i.Refuses e ∧ ∀ fuel s,
      step ctx fuel i s = some (.error (.execution e), s)) := by
  constructor
  · intro hi hinert fuel s e u h he
    obtain ⟨a, ha⟩ := Instruction.action?_of_emitted hi hinert
    exact native_of_step ha h he
  · intro hi
    obtain ⟨e, hrefuses, he⟩ := Instruction.action?_of_misplaced hi
    exact ⟨e, hrefuses, step_of_refused ctx he⟩

end Machine

namespace Sample

/-- A method whose routine fails as if a call had been refused. -/
def deny : Method where
  declaring := type
  name := "Deny"
  modifiers := { isStatic := true }
  params := []
  returns := none
  locals := []
  body := .native ⟨"Deny", fun _ _ => throw (.execution (.unsupportedInstruction "call" .call))⟩

def denying : Context :=
  { catalog := { types := [{ ref := type, flavor := .classType, base := none, fields := []
                             methods := [deny] }] } }

def callDeny : Instruction := ⟨0, 5, "call", .call, .method deny.ref⟩

/-- An addition that has got among the calls. -/
def strayAddition : Instruction := ⟨0, 1, "add", .call, .none⟩

end Sample

namespace Machine

/-- The call is made, and it is the routine that fails; the addition is not even begun. -/
theorem step_decodes_denied :
    (∃ c t routine,
      performInstruction Sample.denying Sample.callDeny Sample.machine = (.ok (.call c), t) ∧
      c.method.body = .native routine ∧
      ((routine.run Sample.denying.catalog.headers c.arguments).run.run t.heap).1 =
        .error (.execution (.unsupportedInstruction "call" .call))) ∧
    ∃ e, Sample.strayAddition.Refuses e ∧ ∀ fuel,
      step Sample.denying fuel Sample.strayAddition Sample.machine =
        some (.error (.execution e), Sample.machine) := by
  have hemitted : Sample.callDeny.Emitted := Instruction.emitted_iff.2 ⟨_, rfl, rfl, rfl⟩
  have hmisplaced : Sample.strayAddition.Misplaced := .elsewhere rfl (by decide)
  have hfails : (step Sample.denying 1 Sample.callDeny Sample.machine).map Prod.fst =
      some (.error (.execution (.unsupportedInstruction "call" .call))) := by decide +kernel
  obtain ⟨⟨_, u⟩, hu, rfl⟩ := Option.map_eq_some_iff.1 hfails
  obtain ⟨hplaced, -⟩ := step_decodes Sample.denying Sample.callDeny
  obtain ⟨-, hstray⟩ := step_decodes Sample.denying Sample.strayAddition
  obtain ⟨e, hrefuses, hstep⟩ := hstray hmisplaced
  exact ⟨hplaced hemitted (by decide) 1 Sample.machine _ u hu rfl, e, hrefuses,
    fun fuel => hstep fuel Sample.machine⟩

end Machine

end CilMachine
