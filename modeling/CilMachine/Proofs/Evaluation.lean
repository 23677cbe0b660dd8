/-
CilMachine/Proofs/Evaluation.lean

Instructions that apply an operator to the operand stack.  Such an instruction takes its operands
off and pushes what the operator makes of them, or fails where there is no result; nothing else of
the machine plays a part (`Instruction.Computes`).  Hence its operands determine what it computes
(`Computes.unique`), and laws of operators can be said of the instructions.

The two shapes of operators are evaluated once (`unary_apply`, `binary_apply`), and an instruction
of either shape computes the result of its operator (`computes_of_perform`).
-/
import CilMachine.Proofs.Operations

namespace CilMachine

namespace Machine

variable {s : Machine} {f : Frame} {F : List Frame} {S : OperandStack} {l r v : Value}

/-- What is left of the machine when an operator has been applied, with the operands `S` below those
of the operator: the result is pushed, or there is an error. -/
def evaluated (s : Machine) (S : OperandStack) :
    Except ExecError Value → Except Failure Effect × Machine
  | .ok v => (.ok (.outcome .next), s.withStack (v :: S))
  | .error e => (.error (.execution e), s.withStack S)

theorem unary_apply (g : Value → Except ExecError Value) (hs : s.calls.frames = f :: F)
    (hf : f.stack = v :: S) :
    (do let v ← pop
        push (← g v)
        proceed : Op Effect) s = s.evaluated S (g v) := by
  have hself := withStack_self hs hf
  conv_lhs => rw [← hself]
  rw [op_bind_apply, pop_withStack hs]
  dsimp only
  rw [op_bind_apply, lift_apply]
  rcases g v with e | w
  · rfl
  · dsimp only [Except.mapError]
    rw [op_bind_apply, push_withStack hs]
    rfl

/-- The operand that was pushed last is the right one. -/
theorem binary_apply (g : Value → Value → Except ExecError Value) (hs : s.calls.frames = f :: F)
    (hf : f.stack = r :: l :: S) :
    (do let right ← pop
        let left ← pop
        push (← g left right)
        proceed : Op Effect) s = s.evaluated S (g l r) := by
  have hself := withStack_self hs hf
  conv_lhs => rw [← hself]
  rw [op_bind_apply, pop_withStack hs]
  have hbelow : (s.withStack (l :: S)).calls.frames = { f with stack := l :: S } :: F := by
    rw [withStack_eq hs]
  refine (unary_apply (g · r) hbelow rfl).trans ?_
  rcases g l r with e | v <;> simp only [evaluated, withStack_withStack]

end Machine

/-! ### Instructions -/

namespace Instruction

variable {i : Instruction} {a : Action} {operands : List Value} {l r v : Value}
  {result result' : Except ExecError Value}

/-- In every machine that has the operands on its operand stack, the last one on top, the
instruction puts the result in their place; where the result is an error it fails with this error,
and the operands are gone. -/
def Computes (i : Instruction) (operands : List Value) (result : Except ExecError Value) : Prop :=
  ∀ (ctx : Context) (fuel : Nat) (s : Machine) (f : Frame) (F : List Frame) (S : OperandStack),
    s.calls.frames = f :: F → f.stack = operands.reverse ++ S →
    Machine.step ctx fuel i s = some (match result with
      | .ok v => (.ok .next, s.withStack (v :: S))
      | .error e => (.error (.execution e), s.withStack S))

theorem computes_of_perform (ha : i.action? = .ok a)
    (h : ∀ ctx s f F S, s.calls.frames = f :: F → f.stack = operands.reverse ++ S →
      Machine.perform ctx a s = s.evaluated S result) : i.Computes operands result := by
  intro ctx fuel s f F S hs hf
  have hperform := h ctx s f F S hs hf
  rcases result with e | v
  · exact Machine.step_of_error ha hperform fuel
  · exact Machine.step_of_outcome ha hperform fuel

/-- A machine with nothing but the given operand stack shows what is computed. -/
theorem Computes.unique (h : i.Computes operands result) (h' : i.Computes operands result') :
    result = result' := by
  let s : Machine := { calls := { frames := [{ stack := operands.reverse }], limit := 0 } }
  have hstep := h { catalog := {} } 0 s _ _ [] rfl (List.append_nil _).symm
  rw [h' { catalog := {} } 0 s _ _ [] rfl (List.append_nil _).symm] at hstep
  rcases result with e | v <;> rcases result' with e' | v' <;> cases hstep <;> rfl

/-- What is computed is settled by one result that is known. -/
theorem Computes.iff_eq (h : i.Computes operands result) :
    i.Computes operands result' ↔ result' = result :=
  ⟨fun h' => h'.unique h, fun heq => heq ▸ h⟩

end Instruction

end CilMachine
