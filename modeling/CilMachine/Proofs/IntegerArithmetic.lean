/-
CilMachine/Proofs/IntegerArithmetic.lean

Integer arithmetic, as exact arithmetic sees it.  An integer on an operand stack is a number in the
range of its width (`Value.IsInteger`).  Two of them are brought to the wider of their widths with
the numbers kept (`widen?_of_isInteger`), and an operator of that width yields the number in range
that is congruent to what the operator yields on the integers without bound (`apply_of_carries`).
One quotient is out of range, that of the least number and minus one (`tdiv_inRange_iff`).

The step of an arithmetic instruction is read off that, whatever lies on top of the stack.
-/
import CilMachine.Proofs.Construction
import CilMachine.Proofs.Evaluation
import Mathlib.Data.Int.ModEq

namespace CilMachine

/-! ### Widths -/

/-- The widths of integers. -/
inductive IntegerWidth
  | w32 | w64
deriving DecidableEq, Inhabited

namespace IntegerWidth

/-- The number of bits. -/
def bits : IntegerWidth → Nat
  | w32 => 32
  | w64 => 64

/-- The wider one of two widths. -/
def wider : IntegerWidth → IntegerWidth → IntegerWidth
  | w32, w32 => w32
  | _, _ => w64

/-- The least number of the width. -/
def least (w : IntegerWidth) : Int := -2 ^ (w.bits - 1)

/-- The numbers of the width. -/
def InRange (w : IntegerWidth) (n : Int) : Prop := w.least ≤ n ∧ n < -w.least

variable {w : IntegerWidth} {a b n : Int}

/-- The number in range that is congruent to another one is what that one wraps to. -/
theorem bmod_eq_self_iff (w : IntegerWidth) (n : Int) : n.bmod (2 ^ w.bits) = n ↔ w.InRange n := by
  constructor
  · intro h
    have hge := Int.le_bmod (x := n) (Nat.two_pow_pos w.bits)
    have hlt := Int.bmod_lt (x := n) (Nat.two_pow_pos w.bits)
    rw [h] at hge hlt
    cases w <;> simp only [InRange, least, bits] at hge hlt ⊢ <;> omega
  · rintro ⟨hge, hlt⟩
    refine Int.bmod_eq_of_le_mul_two ?_ ?_ <;>
      cases w <;> simp only [least, bits] at hge hlt ⊢ <;> omega

theorem bmod_modEq (w : IntegerWidth) (n : Int) : n.bmod (2 ^ w.bits) ≡ n [ZMOD 2 ^ w.bits] :=
  Int.bmod_emod (m := 2 ^ w.bits)

theorem wider_comm (w w' : IntegerWidth) : w.wider w' = w'.wider w := by
  cases w <;> cases w' <;> rfl

theorem least_wider_le (w w' : IntegerWidth) : (w.wider w').least ≤ w.least := by
  cases w <;> cases w' <;> decide

/-- What is in range of a width is in range of a wider one. -/
theorem InRange.wider (h : w.InRange n) (w' : IntegerWidth) : (w.wider w').InRange n := by
  have hle := w.least_wider_le w'
  obtain ⟨hge, hlt⟩ := h
  exact ⟨by omega, by omega⟩

/-- A quotient is in range unless the least number is divided by minus one: no other divisor leaves
more than half of what is divided. -/
theorem tdiv_inRange_iff (ha : w.InRange a) (hb : b ≠ 0) :
    w.InRange (a.tdiv b) ↔ ¬ (a = w.least ∧ b = -1) := by
  have habs := Int.natAbs_tdiv a b
  obtain ⟨hge, hlt⟩ := ha
  constructor
  · rintro ⟨-, hquotient⟩ ⟨rfl, rfl⟩
    rw [Int.tdiv_neg, Int.tdiv_one] at hquotient
    exact lt_irrefl _ hquotient
  · intro hleast
    by_cases hone : b.natAbs = 1
    · obtain rfl | rfl := Int.natAbs_eq_iff.1 hone
      · rw [Nat.cast_one, Int.tdiv_one]
        exact ⟨hge, hlt⟩
      · rw [Nat.cast_one, Int.tdiv_neg, Int.tdiv_one]
        have hne : a ≠ w.least := fun h => hleast ⟨h, rfl⟩
        exact ⟨by omega, by omega⟩
    · have hhalf : a.natAbs / b.natAbs ≤ a.natAbs / 2 := Nat.div_le_div_left (by omega) (by decide)
      change _ = a.natAbs / b.natAbs at habs
      have hneg : w.least < 0 := by cases w <;> decide
      exact ⟨by omega, by omega⟩

end IntegerWidth

/-! ### Values -/

namespace Value

/-- The value is an integer of a width. -/
inductive IsInteger : IntegerWidth → Int → Value → Prop
  | int32 (n : Int32) : IsInteger .w32 n.toInt (.int32 n)
  | int64 (n : Int64) : IsInteger .w64 n.toInt (.int64 n)

/-- The value is a floating-point number of some width. -/
inductive IsFloat : Value → Prop
  | float32 (bits : UInt32) : IsFloat (.float32 bits)
  | float64 (bits : UInt64) : IsFloat (.float64 bits)

/-- The pair holds two integers at a width. -/
inductive Pair.Carries : Pair → IntegerWidth → Int → Int → Prop
  | int32 (m n : Int32) : Carries (.int32 m n) .w32 m.toInt n.toInt
  | int64 (m n : Int64) : Carries (.int64 m n) .w64 m.toInt n.toInt

variable {w w' : IntegerWidth} {a b : Int} {l r : Value} {pair : Pair} {op : Arithmetic}

theorem IsInteger.inRange (hl : l.IsInteger w a) : w.InRange a := by
  cases hl with
  | int32 n => exact ⟨n.le_toInt, n.toInt_lt⟩
  | int64 n => exact ⟨n.le_toInt, n.toInt_lt⟩

theorem IsInteger.unique (h : l.IsInteger w a) (h' : l.IsInteger w b) : a = b := by
  cases h <;> cases h' <;> rfl

/-- The width and the number make the value. -/
theorem IsInteger.ext (hl : l.IsInteger w a) (hr : r.IsInteger w a) : l = r := by
  cases hl with
  | int32 m =>
      generalize hm : m.toInt = a at hr
      obtain ⟨n⟩ := hr
      rw [Int32.toInt_inj.1 hm]
  | int64 m =>
      generalize hm : m.toInt = a at hr
      obtain ⟨n⟩ := hr
      rw [Int64.toInt_inj.1 hm]

/-- The numbers stay the same when they are brought to one width. -/
theorem widen?_of_isInteger (hl : l.IsInteger w a) (hr : r.IsInteger w' b) :
    ∃ pair, widen? l r = some pair ∧ pair.Carries (w.wider w') a b := by
  cases hl with
  | int32 m => cases hr with
    | int32 n => exact ⟨_, rfl, .int32 m n⟩
    | int64 n => exact ⟨_, rfl, m.toInt_toInt64 ▸ .int64 m.toInt64 n⟩
  | int64 m => cases hr with
    | int32 n => exact ⟨_, rfl, n.toInt_toInt64 ▸ .int64 m n.toInt64⟩
    | int64 n => exact ⟨_, rfl, .int64 m n⟩

/-- Two values have no common width unless both are integers, or both floating-point numbers. -/
theorem widen?_eq_none_iff :
    widen? l r = none ↔
      ¬ ((∃ w a, l.IsInteger w a) ∧ ∃ w b, r.IsInteger w b) ∧ ¬ (l.IsFloat ∧ r.IsFloat) := by
  constructor
  · intro hnone
    refine ⟨?_, ?_⟩
    · rintro ⟨⟨w, a, hl⟩, w', b, hr⟩
      obtain ⟨pair, hpair, -⟩ := widen?_of_isInteger hl hr
      rw [hnone] at hpair
      cases hpair
    · rintro ⟨⟨⟩, ⟨⟩⟩ <;> cases hnone
  · rintro ⟨hintegers, hfloats⟩
    cases l with
    | int32 m => cases r with
      | int32 n => exact absurd ⟨⟨_, _, .int32 m⟩, _, _, .int32 n⟩ hintegers
      | int64 n => exact absurd ⟨⟨_, _, .int32 m⟩, _, _, .int64 n⟩ hintegers
      | _ => rfl
    | int64 m => cases r with
      | int32 n => exact absurd ⟨⟨_, _, .int64 m⟩, _, _, .int32 n⟩ hintegers
      | int64 n => exact absurd ⟨⟨_, _, .int64 m⟩, _, _, .int64 n⟩ hintegers
      | _ => rfl
    | float32 m => cases r with
      | float32 n => exact absurd ⟨.float32 m, .float32 n⟩ hfloats
      | float64 n => exact absurd ⟨.float32 m, .float64 n⟩ hfloats
      | _ => rfl
    | float64 m => cases r with
      | float32 n => exact absurd ⟨.float64 m, .float32 n⟩ hfloats
      | float64 n => exact absurd ⟨.float64 m, .float64 n⟩ hfloats
      | _ => rfl
    | _ => rfl

end Value

/-! ### Operators -/

namespace Arithmetic

variable {w w' : IntegerWidth} {a b : Int} {l r : Value} {pair : Value.Pair} {op : Arithmetic}

/-- What the operator yields on integers without bound; a quotient is rounded toward zero. -/
def onIntegers : Arithmetic → Int → Int → Int
  | add, a, b => a + b
  | sub, a, b => a - b
  | div, a, b => a.tdiv b

/-- The operator has no result: it is division, and the divisor is zero. -/
def Undefined (op : Arithmetic) (b : Int) : Prop := op = div ∧ b = 0

theorem apply_of_undefined (hpair : pair.Carries w a b) (hop : op.Undefined b) :
    op.apply pair = .error .divideByZero := by
  obtain ⟨rfl, hb⟩ := hop
  cases hpair with
  | int32 m n => exact if_pos (Int32.toInt_inj.1 hb)
  | int64 m n => exact if_pos (Int64.toInt_inj.1 hb)

/-- The result is the exact one, wrapped to the width. -/
theorem apply_of_carries (hpair : pair.Carries w a b) (hop : ¬ op.Undefined b) :
    ∃ v, op.apply pair = .ok v ∧ v.IsInteger w ((op.onIntegers a b).bmod (2 ^ w.bits)) := by
  cases hpair with
  | int32 m n => cases op with
    | add => exact ⟨_, rfl, m.toInt_add n ▸ .int32 _⟩
    | sub => exact ⟨_, rfl, m.toInt_sub n ▸ .int32 _⟩
    | div =>
        have hn : n ≠ 0 := fun h => hop ⟨rfl, h ▸ rfl⟩
        exact ⟨_, if_neg hn, m.toInt_div n ▸ .int32 _⟩
  | int64 m n => cases op with
    | add => exact ⟨_, rfl, m.toInt_add n ▸ .int64 _⟩
    | sub => exact ⟨_, rfl, m.toInt_sub n ▸ .int64 _⟩
    | div =>
        have hn : n ≠ 0 := fun h => hop ⟨rfl, h ▸ rfl⟩
        exact ⟨_, if_neg hn, m.toInt_div n ▸ .int64 _⟩

/-- Numbers of one width are not rejected. -/
theorem apply_eq_error {e : ExecError} (h : op.apply pair = .error e) : e = .divideByZero := by
  unfold apply at h
  split at h
  case h_9 | h_10 =>
    split at h <;> cases h
    rfl
  all_goals cases h

end Arithmetic

namespace Value

variable {w w' : IntegerWidth} {a b : Int} {l r : Value} {op : Arithmetic}

theorem arithmetic_of_undefined (hl : l.IsInteger w a) (hr : r.IsInteger w' b)
    (hop : op.Undefined b) : l.arithmetic op r = .error .divideByZero := by
  obtain ⟨pair, hpair, hcarries⟩ := widen?_of_isInteger hl hr
  rw [arithmetic, hpair]
  exact Arithmetic.apply_of_undefined hcarries hop

theorem arithmetic_of_isInteger (hl : l.IsInteger w a) (hr : r.IsInteger w' b)
    (hop : ¬ op.Undefined b) :
    ∃ v, l.arithmetic op r = .ok v ∧
      v.IsInteger (w.wider w') ((op.onIntegers a b).bmod (2 ^ (w.wider w').bits)) := by
  obtain ⟨pair, hpair, hcarries⟩ := widen?_of_isInteger hl hr
  rw [arithmetic, hpair]
  exact Arithmetic.apply_of_carries hcarries hop

/-- Operands are rejected if they have no common width, and only then. -/
theorem arithmetic_eq_invalidOperationTypes_iff (op : Arithmetic) :
    (∃ o kinds, l.arithmetic op r = .error (.invalidOperationTypes o kinds)) ↔
      widen? l r = none := by
  rw [arithmetic]
  rcases hpair : widen? l r with - | pair
  · exact ⟨fun _ => rfl, fun _ => ⟨_, _, rfl⟩⟩
  · constructor
    · rintro ⟨o, kinds, herror⟩
      cases Arithmetic.apply_eq_error herror
    · intro hnone
      cases hnone

/-- The wrapped quotient is the exact one but for the one that is out of range. -/
theorem IsInteger.bmod_tdiv_ne_iff (hl : l.IsInteger w a) (hb : b ≠ 0) :
    (a.tdiv b).bmod (2 ^ (w.wider w').bits) ≠ a.tdiv b ↔ a = (w.wider w').least ∧ b = -1 := by
  rw [Ne, IntegerWidth.bmod_eq_self_iff, IntegerWidth.tdiv_inRange_iff (hl.inRange.wider w') hb,
    not_not]

end Value

/-! ### The step -/

/-- The instruction applies an arithmetic operator. -/
def Instruction.Applies (op : Arithmetic) (i : Instruction) : Prop :=
  i.flow = .sequential ∧ i.mnemonic = op.mnemonic

theorem Instruction.Applies.action? {i : Instruction} {op : Arithmetic} (hi : i.Applies op) :
    i.action? = .ok (.arithmetic op) := by
  obtain ⟨hflow, hmnemonic⟩ := hi
  cases op <;> simp only [Instruction.action?, hflow, hmnemonic] <;> rfl

theorem Instruction.Applies.computes {i : Instruction} {op : Arithmetic} (hi : i.Applies op)
    (l r : Value) : i.Computes [l, r] (l.arithmetic op r) :=
  computes_of_perform hi.action? fun _ _ _ _ _ => Machine.binary_apply fun l r => l.arithmetic op r

namespace Machine

variable {i : Instruction} {s : Machine} {f : Frame} {F : List Frame} {S : OperandStack}
  {l r : Value} {op : Arithmetic}

theorem step_arithmetic (ctx : Context) (hi : i.Applies op) (hs : s.calls.frames = f :: F)
    (hf : f.stack = r :: l :: S) (fuel : Nat) :
    step ctx fuel i s = some (match l.arithmetic op r with
      | .ok v => (.ok .next, s.withStack (v :: S))
      | .error e => (.error (.execution e), s.withStack S)) :=
  hi.computes l r ctx fuel s f F S hs hf

/-- **Integer arithmetic is exact up to the width.**  Let an instruction apply an operator to the
two values on top of the stack, of which the left one was pushed first.  If both are integers, it
fails with a division by zero exactly if it divides by zero, and otherwise puts in their place the
integer of the wider of their widths that is congruent to the exact result; a quotient differs from
the exact one only where the least number of that width is divided by minus one.  The operands are
rejected exactly if they are neither both integers nor both floating-point numbers. -/
theorem arithmetic_exact (ctx : Context) (hi : i.Applies op) (hs : s.calls.frames = f :: F)
    (hf : f.stack = r :: l :: S) :
    ∃ result u, (∀ fuel, step ctx fuel i s = some (result, u)) ∧
      (∀ w w' a b, l.IsInteger w a → r.IsInteger w' b →
        (result = .error (.execution .divideByZero) ↔ op = .div ∧ b = 0) ∧
        (¬ (op = .div ∧ b = 0) → result = .ok .next ∧ ∃ v n,
          u = s.withStack (v :: S) ∧ v.IsInteger (w.wider w') n ∧
            n ≡ op.onIntegers a b [ZMOD 2 ^ (w.wider w').bits] ∧
            (op = .div → (n ≠ a.tdiv b ↔ a = (w.wider w').least ∧ b = -1)))) ∧
      ((∃ o kinds, result = .error (.execution (.invalidOperationTypes o kinds))) ↔
        ¬ ((∃ w a, l.IsInteger w a) ∧ ∃ w b, r.IsInteger w b) ∧ ¬ (l.IsFloat ∧ r.IsFloat)) ∧
      ((∃ e, result = .error e) → u = s.withStack S) := by
  refine ⟨_, _, step_arithmetic ctx hi hs hf, fun w w' a b hl hr => ?_, ?_, ?_⟩
  · by_cases hop : op.Undefined b
    · rw [Value.arithmetic_of_undefined hl hr hop]
      exact ⟨⟨fun _ => hop, fun _ => rfl⟩, fun hdefined => absurd hop hdefined⟩
    · obtain ⟨v, hv, hinteger⟩ := Value.arithmetic_of_isInteger hl hr hop
      rw [hv]
      refine ⟨⟨nofun, fun hundefined => absurd hundefined hop⟩,
        fun _ => ⟨rfl, v, _, rfl, hinteger, IntegerWidth.bmod_modEq _ _, ?_⟩⟩
      rintro rfl
      exact hl.bmod_tdiv_ne_iff fun hb => hop ⟨rfl, hb⟩
  · rw [← Value.widen?_eq_none_iff, ← Value.arithmetic_eq_invalidOperationTypes_iff op]
    rcases l.arithmetic op r with e | v
    · simp only [Except.error.injEq, Failure.execution.injEq]
    · exact ⟨nofun, nofun⟩
  · rcases l.arithmetic op r with e | v
    · exact fun _ => rfl
    · rintro ⟨e, ⟨⟩⟩

end Machine

namespace Sample

def quotient : Instruction := ⟨0, 1, "div", .sequential, .none⟩

end Sample

namespace Machine

/-- The least number of 64 bits, divided by minus one of 32 bits, is congruent to its opposite and
so is itself. -/
theorem arithmetic_exact_overflow :
    ∃ v, step Sample.constructorContext 1 Sample.quotient
        (Sample.stacked [.int32 (-1), .int64 Int64.minValue, .null]) =
          some (.ok .next, (Sample.stacked [.int32 (-1), .int64 Int64.minValue, .null]).withStack
            [v, .null]) ∧
      v.IsInteger .w64 (-2 ^ 63) := by
  have hi : Sample.quotient.Applies .div := ⟨rfl, rfl⟩
  obtain ⟨result, u, hstep, hintegers, -, -⟩ := arithmetic_exact Sample.constructorContext hi
    (s := Sample.stacked [.int32 (-1), .int64 Int64.minValue, .null]) rfl rfl
  obtain ⟨-, hresult⟩ := hintegers _ _ _ _ (.int64 Int64.minValue) (.int32 (-1))
  obtain ⟨rfl, v, n, rfl, hv, hn, -⟩ := hresult (by decide)
  refine ⟨v, hstep 1, ?_⟩
  have hrange := hv.inRange
  obtain rfl : n = -2 ^ 63 := by
    have hn' : n % 2 ^ 64 = 2 ^ 63 := hn
    simp only [IntegerWidth.InRange, IntegerWidth.least, IntegerWidth.wider, IntegerWidth.bits]
      at hrange
    omega
  exact hv

end Machine

end CilMachine
