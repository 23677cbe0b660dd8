/-
CilMachine/Proofs/Comparisons.lean

Comparisons of values.  Two integers, whatever their widths, are compared as the numbers that they
stand for (`compare_of_isInteger`), because they are brought to one width with the numbers kept; so
the laws of the order of the integers are laws of the comparisons.  Two references can only be
compared for equality, and are equal if they are the same handle, or both null
(`compare_eq_of_isReference`).  What is rejected is all else but a pair of floating-point numbers
(`compare_eq_error_iff`).

A difference is zero exactly if the numbers are equal although it is wrapped, since two numbers of a
width are less than the modulus apart (`IntegerWidth.bmod_sub_eq_zero_iff`).
-/
import CilMachine.Proofs.IntegerArithmetic

namespace CilMachine

/-! ### Integers -/

namespace IntegerWidth

variable {w : IntegerWidth} {a b : Int}

/-- Two numbers of one width are less than the modulus apart, so their wrapped difference is zero
only if there is none. -/
theorem bmod_sub_eq_zero_iff (ha : w.InRange a) (hb : w.InRange b) :
    (a - b).bmod (2 ^ w.bits) = 0 ↔ a = b := by
  constructor
  · intro h
    obtain ⟨k, hk⟩ := Int.dvd_of_bmod_eq_zero h
    obtain ⟨hage, halt⟩ := ha
    obtain ⟨hbge, hblt⟩ := hb
    have hk0 : k = 0 := by
      cases w <;> simp only [least, bits] at hage halt hbge hblt hk <;> omega
    rw [hk0, mul_zero] at hk
    omega
  · rintro rfl
    rw [sub_self, Int.zero_bmod]

end IntegerWidth

namespace Comparison

variable {w : IntegerWidth} {a b : Int} {pair : Value.Pair} {op : Comparison}

/-- The relation of integers that the comparison is for. -/
def onIntegers : Comparison → Int → Int → Bool
  | eq, a, b => a = b
  | gt, a, b => b < a
  | lt, a, b => a < b

theorem holds_of_carries (hpair : pair.Carries w a b) : op.holds pair = op.onIntegers a b := by
  cases hpair with
  | int32 m n => cases op with
    | eq => exact (Bool.beq_eq_decide_eq m n).trans (decide_eq_decide.2 Int32.toInt_inj.symm)
    | gt => exact decide_eq_decide.2 Int32.lt_iff_toInt_lt
    | lt => exact decide_eq_decide.2 Int32.lt_iff_toInt_lt
  | int64 m n => cases op with
    | eq => exact (Bool.beq_eq_decide_eq m n).trans (decide_eq_decide.2 Int64.toInt_inj.symm)
    | gt => exact decide_eq_decide.2 Int64.lt_iff_toInt_lt
    | lt => exact decide_eq_decide.2 Int64.lt_iff_toInt_lt

/-- Of two integers one is less, or greater, or they are equal, and no two of these. -/
theorem existsUnique_onIntegers (a b : Int) : ∃! op : Comparison, op.onIntegers a b = true := by
  have hunique : ∀ op op' : Comparison, op.onIntegers a b = true → op'.onIntegers a b = true →
      op' = op := by
    intro op op' h h'
    cases op <;> cases op' <;> simp only [onIntegers, decide_eq_true_eq] at h h' <;>
      first | rfl | omega
  have hholds : ∃ op : Comparison, op.onIntegers a b = true := by
    rcases lt_trichotomy a b with h | h | h
    · exact ⟨lt, decide_eq_true h⟩
    · exact ⟨eq, decide_eq_true h⟩
    · exact ⟨gt, decide_eq_true h⟩
  obtain ⟨op, hop⟩ := hholds
  exact ⟨op, hop, fun op' => hunique op op' hop⟩

end Comparison

/-! ### Values -/

namespace Value

variable {w w' : IntegerWidth} {a b : Int} {l r : Value} {op : Comparison}

theorem compare_of_isInteger (hl : l.IsInteger w a) (hr : r.IsInteger w' b) :
    l.compare op r = .ok (.ofBool (op.onIntegers a b)) := by
  obtain ⟨pair, hpair, hcarries⟩ := widen?_of_isInteger hl hr
  unfold compare
  rw [hpair, ← Comparison.holds_of_carries hcarries]

@[simp] theorem ofBool_eq_one_iff {b : Bool} : ofBool b = .int32 1 ↔ b = true := by
  cases b <;> decide

/-- References are the same if they are one handle, or both null. -/
theorem sameReference?_of_isReference (hl : l.isReference = true) (hr : r.isReference = true) :
    sameReference? l r = some (decide (l.handle? = r.handle?)) := by
  cases l with
  | object a => cases r with
    | object b =>
        refine congrArg some ((Bool.beq_eq_decide_eq a b).trans (decide_eq_decide.2 ?_))
        exact Option.some_inj.symm
    | null => rfl
    | _ => cases hr
  | null => cases r with
    | object b => rfl
    | null => rfl
    | _ => cases hr
  | _ => cases hl

theorem sameReference?_eq_none_iff :
    sameReference? l r = none ↔ ¬ (l.isReference = true ∧ r.isReference = true) := by
  constructor
  · rintro hnone ⟨hl, hr⟩
    rw [sameReference?_of_isReference hl hr] at hnone
    cases hnone
  · intro hnot
    cases l with
    | object a => cases r with
      | object b => exact absurd ⟨rfl, rfl⟩ hnot
      | null => exact absurd ⟨rfl, rfl⟩ hnot
      | _ => rfl
    | null => cases r with
      | object b => exact absurd ⟨rfl, rfl⟩ hnot
      | null => exact absurd ⟨rfl, rfl⟩ hnot
      | _ => rfl
    | _ => rfl

/-- References have no common width. -/
theorem widen?_of_isReference (hl : l.isReference = true) : widen? l r = none := by
  cases l <;> first | rfl | cases hl

theorem compare_eq_of_isReference (hl : l.isReference = true) (hr : r.isReference = true) :
    l.compare .eq r = .ok (.ofBool (l.handle? = r.handle?)) := by
  unfold compare
  rw [widen?_of_isReference hl, sameReference?_of_isReference hl hr]

/-- The operands are rejected unless both are integers or both floating-point numbers, or they are
references and compared for equality. -/
theorem compare_eq_error_iff :
    l.compare op r = .error (.invalidOperationTypes (.comparison op) [l.kind, r.kind]) ↔
      ¬ ((∃ w a, l.IsInteger w a) ∧ ∃ w b, r.IsInteger w b) ∧ ¬ (l.IsFloat ∧ r.IsFloat) ∧
        ¬ (op = .eq ∧ l.isReference = true ∧ r.isReference = true) := by
  rw [← and_assoc, ← widen?_eq_none_iff]
  unfold compare
  rcases hpair : widen? l r with - | pair
  · rcases hsame : sameReference? l r with - | same
    · have hnot := sameReference?_eq_none_iff.1 hsame
      cases op <;> simp [hnot]
    · have hreferences : l.isReference = true ∧ r.isReference = true := by
        by_contra hnot
        rw [sameReference?_eq_none_iff.2 hnot] at hsame
        cases hsame
      cases op <;> simp [hreferences]
  · simp

/-- The difference of two integers is zero if and only if they are equal. -/
theorem sub_eq_zero_iff (hl : l.IsInteger w a) (hr : r.IsInteger w' b) :
    (∃ z, l.arithmetic .sub r = .ok z ∧ z.IsInteger (w.wider w') 0) ↔ a = b := by
  have hdefined : ¬ Arithmetic.sub.Undefined b := by rintro ⟨⟨⟩, -⟩
  obtain ⟨v, hv, hinteger⟩ := arithmetic_of_isInteger hl hr hdefined
  have ha := hl.inRange.wider w'
  have hb := hr.inRange.wider w
  rw [IntegerWidth.wider_comm] at hb
  rw [← IntegerWidth.bmod_sub_eq_zero_iff ha hb]
  constructor
  · rintro ⟨z, hz, hzero⟩
    rw [hv] at hz
    cases hz
    exact hinteger.unique hzero
  · intro hzero
    exact ⟨v, hv, hzero ▸ hinteger⟩

end Value

/-! ### The instructions -/

namespace Instruction

variable {i : Instruction} {op : Comparison}

/-- The instruction makes a comparison. -/
def Compares (op : Comparison) (i : Instruction) : Prop :=
  i.flow = .sequential ∧ i.mnemonic = op.mnemonic

theorem Compares.action? (hi : i.Compares op) : i.action? = .ok (.compare op) := by
  obtain ⟨hflow, hmnemonic⟩ := hi
  cases op <;> simp only [Instruction.action?, hflow, hmnemonic] <;> rfl

theorem Compares.computes (hi : i.Compares op) (l r : Value) :
    i.Computes [l, r] (l.compare op r) :=
  computes_of_perform hi.action? fun _ _ _ _ _ => Machine.binary_apply fun l r => l.compare op r

end Instruction

namespace Machine

variable {code : Comparison → Instruction} {subtraction : Instruction}

/-- **Comparisons are those of a linear order.**  Take the instruction of each comparison, and one
that subtracts.  Of two integers, whatever their widths, the instructions say how the exact numbers
compare, so just one of them yields one; to ask whether the first is greater is to ask whether the
second is less; to be less is transitive; and they are equal if and only if their difference is
zero.  Of two references it can only be asked whether they are equal: they are if they are one
handle or both null, which is an equivalence relation.  Operands are rejected unless both are
integers or both are floating-point numbers or, for equality, both are references. -/
theorem comparisons_consistent (hcode : ∀ op, (code op).Compares op)
    (hsubtraction : subtraction.Applies .sub) :
    (∀ w w' a b l r, l.IsInteger w a → r.IsInteger w' b →
      (∀ op, (code op).Computes [l, r] (.ok (.ofBool (op.onIntegers a b)))) ∧
      (∃! op, (code op).Computes [l, r] (.ok (.int32 1))) ∧
      (∀ result, (code .gt).Computes [l, r] result ↔ (code .lt).Computes [r, l] result) ∧
      (∀ w'' c t, t.IsInteger w'' c → (code .lt).Computes [l, r] (.ok (.int32 1)) →
        (code .lt).Computes [r, t] (.ok (.int32 1)) →
          (code .lt).Computes [l, t] (.ok (.int32 1))) ∧
      ((code .eq).Computes [l, r] (.ok (.int32 1)) ↔
        ∃ z, subtraction.Computes [l, r] (.ok z) ∧ z.IsInteger (w.wider w') 0)) ∧
    (∀ l r, l.isReference = true → r.isReference = true →
      (code .eq).Computes [l, r] (.ok (.ofBool (l.handle? = r.handle?))) ∧
      ∀ op, op ≠ .eq → (code op).Computes [l, r]
        (.error (.invalidOperationTypes (.comparison op) [l.kind, r.kind]))) ∧
    Equivalence (fun l r : { v : Value // v.isReference = true } =>
      (code .eq).Computes [l.1, r.1] (.ok (.int32 1))) ∧
    (∀ op l r, (code op).Computes [l, r]
        (.error (.invalidOperationTypes (.comparison op) [l.kind, r.kind])) ↔
      ¬ ((∃ w a, l.IsInteger w a) ∧ ∃ w b, r.IsInteger w b) ∧ ¬ (l.IsFloat ∧ r.IsFloat) ∧
        ¬ (op = .eq ∧ l.isReference = true ∧ r.isReference = true)) := by
  have hcomputes : ∀ op l r result, (code op).Computes [l, r] result ↔ result = l.compare op r :=
    fun op l r _ => ((hcode op).computes l r).iff_eq
  have hreferences : ∀ l r : Value, l.isReference = true → r.isReference = true →
      (code .eq).Computes [l, r] (.ok (.ofBool (l.handle? = r.handle?))) := fun l r hl hr =>
    (hcomputes _ _ _ _).2 (Value.compare_eq_of_isReference hl hr).symm
  refine ⟨fun w w' a b l r hl hr => ?_,
    fun l r hl hr => ⟨hreferences l r hl hr, fun op hop => ?_⟩, ?_, fun op l r => ?_⟩
  · have hone : ∀ op l r w w' a b, Value.IsInteger w a l → Value.IsInteger w' b r →
        ((code op).Computes [l, r] (.ok (.int32 1)) ↔ op.onIntegers a b = true) := by
      intro op l r w w' a b hl hr
      rw [hcomputes, Value.compare_of_isInteger hl hr, Except.ok.injEq, eq_comm,
        Value.ofBool_eq_one_iff]
    refine ⟨fun op => (hcomputes _ _ _ _).2 (Value.compare_of_isInteger hl hr).symm, ?_,
      fun result => ?_, fun w'' c t ht hlr hrt => ?_, ?_⟩
    · simp only [hone _ l r w w' a b hl hr]
      exact Comparison.existsUnique_onIntegers a b
    · rw [hcomputes, hcomputes, Value.compare_of_isInteger hl hr, Value.compare_of_isInteger hr hl]
      rfl
    · rw [hone _ _ _ _ _ _ _ hl hr] at hlr
      rw [hone _ _ _ _ _ _ _ hr ht] at hrt
      rw [hone _ _ _ _ _ _ _ hl ht]
      exact decide_eq_true (lt_trans (of_decide_eq_true hlr) (of_decide_eq_true hrt))
    · rw [hone _ _ _ _ _ _ _ hl hr, Comparison.onIntegers, decide_eq_true_iff,
        ← Value.sub_eq_zero_iff hl hr]
      simp only [(hsubtraction.computes l r).iff_eq, eq_comm]
  · obtain ⟨hintegers, hfloats⟩ :=
      Value.widen?_eq_none_iff.1 (Value.widen?_of_isReference (r := r) hl)
    rw [hcomputes, eq_comm, Value.compare_eq_error_iff]
    exact ⟨hintegers, hfloats, fun heq => hop heq.1⟩
  · have hone : ∀ l r : { v : Value // v.isReference = true },
        (code .eq).Computes [l.1, r.1] (.ok (.int32 1)) ↔ l.1.handle? = r.1.handle? := by
      intro l r
      rw [(hreferences l r l.2 r.2).iff_eq, Except.ok.injEq, eq_comm, Value.ofBool_eq_one_iff,
        decide_eq_true_iff]
    simp only [hone]
    exact ⟨fun _ => rfl, Eq.symm, Eq.trans⟩
  · rw [hcomputes, eq_comm]
    exact Value.compare_eq_error_iff

end Machine

namespace Sample

def comparison (op : Comparison) : Instruction := ⟨0, 2, op.mnemonic, .sequential, .none⟩

def subtraction : Instruction := ⟨0, 1, "sub", .sequential, .none⟩

end Sample

namespace Machine

/-- Minus one of 32 bits is less than two to the 32nd, of 64 bits, and a handle is not less than
null. -/
theorem comparisons_consistent_mixed :
    step Sample.constructorContext 1 (Sample.comparison .lt)
        (Sample.stacked [.int64 0x100000000, .int32 (-1), .null]) =
      some (.ok .next, (Sample.stacked [.int64 0x100000000, .int32 (-1), .null]).withStack
        [.int32 1, .null]) ∧
    step Sample.constructorContext 1 (Sample.comparison .lt)
        (Sample.stacked [.null, .object ⟨1⟩, .int32 5]) =
      some (.error (.execution (.invalidOperationTypes (.comparison .lt) [.object, .null])),
        (Sample.stacked [.null, .object ⟨1⟩, .int32 5]).withStack [.int32 5]) := by
  have hcode : ∀ op, (Sample.comparison op).Compares op := fun op => ⟨rfl, rfl⟩
  have hsubtraction : Sample.subtraction.Applies .sub := ⟨rfl, rfl⟩
  obtain ⟨hintegers, hreferences, -, -⟩ := comparisons_consistent hcode hsubtraction
  obtain ⟨hcomputes, -⟩ := hintegers _ _ _ _ _ _ (.int32 (-1)) (.int64 0x100000000)
  obtain ⟨-, hrejected⟩ := hreferences (.object ⟨1⟩) .null rfl rfl
  exact ⟨hcomputes .lt _ _ _ _ _ _ rfl rfl, hrejected .lt (by decide) _ _ _ _ _ _ rfl rfl⟩

end Machine

end CilMachine
