/-
CilMachine/Proofs/Conversions.lean

Conversions of integers.  A conversion yields integers of one width, and of these the ones in a
range (`Conversion.target?`): the number that comes out is the one in the range that is congruent to
what has been put in (`convert_of_isInteger`).  The range is that of the type that the conversion is
named for, seen as integers of the width that carries it; only where a short integer is extended
without its sign does it depend on the width of what is converted.

What a range makes of a number depends on the residue alone (`IntegerRange.represent_congr`), so a
cut to few bits does not notice an earlier one to more bits (`represent_represent`), and does not
change what is in the range already (`represent_of_contains`).  The laws of the conversions come
from these two.
-/
import CilMachine.Proofs.IntegerArithmetic

namespace CilMachine

/-! ### Ranges -/

/-- As many consecutive integers as there are patterns of the bits, from the least one on. -/
structure IntegerRange where
  bits : Nat
  least : Int
deriving DecidableEq

namespace IntegerRange

variable {x y : IntegerRange} {m n : Int} {b : Nat}

/-- The range of the integers of so many bits with a sign. -/
def signed (bits : Nat) : IntegerRange := ⟨bits, -2 ^ (bits - 1)⟩

/-- The range of the integers of so many bits without a sign. -/
def unsigned (bits : Nat) : IntegerRange := ⟨bits, 0⟩

/-- The number is in the range. -/
def Contains (x : IntegerRange) (n : Int) : Prop := x.least ≤ n ∧ n < x.least + 2 ^ x.bits

/-- The number in the range that is congruent to another one. -/
def represent (x : IntegerRange) (n : Int) : Int := (n - x.least) % 2 ^ x.bits + x.least

theorem contains_represent (x : IntegerRange) (n : Int) : x.Contains (x.represent n) := by
  have hpos : (0 : Int) < 2 ^ x.bits := Int.pow_pos (by decide)
  have hge := Int.emod_nonneg (n - x.least) hpos.ne'
  have hlt := Int.emod_lt_of_pos (n - x.least) hpos
  exact ⟨by rw [represent]; omega, by rw [represent]; omega⟩

theorem represent_modEq (x : IntegerRange) (n : Int) : x.represent n ≡ n [ZMOD 2 ^ x.bits] := by
  have h := (Int.mod_modEq (n - x.least) (2 ^ x.bits)).add_right x.least
  rwa [sub_add_cancel] at h

/-- The residue alone decides. -/
theorem represent_congr (h : m ≡ n [ZMOD 2 ^ x.bits]) : x.represent m = x.represent n :=
  congrArg (· + x.least) (h.sub_right x.least)

/-- A number in the range stays. -/
theorem represent_of_contains (h : x.Contains n) : x.represent n = n := by
  obtain ⟨hge, hlt⟩ := h
  rw [represent, Int.emod_eq_of_lt (by omega) (by omega), sub_add_cancel]

/-- The one in the range that is congruent to the number is unique. -/
theorem eq_represent (h : m ≡ n [ZMOD 2 ^ x.bits]) (hm : x.Contains m) : m = x.represent n :=
  (represent_of_contains hm).symm.trans (represent_congr h)

/-- A cut to few bits does not notice an earlier one to more bits. -/
theorem represent_represent (h : x.bits ≤ y.bits) (n : Int) :
    x.represent (y.represent n) = x.represent n :=
  represent_congr ((y.represent_modEq n).of_dvd (pow_dvd_pow 2 h))

theorem represent_unsigned (b : Nat) (n : Int) : (unsigned b).represent n = n % 2 ^ b := by
  rw [represent, unsigned, sub_zero, add_zero]

theorem represent_signed (b : Nat) (n : Int) :
    (signed (b + 1)).represent n = n.bmod (2 ^ (b + 1)) := by
  have hge := Int.le_bmod (x := n) (Nat.two_pow_pos (b + 1))
  have hlt := Int.bmod_lt (x := n) (Nat.two_pow_pos (b + 1))
  have hmod : n.bmod (2 ^ (b + 1)) ≡ n [ZMOD 2 ^ (b + 1)] := by
    exact_mod_cast Int.bmod_emod (m := 2 ^ (b + 1))
  refine (eq_represent hmod ⟨?_, ?_⟩).symm <;>
    rw [signed] <;> dsimp only <;> push_cast [pow_succ] at hge hlt ⊢ <;> omega

/-- The range of the integers that a width has room for. -/
theorem contains_signed_iff (w : IntegerWidth) (n : Int) :
    (signed w.bits).Contains n ↔ w.InRange n := by
  cases w <;> simp only [Contains, signed, IntegerWidth.InRange, IntegerWidth.least,
    IntegerWidth.bits] <;> omega

end IntegerRange

/-! ### Casts -/

namespace Conversion

theorem toNat_toUInt32 (n : Int32) : (n.toUInt32.toNat : Int) = n.toInt % 2 ^ 32 := by
  have h : n.toInt = (n.toUInt32.toNat : Int).bmod (2 ^ 32) := BitVec.toInt_eq_toNat_bmod _
  have hlt := n.toUInt32.toNat_lt
  have hmod := Int.bmod_emod (x := n.toUInt32.toNat) (m := 2 ^ 32)
  rw [← h] at hmod
  omega

theorem toNat_toUInt64 (n : Int64) : (n.toUInt64.toNat : Int) = n.toInt % 2 ^ 64 := by
  have h : n.toInt = (n.toUInt64.toNat : Int).bmod (2 ^ 64) := BitVec.toInt_eq_toNat_bmod _
  have hlt := n.toUInt64.toNat_lt
  have hmod := Int.bmod_emod (x := n.toUInt64.toNat) (m := 2 ^ 64)
  rw [← h] at hmod
  omega

theorem toInt_toInt32 (n : UInt32) : n.toInt32.toInt = (n.toNat : Int).bmod (2 ^ 32) :=
  BitVec.toInt_eq_toNat_bmod _

theorem toInt_toInt64 (n : UInt64) : n.toInt64.toInt = (n.toNat : Int).bmod (2 ^ 64) :=
  BitVec.toInt_eq_toNat_bmod _

/-- Integers that leave the sign bit alone keep their number. -/
theorem toInt_toInt32_of_lt {n : UInt32} (h : n.toNat < 2 ^ 31) : n.toInt32.toInt = n.toNat := by
  rw [toInt_toInt32]
  exact Int.bmod_eq_of_le_mul_two (by omega) (by omega)

theorem toInt_toInt64_of_lt {n : UInt64} (h : n.toNat < 2 ^ 63) : n.toInt64.toInt = n.toNat := by
  rw [toInt_toInt64]
  exact Int.bmod_eq_of_le_mul_two (by omega) (by omega)

theorem toInt_toInt32_toUInt8 (n : UInt8) : n.toUInt32.toInt32.toInt = n.toNat := by
  have hlt := n.toNat_lt
  rw [toInt_toInt32_of_lt, UInt8.toNat_toUInt32]
  rw [UInt8.toNat_toUInt32]
  omega

theorem toInt_toInt32_toUInt16 (n : UInt16) : n.toUInt32.toInt32.toInt = n.toNat := by
  have hlt := n.toNat_lt
  rw [toInt_toInt32_of_lt, UInt16.toNat_toUInt32]
  rw [UInt16.toNat_toUInt32]
  omega

theorem toInt_toInt64_toUInt32 (n : UInt32) : n.toUInt64.toInt64.toInt = n.toNat := by
  have hlt := n.toNat_lt
  rw [toInt_toInt64_of_lt, UInt32.toNat_toUInt64]
  rw [UInt32.toNat_toUInt64]
  omega

/-! ### Conversions -/

variable {w w' w'' : IntegerWidth} {n : Int} {u v : Value} {op op' : Conversion}
  {x y : IntegerRange} {b b' : Nat}

/-- The number of bits of the integers that the conversion is named for, if it is for integers. -/
def bits? : Conversion → Option Nat
  | i1 | u1 => some 8
  | i2 | u2 => some 16
  | i4 | u4 => some 32
  | i8 | u8 => some 64
  | r4 | r8 => none

/-- The integers that come out when integers of a width are converted: their own width, and their
range.  A short integer is carried by one of 32 bits.  The patterns of an unsigned integer of 32
bits are those of the signed ones, and likewise for 64 bits. -/
def target? (w : IntegerWidth) : Conversion → Option (IntegerWidth × IntegerRange)
  | i1 => some (.w32, .signed 8)
  | i2 => some (.w32, .signed 16)
  | i4 | u4 => some (.w32, .signed 32)
  | i8 => some (.w64, .signed 64)
  | u1 => some (.w32, .unsigned 8)
  | u2 => some (.w32, .unsigned 16)
  | u8 => match w with
    | .w32 => some (.w64, .unsigned 32)
    | .w64 => some (.w64, .signed 64)
  | r4 | r8 => none

theorem isInteger_of_toInt32 {m : Int32} (h : m.toInt = n) : Value.IsInteger .w32 n (.int32 m) :=
  h ▸ .int32 m

theorem isInteger_of_toInt64 {m : Int64} (h : m.toInt = n) : Value.IsInteger .w64 n (.int64 m) :=
  h ▸ .int64 m

theorem isInteger_ofInt32 (m : Int32) (hop : op.target? .w32 = some (w', x)) :
    (op.ofInt32 m).IsInteger w' (x.represent m.toInt) := by
  have hrange : IntegerWidth.w32.InRange m.toInt := (Value.IsInteger.int32 m).inRange
  have hcast := toNat_toUInt32 m
  cases op with
  | i1 =>
      cases hop
      refine isInteger_of_toInt32 ?_
      rw [IntegerRange.represent_signed, Int8.toInt_toInt32, Int32.toInt_toInt8]
  | i2 =>
      cases hop
      refine isInteger_of_toInt32 ?_
      rw [IntegerRange.represent_signed, Int16.toInt_toInt32, Int32.toInt_toInt16]
  | i4 | u4 =>
      cases hop
      have hm := (IntegerRange.contains_signed_iff .w32 _).2 hrange
      exact isInteger_of_toInt32 (IntegerRange.represent_of_contains hm).symm
  | i8 =>
      cases hop
      have hm := (IntegerRange.contains_signed_iff .w64 _).2 (hrange.wider .w64)
      exact isInteger_of_toInt64
        (m.toInt_toInt64.trans (IntegerRange.represent_of_contains hm).symm)
  | u1 =>
      cases hop
      refine isInteger_of_toInt32 ?_
      rw [IntegerRange.represent_unsigned, toInt_toInt32_toUInt8, UInt32.toNat_toUInt8]
      omega
  | u2 =>
      cases hop
      refine isInteger_of_toInt32 ?_
      rw [IntegerRange.represent_unsigned, toInt_toInt32_toUInt16, UInt32.toNat_toUInt16]
      omega
  | u8 =>
      cases hop
      refine isInteger_of_toInt64 ?_
      rw [IntegerRange.represent_unsigned, toInt_toInt64_toUInt32, hcast]
  | r4 | r8 => cases hop

theorem isInteger_ofInt64 (m : Int64) (hop : op.target? .w64 = some (w', x)) :
    (op.ofInt64 m).IsInteger w' (x.represent m.toInt) := by
  have hrange : IntegerWidth.w64.InRange m.toInt := (Value.IsInteger.int64 m).inRange
  have hcast := toNat_toUInt64 m
  cases op with
  | i1 =>
      cases hop
      refine isInteger_of_toInt32 ?_
      rw [IntegerRange.represent_signed, Int8.toInt_toInt32, Int64.toInt_toInt8]
  | i2 =>
      cases hop
      refine isInteger_of_toInt32 ?_
      rw [IntegerRange.represent_signed, Int16.toInt_toInt32, Int64.toInt_toInt16]
  | i4 =>
      cases hop
      refine isInteger_of_toInt32 ?_
      rw [IntegerRange.represent_signed, Int64.toInt_toInt32]
  | u1 =>
      cases hop
      refine isInteger_of_toInt32 ?_
      rw [IntegerRange.represent_unsigned, toInt_toInt32_toUInt8, UInt64.toNat_toUInt8]
      omega
  | u2 =>
      cases hop
      refine isInteger_of_toInt32 ?_
      rw [IntegerRange.represent_unsigned, toInt_toInt32_toUInt16, UInt64.toNat_toUInt16]
      omega
  | u4 =>
      cases hop
      refine isInteger_of_toInt32 ?_
      -- the unsigned integer of 32 bits has the residue of the one of 64
      have hresidue : ((m.toUInt64.toNat % 2 ^ 32 : Nat) : Int) % (2 ^ 32 : Nat) =
          m.toInt % (2 ^ 32 : Nat) := by omega
      rw [IntegerRange.represent_signed, toInt_toInt32, UInt64.toNat_toUInt32, ← Int.emod_bmod,
        hresidue, Int.emod_bmod]
  | i8 | u8 =>
      cases hop
      have hm := (IntegerRange.contains_signed_iff .w64 _).2 hrange
      exact isInteger_of_toInt64 (IntegerRange.represent_of_contains hm).symm
  | r4 | r8 => cases hop

/-- A conversion yields the number of its range that is congruent to what it is given. -/
theorem convert_of_isInteger (hv : v.IsInteger w n) (hop : op.target? w = some (w', x)) :
    ∃ u, v.convert op = .ok u ∧ u.IsInteger w' (x.represent n) := by
  cases hv with
  | int32 m => exact ⟨_, rfl, isInteger_ofInt32 m hop⟩
  | int64 m => exact ⟨_, rfl, isInteger_ofInt64 m hop⟩

/-! ### Conversions that keep the number or the bits -/

theorem convert_i8 (hv : v.IsInteger w n) :
    ∃ m : Int64, v.convert .i8 = .ok (.int64 m) ∧ m.toInt = n := by
  cases hv with
  | int32 m => exact ⟨_, rfl, m.toInt_toInt64⟩
  | int64 m => exact ⟨m, rfl, rfl⟩

theorem convert_u8 (m : Int32) :
    ∃ k : Int64, (Value.int32 m).convert .u8 = .ok (.int64 k) ∧ k.toInt = m.toUInt32.toNat :=
  ⟨_, rfl, toInt_toInt64_toUInt32 _⟩

theorem convert_u4 (hv : v.IsInteger w n) :
    ∃ m : Int32, v.convert .u4 = .ok (.int32 m) ∧ (m.toUInt32.toNat : Int) = n % 2 ^ 32 := by
  cases hv with
  | int32 m => exact ⟨m, rfl, toNat_toUInt32 m⟩
  | int64 m =>
      refine ⟨_, rfl, ?_⟩
      have hcast := toNat_toUInt64 m
      rw [UInt32.toUInt32_toInt32, UInt64.toNat_toUInt32]
      omega

/-! ### One conversion after another -/

theorem exists_target (hop : op.bits? = some b) (w : IntegerWidth) :
    ∃ w' x, op.target? w = some (w', x) ∧ min b 32 ≤ x.bits := by
  cases op <;> cases hop <;> cases w <;> exact ⟨_, _, rfl, by decide⟩

/-- The range of a narrowing conversion does not depend on the width of what is converted. -/
theorem exists_target_of_le (hop : op.bits? = some b) (hb : b ≤ 32) :
    ∃ x : IntegerRange, x.bits = b ∧ ∀ w, op.target? w = some (.w32, x) := by
  cases op <;> cases hop
  case i8 | u8 => contradiction
  all_goals exact ⟨_, rfl, fun _ => rfl⟩

/-- What comes out of a conversion is in the range of this conversion when it is converted again. -/
theorem target_of_target (hop : op.target? w = some (w', x)) :
    ∃ y, op.target? w' = some (w', y) ∧ ∀ n, x.Contains n → y.Contains n := by
  cases op with
  | u8 => cases w with
    | w32 =>
        cases hop
        refine ⟨_, rfl, fun n hn => ?_⟩
        simp only [IntegerRange.Contains, IntegerRange.unsigned, IntegerRange.signed] at hn ⊢
        omega
    | w64 =>
        cases hop
        exact ⟨_, rfl, fun _ => id⟩
  | r4 | r8 => cases hop
  | _ =>
      cases hop
      exact ⟨_, rfl, fun _ => id⟩

/-- A narrowing conversion does not notice an earlier conversion to at least as many bits. -/
theorem convert_convert (hv : v.IsInteger w n) (hop : op.bits? = some b) (hb : b ≤ 32)
    (hop' : op'.bits? = some b') (hle : b ≤ b') (hu : v.convert op' = .ok u) :
    u.convert op = v.convert op := by
  obtain ⟨x, rfl, hx⟩ := exists_target_of_le hop hb
  obtain ⟨w', y, hy, hbits⟩ := exists_target hop' w
  obtain ⟨u', hu', hinteger⟩ := convert_of_isInteger hv hy
  rw [hu] at hu'
  cases hu'
  obtain ⟨t, ht, htn⟩ := convert_of_isInteger hinteger (hx w')
  obtain ⟨t', ht', htn'⟩ := convert_of_isInteger hv (hx w)
  rw [IntegerRange.represent_represent (by omega)] at htn
  rw [ht, ht', htn.ext htn']

/-- A conversion changes nothing when it is made again. -/
theorem convert_self (hv : v.IsInteger w n) (hop : op.bits? = some b) (hu : v.convert op = .ok u) :
    u.convert op = .ok u := by
  obtain ⟨w', x, hx, -⟩ := exists_target hop w
  obtain ⟨u', hu', hinteger⟩ := convert_of_isInteger hv hx
  rw [hu] at hu'
  cases hu'
  obtain ⟨y, hy, hcontains⟩ := target_of_target hx
  obtain ⟨t, ht, htn⟩ := convert_of_isInteger hinteger hy
  rw [IntegerRange.represent_of_contains (hcontains _ (x.contains_represent n))] at htn
  rw [ht, htn.ext hinteger]

end Conversion

/-! ### The instructions -/

namespace Instruction

variable {i : Instruction} {op : Conversion}

/-- The instruction makes a conversion. -/
def Converts (op : Conversion) (i : Instruction) : Prop :=
  i.flow = .sequential ∧ i.mnemonic = op.mnemonic

theorem Converts.action? (hi : i.Converts op) : i.action? = .ok (.convert op) := by
  obtain ⟨hflow, hmnemonic⟩ := hi
  cases op <;> simp only [Instruction.action?, hflow, hmnemonic] <;> rfl

theorem Converts.computes (hi : i.Converts op) (v : Value) : i.Computes [v] (v.convert op) :=
  computes_of_perform hi.action? fun _ _ _ _ _ => Machine.unary_apply fun v => v.convert op

end Instruction

namespace Machine

variable {code : Conversion → Instruction}

/-- **Conversions of integers keep the residue.**  Take the instruction of each conversion.  Given
an integer of either width, it yields the one in the range of the conversion that is congruent to
it.  So the bits of the pattern are kept where an unsigned integer of 32 bits is asked for, and the
number itself where a signed one of 64 bits is; an unsigned one of 64 bits keeps the bits, filled up
with zeros.  A conversion that is made again changes nothing; a narrowing conversion does not notice
an earlier conversion to at least as many bits; and an integer of 32 bits that has been extended,
with its sign or without, is found again when it is cut. -/
theorem conversions_congruent (hcode : ∀ op, (code op).Converts op) :
    (∀ w n v, v.IsInteger w n →
      (∀ op w' x, op.target? w = some (w', x) → ∃ u m, (code op).Computes [v] (.ok u) ∧
        u.IsInteger w' m ∧ m ≡ n [ZMOD 2 ^ x.bits] ∧ x.Contains m) ∧
      (∃ m : Int32, (code .u4).Computes [v] (.ok (.int32 m)) ∧
        (m.toUInt32.toNat : Int) = n % 2 ^ 32) ∧
      (∃ m : Int64, (code .i8).Computes [v] (.ok (.int64 m)) ∧ m.toInt = n) ∧
      (∀ op b u, op.bits? = some b → (code op).Computes [v] (.ok u) →
        (code op).Computes [u] (.ok u)) ∧
      (∀ op op' b b' u, op.bits? = some b → b ≤ 32 → op'.bits? = some b' → b ≤ b' →
        (code op').Computes [v] (.ok u) →
          ∀ result, (code op).Computes [u] result ↔ (code op).Computes [v] result)) ∧
    (∀ m : Int64, (code .u8).Computes [.int64 m] (.ok (.int64 m))) ∧
    (∀ m : Int32, ∃ k : Int64, (code .u8).Computes [.int32 m] (.ok (.int64 k)) ∧
      k.toInt = m.toUInt32.toNat) ∧
    (∀ (m : Int32) (op : Conversion) (u : Value), op.bits? = some 64 →
      (code op).Computes [.int32 m] (.ok u) → (code .i4).Computes [u] (.ok (.int32 m))) := by
  have hcomputes : ∀ op v result, (code op).Computes [v] result ↔ result = v.convert op :=
    fun op v _ => ((hcode op).computes v).iff_eq
  simp only [hcomputes]
  refine ⟨fun w n v hv => ⟨fun op w' x hop => ?_, ?_, ?_, fun op b u hop hu => ?_,
    fun op op' b b' u hop hb hop' hle hu result => ?_⟩, fun m => rfl, fun m => ?_,
    fun m op u hop hu => ?_⟩
  · obtain ⟨u, hu, hinteger⟩ := Conversion.convert_of_isInteger hv hop
    exact ⟨u, _, hu.symm, hinteger, x.represent_modEq n, x.contains_represent n⟩
  · obtain ⟨m, hm, hbits⟩ := Conversion.convert_u4 hv
    exact ⟨m, hm.symm, hbits⟩
  · obtain ⟨m, hm, hn⟩ := Conversion.convert_i8 hv
    exact ⟨m, hm.symm, hn⟩
  · exact (Conversion.convert_self hv hop hu.symm).symm
  · rw [Conversion.convert_convert hv hop hb hop' hle hu.symm]
  · obtain ⟨k, hk, hm⟩ := Conversion.convert_u8 m
    exact ⟨k, hk.symm, hm⟩
  · have hbits : Conversion.i4.bits? = some 32 := rfl
    exact (Conversion.convert_convert (.int32 m) hbits (by decide) hop (by decide) hu.symm).symm

end Machine

namespace Sample

def conversion (op : Conversion) : Instruction := ⟨0, 1, op.mnemonic, .sequential, .none⟩

end Sample

namespace Machine

/-- Of minus two to the 33rd, less 200, the lowest eight bits are 56, with or without a sign; minus
one of 32 bits becomes two to the 32nd less one when it is extended by zeros, and is found again. -/
theorem conversions_congruent_negative :
    (∃ u m, (Sample.conversion .i1).Computes [.int64 (-0x2000000C8)] (.ok u) ∧ u.IsInteger .w32 m ∧
      m = 56) ∧
    ∃ k : Int64, k.toInt = 0xFFFFFFFF ∧
      step Sample.constructorContext 1 (Sample.conversion .u8)
          (Sample.stacked [.int32 (-1), .null]) =
        some (.ok .next, (Sample.stacked [.int32 (-1), .null]).withStack [.int64 k, .null]) ∧
      step Sample.constructorContext 1 (Sample.conversion .i4) (Sample.stacked [.int64 k, .null]) =
        some (.ok .next, (Sample.stacked [.int64 k, .null]).withStack [.int32 (-1), .null]) := by
  have hcode : ∀ op, (Sample.conversion op).Converts op := fun op => ⟨rfl, rfl⟩
  obtain ⟨hintegers, -, hextended, hcut⟩ := conversions_congruent hcode
  constructor
  · obtain ⟨hranges, -⟩ := hintegers _ _ _ (.int64 (-0x2000000C8))
    obtain ⟨u, m, hu, hm, hmod, hge, hlt⟩ := hranges .i1 _ _ rfl
    refine ⟨u, m, hu, hm, ?_⟩
    have hmod' : m % 2 ^ 8 = 56 := hmod
    simp only [IntegerRange.signed] at hge hlt
    omega
  · obtain ⟨k, hk, hnumber⟩ := hextended (-1)
    exact ⟨k, hnumber, hk _ _ _ _ _ [.null] rfl rfl,
      hcut (-1) .u8 _ rfl hk _ _ _ _ _ [.null] rfl rfl⟩

end Machine

end CilMachine
