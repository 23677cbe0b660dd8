/-
CilMachine/Proofs/Utf16.lean

Decoding and encoding undo each other as far as they can.  The units of a text decode to that text
(`decode_encode`).  A sequence of units decodes to a text with just as many units, each of which is
the one that was decoded, or U+FFFD where a surrogate has no partner (`repairs_encode_decode`).

Whether a surrogate has a partner is a matter of the unit beside it (`Unpaired`): a unit opens a
pair or closes one and never both, so the pairs of a sequence do not overlap, and how a decoder has
come to a unit does not matter.
-/
import CilMachine.Text.Utf16
import Mathlib.Tactic.Common

namespace CilMachine.Text.Utf16

variable {u v : UInt16} {us vs : List UInt16} {c : Char} {i : Nat}

/-! ### Surrogates -/

theorem isHigh_iff : IsHigh u ↔ 0xD800 ≤ u.toNat ∧ u.toNat < 0xDC00 := by
  rw [IsHigh, UInt16.le_iff_toNat_le, UInt16.lt_iff_toNat_lt]
  exact Iff.rfl

theorem isLow_iff : IsLow u ↔ 0xDC00 ≤ u.toNat ∧ u.toNat < 0xE000 := by
  rw [IsLow, UInt16.le_iff_toNat_le, UInt16.lt_iff_toNat_lt]
  exact Iff.rfl

theorem IsLow.not_isHigh (h : IsLow u) : ¬ IsHigh u := by
  rw [isLow_iff] at h
  rw [isHigh_iff]
  omega

/-- The number of a character is no surrogate. -/
theorem toNat_lt_or (c : Char) : c.toNat < 0xD800 ∨ 0xE000 ≤ c.toNat ∧ c.toNat < 0x110000 := by
  have hvalid : c.toNat < 0xD800 ∨ 0xDFFF < c.toNat ∧ c.toNat < 0x110000 := c.valid
  omega

theorem toNat_ofNat (h : i < 0xD800 ∨ 0xE000 ≤ i ∧ i < 0x110000) : (Char.ofNat i).toNat = i := by
  have hvalid : i.isValidChar := by
    unfold Nat.isValidChar
    omega
  rw [Char.ofNat, dif_pos hvalid]
  exact UInt32.toNat_ofNatLT

theorem toNat_toUInt16 (h : i < 0x10000) : i.toUInt16.toNat = i := by
  rw [Nat.toUInt16, UInt16.toNat_ofNat']
  exact Nat.mod_eq_of_lt h

theorem pairCode_eq (u v : UInt16) :
    pairCode u v = 0x10000 + (u.toNat - 0xD800) * 0x400 + (v.toNat - 0xDC00) := rfl

/-! ### The units of one character -/

theorem encodeChar_of_lt (h : c.toNat < 0x10000) : encodeChar c = [c.toNat.toUInt16] :=
  if_pos h

/-- The units of a character beyond the basic plane are a pair, whose code is the character's. -/
theorem encodeChar_of_ge (h : 0x10000 ≤ c.toNat) :
    ∃ u v, encodeChar c = [u, v] ∧ IsHigh u ∧ IsLow v ∧ pairCode u v = c.toNat := by
  have hc := toNat_lt_or c
  have hu : (0xD800 + (c.toNat - 0x10000) / 0x400).toUInt16.toNat =
      0xD800 + (c.toNat - 0x10000) / 0x400 := toNat_toUInt16 (by omega)
  have hv : (0xDC00 + (c.toNat - 0x10000) % 0x400).toUInt16.toNat =
      0xDC00 + (c.toNat - 0x10000) % 0x400 := toNat_toUInt16 (by omega)
  refine ⟨_, _, if_neg (Nat.not_lt.2 h), ?_, ?_, ?_⟩
  · rw [isHigh_iff, hu]
    omega
  · rw [isLow_iff, hv]
    omega
  · have hcode := pairCode_eq (0xD800 + (c.toNat - 0x10000) / 0x400).toUInt16
      (0xDC00 + (c.toNat - 0x10000) % 0x400).toUInt16
    omega

/-- The units of a pair's character are the pair. -/
theorem encodeChar_pairCode (hu : IsHigh u) (hv : IsLow v) :
    encodeChar (Char.ofNat (pairCode u v)) = [u, v] := by
  rw [isHigh_iff] at hu
  rw [isLow_iff] at hv
  have hcode := pairCode_eq u v
  have hnat : (Char.ofNat (pairCode u v)).toNat = pairCode u v := toNat_ofNat (by omega)
  rw [encodeChar, hnat, if_neg (by omega)]
  refine congrArg₂ (fun a b => [a, b]) ?_ ?_
  · rw [← UInt16.toNat_inj, toNat_toUInt16 (by omega)]
    omega
  · rw [← UInt16.toNat_inj, toNat_toUInt16 (by omega)]
    omega

/-- A unit by itself stays, unless it is a surrogate. -/
theorem encodeChar_decodeUnit (u : UInt16) :
    encodeChar (decodeUnit u) = [if IsHigh u ∨ IsLow u then 0xFFFD else u] := by
  have hlt := u.toNat_lt
  rw [decodeUnit]
  split
  · rfl
  · rename_i hnot
    rw [isHigh_iff, isLow_iff] at hnot
    have hnat : (Char.ofNat u.toNat).toNat = u.toNat := toNat_ofNat (by omega)
    rw [encodeChar_of_lt (by omega), hnat]
    refine congrArg (fun a => [a]) ?_
    rw [← UInt16.toNat_inj, toNat_toUInt16 hlt]

/-! ### The units of a text -/

theorem encode_cons (c : Char) (cs : List Char) : encode (c :: cs) = encodeChar c ++ encode cs :=
  List.flatMap_cons

theorem encode_append (cs ds : List Char) : encode (cs ++ ds) = encode cs ++ encode ds :=
  List.flatMap_append

/-- The units of two texts are counted one text after the other. -/
theorem length_append (s t : String) : length (s ++ t) = length s + length t := by
  rw [length, String.toList_append, encode_append, List.length_append]
  rfl

theorem decode_cons_of_not_isHigh (hu : ¬ IsHigh u) (us : List UInt16) :
    decode (u :: us) = decodeUnit u :: decode us := by
  rcases us with - | ⟨v, us⟩
  · rfl
  · exact if_neg fun h => hu h.1

theorem decode_cons_cons_of_pair (hu : IsHigh u) (hv : IsLow v) (us : List UInt16) :
    decode (u :: v :: us) = Char.ofNat (pairCode u v) :: decode us :=
  if_pos ⟨hu, hv⟩

/-- The units of a text decode to the text. -/
theorem decode_encode (cs : List Char) : decode (encode cs) = cs := by
  induction cs with
  | nil => rfl
  | cons c cs ih =>
      rw [encode_cons]
      have hc := toNat_lt_or c
      by_cases hlt : c.toNat < 0x10000
      · have hhigh : ¬ IsHigh c.toNat.toUInt16 := by
          rw [isHigh_iff, toNat_toUInt16 hlt]
          omega
        have hlow : ¬ IsLow c.toNat.toUInt16 := by
          rw [isLow_iff, toNat_toUInt16 hlt]
          omega
        rw [encodeChar_of_lt hlt, List.singleton_append, decode_cons_of_not_isHigh hhigh, ih,
          decodeUnit, if_neg (not_or.2 ⟨hhigh, hlow⟩), toNat_toUInt16 hlt, Char.ofNat_toNat]
      · obtain ⟨u, v, hunits, hu, hv, hcode⟩ := encodeChar_of_ge (Nat.not_lt.1 hlt)
        rw [hunits]
        show decode (u :: v :: encode cs) = c :: cs
        rw [decode_cons_cons_of_pair hu hv, ih, hcode, Char.ofNat_toNat]

/-- A text is known by its units. -/
theorem encode_injective : Function.Injective encode :=
  Function.LeftInverse.injective decode_encode

/-! ### Surrogates without a partner -/

/-- A unit that opens a pair is at the position. -/
def HighAt (us : List UInt16) (i : Nat) : Prop := ∃ u, us[i]? = some u ∧ IsHigh u

/-- A unit that closes a pair is at the position. -/
def LowAt (us : List UInt16) (i : Nat) : Prop := ∃ u, us[i]? = some u ∧ IsLow u

/-- The unit at the position opens a pair that the next one does not close, or closes one that the
unit before it does not open. -/
def Unpaired (us : List UInt16) (i : Nat) : Prop :=
  (HighAt us i ∧ ¬ LowAt us (i + 1)) ∨ (LowAt us i ∧ ∀ j, i = j + 1 → ¬ HighAt us j)

theorem highAt_zero : HighAt (u :: us) 0 ↔ IsHigh u := by
  simp [HighAt]

theorem lowAt_zero : LowAt (u :: us) 0 ↔ IsLow u := by
  simp [LowAt]

theorem not_lowAt_nil : ¬ LowAt [] i := by
  simp [LowAt]

/-- No other unit matters than the ones beside it. -/
theorem unpaired_cons_add_two : Unpaired (u :: us) (i + 2) ↔ Unpaired us (i + 1) := by
  simp only [Unpaired, Nat.succ.injEq, forall_eq']
  exact Iff.rfl

theorem unpaired_cons_succ (h : ¬ (IsHigh u ∧ LowAt us 0)) :
    Unpaired (u :: us) (i + 1) ↔ Unpaired us i := by
  rcases i with - | i
  · simp only [Unpaired, Nat.succ.injEq, forall_eq', Nat.zero_ne_add_one, false_imp_iff,
      implies_true, and_true]
    rw [highAt_zero]
    exact or_congr Iff.rfl (and_iff_left_iff_imp.2 fun hlow hhigh => h ⟨hhigh, hlow⟩)
  · exact unpaired_cons_add_two

theorem unpaired_cons_zero : Unpaired (u :: us) 0 ↔ (IsHigh u ∧ ¬ LowAt us 0) ∨ IsLow u := by
  rw [Unpaired, highAt_zero, lowAt_zero]
  simp only [Nat.zero_ne_add_one, false_imp_iff, implies_true, and_true]
  exact Iff.rfl

/-- The second sequence is the first one, with U+FFFD for each surrogate without its partner. -/
structure Repairs (us vs : List UInt16) : Prop where
  length : vs.length = us.length
  unpaired : ∀ i, Unpaired us i → vs[i]? = some 0xFFFD
  other : ∀ i, ¬ Unpaired us i → vs[i]? = us[i]?

namespace Repairs

theorem nil : Repairs [] [] := by
  refine ⟨rfl, fun i hi => ?_, fun _ _ => rfl⟩
  rcases hi with ⟨⟨u, hu, -⟩, -⟩ | ⟨⟨u, hu, -⟩, -⟩ <;> cases hu

/-- A unit that is not half of a pair is repaired by itself. -/
theorem cons (h : Repairs us vs) (hu : ¬ (IsHigh u ∧ LowAt us 0)) :
    Repairs (u :: us) ((if IsHigh u ∨ IsLow u then 0xFFFD else u) :: vs) := by
  have hzero : Unpaired (u :: us) 0 ↔ IsHigh u ∨ IsLow u := by
    rw [unpaired_cons_zero]
    exact or_congr (and_iff_left_of_imp fun hhigh hlow => hu ⟨hhigh, hlow⟩) Iff.rfl
  refine ⟨by rw [List.length_cons, List.length_cons, h.length], ?_, ?_⟩
  · intro i hi
    rcases i with - | i
    · rw [if_pos (hzero.1 hi)]
      rfl
    · exact h.unpaired i ((unpaired_cons_succ hu).1 hi)
  · intro i hi
    rcases i with - | i
    · rw [if_neg fun h => hi (hzero.2 h)]
      rfl
    · exact h.other i fun h => hi ((unpaired_cons_succ hu).2 h)

/-- A pair stays. -/
theorem pair (h : Repairs us vs) (hu : IsHigh u) (hv : IsLow v) :
    Repairs (u :: v :: us) (u :: v :: vs) := by
  have hnext : ¬ (IsHigh v ∧ LowAt us 0) := fun h => hv.not_isHigh h.1
  have hzero : ¬ Unpaired (u :: v :: us) 0 := by
    rw [unpaired_cons_zero, lowAt_zero]
    rintro (⟨-, hlow⟩ | hlow)
    · exact hlow hv
    · exact hlow.not_isHigh hu
  have hone : ¬ Unpaired (u :: v :: us) 1 := by
    rintro (⟨⟨w, hw, hhigh⟩, -⟩ | ⟨-, hlow⟩)
    · cases hw
      exact hv.not_isHigh hhigh
    · exact hlow 0 rfl (highAt_zero.2 hu)
  have hlater (i : Nat) : Unpaired (u :: v :: us) (i + 2) ↔ Unpaired us i :=
    unpaired_cons_add_two.trans (unpaired_cons_succ hnext)
  refine ⟨by simp only [List.length_cons, h.length], ?_, ?_⟩
  · intro i hi
    rcases i with - | - | i
    · exact absurd hi hzero
    · exact absurd hi hone
    · exact h.unpaired i ((hlater i).1 hi)
  · intro i hi
    rcases i with - | - | i
    · rfl
    · rfl
    · exact h.other i fun h => hi ((hlater i).2 h)

/-- There is one sequence that repairs another. -/
theorem unique {ws : List UInt16} (hv : Repairs us vs) (hw : Repairs us ws) : vs = ws := by
  refine List.ext_getElem? fun i => ?_
  by_cases hi : Unpaired us i
  · rw [hv.unpaired i hi, hw.unpaired i hi]
  · rw [hv.other i hi, hw.other i hi]

end Repairs

/-- What is decoded has the units that it was decoded from, with U+FFFD for each surrogate without
its partner. -/
theorem repairs_encode_decode (us : List UInt16) : Repairs us (encode (decode us)) := by
  induction us using decode.induct with
  | case1 => exact .nil
  | case2 u =>
      rw [decode, encode_cons, encodeChar_decodeUnit]
      exact Repairs.nil.cons fun h => not_lowAt_nil h.2
  | case3 u v us hpair ih =>
      obtain ⟨hu, hv⟩ := hpair
      rw [decode_cons_cons_of_pair hu hv, encode_cons, encodeChar_pairCode hu hv]
      exact ih.pair hu hv
  | case4 u v us hpair ih =>
      rw [decode, if_neg hpair, encode_cons, encodeChar_decodeUnit]
      exact ih.cons fun h => hpair ⟨h.1, lowAt_zero.1 h.2⟩

end CilMachine.Text.Utf16
