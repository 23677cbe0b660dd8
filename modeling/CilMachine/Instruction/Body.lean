/-
CilMachine/Instruction/Body.lean

Method bodies: instructions at pairwise distinct byte offsets, in the order in which they run.  A
jump names an offset; `indexOf?` finds the instruction there.  `ofList?_eq_ok_iff` says that exactly
the lists without a repeated offset make a body, and `indexOf?_eq_some_iff` that positions are found
by offsets and by nothing else.
-/
import CilMachine.Error

namespace CilMachine

/-- The first member of the list that occurs earlier in it or in `seen`. -/
def firstRepeated {α : Type} [DecidableEq α] (seen : List α) : List α → Option α
  | [] => none
  | n :: rest => if n ∈ seen then some n else firstRepeated (n :: seen) rest

theorem firstRepeated_eq_none_iff {α : Type} [DecidableEq α] {seen ns : List α} :
    firstRepeated seen ns = none ↔ ns.Nodup ∧ ∀ n ∈ ns, n ∉ seen := by
  induction ns generalizing seen with
  | nil => simp [firstRepeated]
  | cons n rest ih =>
    rw [firstRepeated]
    split
    · simp_all
    · rw [ih]; grind

/-- The instructions of a method. -/
structure Body where
  code : Array Instruction
  offsets_nodup : (code.toList.map Instruction.offset).Nodup

namespace Body

/-- The body without instructions. -/
def empty : Body := ⟨#[], List.nodup_nil⟩

instance : Inhabited Body := ⟨empty⟩

/-- Makes a body, unless two instructions share an offset. -/
def ofList? (is : List Instruction) : Except Failure Body :=
  match h : firstRepeated [] (is.map Instruction.offset) with
  | some offset => .error (.malformed (.duplicateOffset offset))
  | none => .ok ⟨is.toArray, (firstRepeated_eq_none_iff.1 h).1⟩

/-- The instructions in order. -/
def toList (b : Body) : List Instruction := b.code.toList

/-- The number of instructions. -/
def size (b : Body) : Nat := b.code.size

/-- Whether there are no instructions. -/
def isEmpty (b : Body) : Bool := b.code.isEmpty

/-- The instruction at a position. -/
def get? (b : Body) (index : Nat) : Option Instruction := b.code[index]?

/-- The position of the instruction at a byte offset. -/
def indexOf? (b : Body) (offset : Nat) : Option Nat :=
  b.code.findIdx? (·.offset == offset)

theorem ofList?_eq_ok_iff {is : List Instruction} {b : Body} :
    ofList? is = .ok b ↔ (is.map Instruction.offset).Nodup ∧ b.toList = is := by
  unfold ofList?
  constructor
  · intro h
    split at h
    · cases h
    · next hnone =>
      cases h
      exact ⟨(firstRepeated_eq_none_iff.1 hnone).1, rfl⟩
  · rintro ⟨hnd, rfl⟩
    split
    · next hsome =>
      rw [firstRepeated_eq_none_iff.2 ⟨hnd, by simp⟩] at hsome
      cases hsome
    · cases b; rfl

/-- Where no body is made, it is for the first offset that has occurred before. -/
theorem ofList?_eq_error_iff {is : List Instruction} {e : Failure} :
    ofList? is = .error e ↔ ∃ offset, firstRepeated [] (is.map Instruction.offset) = some offset ∧
      e = .malformed (.duplicateOffset offset) := by
  unfold ofList?
  split
  · next hsome => simp [hsome, eq_comm]
  · next hnone => simp [hnone]

/-- Of one offset there is one instruction. -/
theorem offset_inj {b : Body} {p q : Nat} {i j : Instruction} (hi : b.get? p = some i)
    (hj : b.get? q = some j) (h : i.offset = j.offset) : p = q := by
  have hoffset {r : Nat} {k : Instruction} (hk : b.get? r = some k) :
      (b.code.toList.map Instruction.offset)[r]? = some k.offset := by
    rw [List.getElem?_map, Array.getElem?_toList, ← get?, hk, Option.map_some]
  obtain ⟨hp, -⟩ := List.getElem?_eq_some_iff.1 (hoffset hi)
  refine (List.getElem?_inj hp b.offsets_nodup).1 ?_
  rw [hoffset hi, hoffset hj, h]

theorem indexOf?_eq_some_iff {b : Body} {offset p : Nat} :
    b.indexOf? offset = some p ↔ ∃ i, b.get? p = some i ∧ i.offset = offset := by
  rw [indexOf?, Array.findIdx?_eq_some_iff_getElem]
  constructor
  · rintro ⟨hp, hoffset, -⟩
    exact ⟨_, Array.getElem?_eq_getElem hp, eq_of_beq hoffset⟩
  · rintro ⟨i, hi, hoffset⟩
    obtain ⟨hp, hget⟩ := Array.getElem?_eq_some_iff.1 hi
    refine ⟨hp, by rw [hget]; exact beq_iff_eq.2 hoffset, fun q hq hfirst => ?_⟩
    have hget' := Array.getElem?_eq_getElem (Nat.lt_trans hq hp)
    exact Nat.ne_of_lt hq (offset_inj hget' hi ((eq_of_beq hfirst).trans hoffset.symm))

theorem indexOf?_eq_none_iff {b : Body} {offset : Nat} :
    b.indexOf? offset = none ↔ ∀ i ∈ b.toList, i.offset ≠ offset := by
  simp only [indexOf?, toList, Array.findIdx?_eq_none_iff, beq_eq_false_iff_ne,
    Array.mem_toList_iff]

end Body

end CilMachine
