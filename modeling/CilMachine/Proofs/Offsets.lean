/-
CilMachine/Proofs/Offsets.lean

The offsets of a body as an index of its instructions.  Looking for an offset goes through the
instructions; the same is found by a map that is made in one pass over them, which fails at an
offset that it has already (`OffsetMap.ofList?`).  While the map is made it is the inverse of the
instructions that have been entered (`Inverts`): one more is entered just in case its offset is new
(`enter_eq`), hence by induction all of them just in case no offset occurs twice (`foldlM_enter`).

So a jump goes on at the one instruction that has the offset of its target, and fails where there is
none (`Machine.runBody_of_jump`).
-/
import CilMachine.Proofs.FrameDiscipline

namespace CilMachine

/-! ### The offset map -/

/-- Positions by offset. -/
abbrev OffsetMap := Std.HashMap Nat Nat

namespace OffsetMap

/-- Enters the position of an instruction, unless there is one at its offset. -/
def enter (map : OffsetMap) (entry : Instruction × Nat) : Except Failure OffsetMap :=
  if entry.1.offset ∈ map then .error (.malformed (.duplicateOffset entry.1.offset))
  else .ok (map.insert entry.1.offset entry.2)

/-- The map of all instructions, entered one after the other. -/
def ofList? (is : List Instruction) : Except Failure OffsetMap :=
  is.zipIdx.foldlM enter ∅

/-- The map has the positions of the instructions by their offsets, and nothing else. -/
def Inverts (map : OffsetMap) (is : List Instruction) : Prop :=
  ∀ offset p, map[offset]? = some p ↔ ∃ i : Instruction, is[p]? = some i ∧ i.offset = offset

variable {map : OffsetMap} {is done : List Instruction} {i : Instruction}

theorem inverts_empty : Inverts ∅ [] := by
  intro offset p
  simp

theorem Inverts.mem_iff (h : map.Inverts is) {offset : Nat} :
    offset ∈ map ↔ offset ∈ is.map Instruction.offset := by
  rw [Std.HashMap.mem_iff_isSome_getElem?, Option.isSome_iff_exists, List.mem_map]
  constructor
  · rintro ⟨p, hp⟩
    obtain ⟨i, hi, hoffset⟩ := (h offset p).1 hp
    exact ⟨i, List.mem_of_getElem? hi, hoffset⟩
  · rintro ⟨i, hi, hoffset⟩
    obtain ⟨p, hp⟩ := List.mem_iff_getElem?.1 hi
    exact ⟨p, (h offset p).2 ⟨i, hp, hoffset⟩⟩

/-- An instruction with a new offset is found from then on, and the others as before. -/
theorem Inverts.insert (h : map.Inverts done) (hnew : i.offset ∉ map) :
    Inverts (map.insert i.offset done.length) (done ++ [i]) := by
  intro offset p
  have hget (j : Instruction) :
      (done ++ [i])[p]? = some j ↔ done[p]? = some j ∨ p = done.length ∧ i = j := by grind
  simp only [hget, or_and_right, exists_or, ← h offset p, Std.HashMap.getElem?_insert]
  rcases eq_or_ne i.offset offset with rfl | hne
  · rw [if_pos (beq_self_eq_true _), Std.HashMap.getElem?_eq_none hnew]
    grind
  · rw [if_neg (by simpa using hne)]
    grind

/-- One more instruction is refused just in case its offset has been entered. -/
theorem enter_eq (h : map.Inverts done) (i : Instruction) :
    (i.offset ∈ done.map Instruction.offset ∧
      map.enter (i, done.length) = .error (.malformed (.duplicateOffset i.offset))) ∨
    (i.offset ∉ done.map Instruction.offset ∧
      ∃ map' : OffsetMap, map.enter (i, done.length) = .ok map' ∧ map'.Inverts (done ++ [i])) := by
  rw [← h.mem_iff, enter]
  rcases Classical.em (i.offset ∈ map) with hmem | hmem
  · exact .inl ⟨hmem, if_pos hmem⟩
  · exact .inr ⟨hmem, _, if_neg hmem, h.insert hmem⟩

/-- Of the instructions that are still to come, the first one with an offset that has been entered
is refused; if there is none, the map is the inverse of them all. -/
theorem foldlM_enter (h : map.Inverts done) (is : List Instruction) (seen : List Nat)
    (hseen : ∀ n, n ∈ seen ↔ n ∈ done.map Instruction.offset) :
    match firstRepeated seen (is.map Instruction.offset) with
    | some offset => (is.zipIdx done.length).foldlM enter map =
        .error (.malformed (.duplicateOffset offset))
    | none => ∃ map' : OffsetMap, (is.zipIdx done.length).foldlM enter map = .ok map' ∧
        map'.Inverts (done ++ is) := by
  induction is generalizing map done seen with
  | nil => exact ⟨map, rfl, by rwa [List.append_nil]⟩
  | cons i rest ih =>
      rw [List.map_cons, firstRepeated, List.zipIdx_cons, List.foldlM_cons]
      rcases enter_eq h i with ⟨hmem, hrun⟩ | ⟨hmem, map', hrun, h'⟩
      · rw [hrun, if_pos ((hseen _).2 hmem)]
        rfl
      · rw [hrun, if_neg fun hm => hmem ((hseen _).1 hm)]
        -- what has been seen is still what has been entered
        have hnext := ih h' (i.offset :: seen) (by simp [hseen, or_comm])
        rw [List.length_append, List.append_assoc] at hnext
        exact hnext

/-- The map and the body fail alike, or else the map finds what is found by looking through the
body. -/
def Agrees : Except Failure OffsetMap → Except Failure Body → Prop
  | .error e, .error e' => e = e'
  | .ok map, .ok b => ∀ offset, map[offset]? = b.indexOf? offset
  | _, _ => False

theorem agrees_ofList? (is : List Instruction) : Agrees (ofList? is) (Body.ofList? is) := by
  have hrun := foldlM_enter inverts_empty is [] (fun _ => Iff.rfl)
  rcases hb : Body.ofList? is with e | b
  · obtain ⟨offset, hoffset, rfl⟩ := Body.ofList?_eq_error_iff.1 hb
    rw [hoffset] at hrun
    rw [show ofList? is = _ from hrun]
    rfl
  · obtain ⟨hnodup, rfl⟩ := Body.ofList?_eq_ok_iff.1 hb
    rw [firstRepeated_eq_none_iff.2 ⟨hnodup, by simp⟩] at hrun
    obtain ⟨map, hmap, hinverts⟩ := hrun
    rw [show ofList? b.toList = _ from hmap]
    intro offset
    refine Option.ext fun p => ?_
    rw [hinverts, Body.indexOf?_eq_some_iff, Body.get?, ← Array.getElem?_toList]
    rfl

end OffsetMap

/-! ### Jumps -/

namespace Machine

variable {ctx : Context} {step : Instruction → Run Outcome} {m : Method} {b : Body}
  {index target fuel : Nat} {s v : Machine} {i : Instruction}

/-- The run of the body comes to the instruction at the position, and the instruction jumps. -/
structure Jumps (ctx : Context) (step : Instruction → Run Outcome) (m : Method) (b : Body)
    (index : Nat) (s : Machine) (i : Instruction) (target : Nat) (v : Machine) : Prop where
  get : b.get? index = some i
  jump : ∃ u, beginInstruction ctx m i s = (.ok (), u) ∧ step i u = some (.ok (.jump target), v)

theorem runBody_of_jump (h : Jumps ctx step m b index s i target v) (fuel : Nat) :
    runBody ctx step m b (fuel + 1) index s = match b.indexOf? target with
      | some p => runBody ctx step m b fuel p v
      | none => some (.error ((Failure.execution (.invalidBranchTarget target)).locate (site m i)),
          v) := by
  obtain ⟨hget, u, hbegin, hjump⟩ := h
  rw [runBody_of_get hget hbegin, hjump]
  simp only [onward]
  rcases b.indexOf? target with - | p <;> rfl

/-- **The offsets are the inverse of the instructions.**  A list of instructions makes a body just
in case no two of them have one offset; the map of the offsets that is made in one pass over the
list fails alike, and finds the same.  In the body, a position is found by an offset if and only if
there is an instruction at this position that has this offset.  So a jump goes on at an instruction
that has the offset of its target, which is the only one, and it fails because of its target just in
case there is none. -/
theorem offsets_inverse (is : List Instruction) :
    ((∃ b, Body.ofList? is = .ok b) ↔ (is.map Instruction.offset).Nodup) ∧
    OffsetMap.Agrees (OffsetMap.ofList? is) (Body.ofList? is) ∧
    ∀ b, Body.ofList? is = .ok b →
      (∀ offset p, b.indexOf? offset = some p ↔
        ∃ i : Instruction, is[p]? = some i ∧ i.offset = offset) ∧
      ∀ ctx step m index s i target v, Jumps ctx step m b index s i target v →
        (∀ p j, is[p]? = some j → j.offset = target →
          (∀ q k, is[q]? = some k → k.offset = target → q = p) ∧
          ∀ fuel, runBody ctx step m b (fuel + 1) index s = runBody ctx step m b fuel p v) ∧
        ((∀ fuel, runBody ctx step m b (fuel + 1) index s = some
            (.error ((Failure.execution (.invalidBranchTarget target)).locate (site m i)), v)) ↔
          ∀ j ∈ is, j.offset ≠ target) := by
  refine ⟨?_, OffsetMap.agrees_ofList? is, fun b hb => ?_⟩
  · constructor
    · rintro ⟨b, hb⟩
      exact (Body.ofList?_eq_ok_iff.1 hb).1
    · intro hnodup
      exact ⟨⟨is.toArray, hnodup⟩, Body.ofList?_eq_ok_iff.2 ⟨hnodup, rfl⟩⟩
  obtain ⟨-, rfl⟩ := Body.ofList?_eq_ok_iff.1 hb
  have hget (p : Nat) : b.toList[p]? = b.get? p := Array.getElem?_toList
  have hinverse (offset p : Nat) : b.indexOf? offset = some p ↔
      ∃ i : Instruction, b.toList[p]? = some i ∧ i.offset = offset := by
    rw [hget]
    exact Body.indexOf?_eq_some_iff
  refine ⟨hinverse, fun ctx step m index s i target v hjump => ⟨?_, ?_⟩⟩
  · intro p j hj htarget
    refine ⟨fun q k hk htarget' => ?_, fun fuel => ?_⟩
    · rw [hget] at hj hk
      exact Body.offset_inj hk hj (htarget'.trans htarget.symm)
    · rw [runBody_of_jump hjump, (hinverse target p).2 ⟨j, hj, htarget⟩]
  · rw [← Body.indexOf?_eq_none_iff]
    constructor
    · intro hfails
      rcases hfound : b.indexOf? target with - | p
      · rfl
      · -- with no steps left the run would not have ended
        have hrun := hfails 0
        rw [runBody_of_jump hjump, hfound] at hrun
        cases hrun
    · intro hnone fuel
      rw [runBody_of_jump hjump, hnone]

end Machine

namespace Sample

/-- A jump back to the last instruction, which jumps into the instruction between. -/
def straying : List Instruction :=
  [⟨40, 5, "br", .unconditionalBranch, .target 3⟩, ⟨7, 5, "ldstr", .sequential, .string "skipped"⟩,
    ⟨3, 2, "br.s", .unconditionalBranch, .target 8⟩]

/-- The machine when so many instructions have been executed, none of which has changed anything
else. -/
def strayed (executed : Nat) : Machine := { machine with stats := { instructions := executed } }

end Sample

namespace Machine

/-- The first jump goes on at the third instruction, and the second one fails. -/
theorem offsets_inverse_straying :
    ∃ b, Body.ofList? Sample.straying = .ok b ∧ b.indexOf? 3 = some 2 ∧ b.indexOf? 8 = none ∧
      (∀ fuel,
        runBody Sample.context (step Sample.context 0) Sample.seven b (fuel + 1) 0 Sample.machine =
          runBody Sample.context (step Sample.context 0) Sample.seven b fuel 2 (Sample.strayed 1)) ∧
      ∀ fuel,
        runBody Sample.context (step Sample.context 0) Sample.seven b (fuel + 1) 2
            (Sample.strayed 1) =
          some (.error ((Failure.execution (.invalidBranchTarget 8)).locate
            ⟨Sample.seven.fullName, 3, "br.s"⟩), Sample.strayed 2) := by
  obtain ⟨-, -, hoffsets⟩ := offsets_inverse Sample.straying
  let b : Body := ⟨Sample.straying.toArray, by decide⟩
  have hb : Body.ofList? Sample.straying = .ok b :=
    Body.ofList?_eq_ok_iff.2 ⟨by decide, rfl⟩
  obtain ⟨hinverse, hrun⟩ := hoffsets b hb
  have hfirst : Jumps Sample.context (step Sample.context 0) Sample.seven b 0 Sample.machine
      ⟨40, 5, "br", .unconditionalBranch, .target 3⟩ 3 (Sample.strayed 1) := ⟨rfl, _, rfl, rfl⟩
  have hlast : Jumps Sample.context (step Sample.context 0) Sample.seven b 2 (Sample.strayed 1)
      ⟨3, 2, "br.s", .unconditionalBranch, .target 8⟩ 8 (Sample.strayed 2) := ⟨rfl, _, rfl, rfl⟩
  refine ⟨b, hb, (hinverse 3 2).2 ⟨_, rfl, rfl⟩, ?_, ?_, ?_⟩
  · exact Body.indexOf?_eq_none_iff.2 (by decide)
  · exact ((hrun _ _ _ _ _ _ _ _ hfirst).1 2 _ rfl rfl).2
  · exact (hrun _ _ _ _ _ _ _ _ hlast).2.2 (by decide)

end Machine

end CilMachine
