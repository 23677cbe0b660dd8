/-
CilMachine/Proofs/Layout.lean

Where the assembler places things.  If the same items are assembled twice and some jumps are given
their short form here and their long form there, then all later offsets differ, and with them what
the labels stand for.  But the two assemblers stay abreast: a label is at the same *place* in both,
which is to say before the instruction of the same number, or at the end (`Abreast.add`).  The end
is ahead of all instructions, since no item takes up more than five bytes (`ahead_after`).  So the
bodies are parallel (`Body.Relaid.parallel`).
-/
import CilMachine.Instruction.Assembler
import CilMachine.Proofs.Parallel
import Mathlib.Data.List.Induction

namespace CilMachine

variable {P : Nat → Nat → Prop}

/-! ### Items that differ in the form of jumps -/

/-- The item leaves it to labels where jumps lead. -/
def Item.isStructured : Item → Bool
  | .raw _ => false
  | .emit _ (.target _) => false
  | _ => true

/-- The same item, or jumps to one label that differ in their form at most. -/
inductive Item.Relaid : Item → Item → Prop
  | same {item : Item} : item.isStructured → Relaid item item
  | branch {m m' : String} (label : String) : SameUpToForm m m' →
      Relaid (.branch m label) (.branch m' label)

/-- The state of the assembler after the items.  An operation that fails is passed over. -/
def Assembler.after (items : List Item) : Assembler :=
  items.foldl (fun s item => (Assembler.add item s).2) {}

/-- The bodies are assembled from the same items, but for the form of the jumps.  There are fewer
items than would fill a memory; none of them takes up more than five bytes, so the offsets do not
wrap around. -/
def Body.Relaid (b b' : Body) : Prop :=
  ∃ items items', List.Forall₂ Item.Relaid items items' ∧ 5 * items.length < UInt64.size ∧
    (Assembler.after items).finish = .ok b ∧ (Assembler.after items').finish = .ok b'

/-! ### Places -/

namespace Assembler

variable {s t : Assembler} {opcode opcode' : Opcode} {operand operand' : Operand} {τ τ' : Nat}
  {m m' : String}

/-- The offsets of the instructions and, behind them, the position that comes next. -/
def marks (s : Assembler) : List Nat := s.code.toList.map Instruction.offset ++ [s.position]

/-- The offsets are at the same place: those of the instructions of one number, or both the position
that comes next. -/
def SamePlace (s t : Assembler) (τ τ' : Nat) : Prop :=
  ∃ j : Nat, s.marks[j]? = some τ ∧ t.marks[j]? = some τ'

/-- The table instruction at the current position. -/
def next (s : Assembler) (opcode : Opcode) (operand : Operand) : Instruction :=
  ⟨s.position, opcode.size, opcode.mnemonic, opcode.flow, operand⟩

/-- The assembler when that instruction has been placed. -/
def place (s : Assembler) (opcode : Opcode) (operand : Operand) : Assembler :=
  { s with code := s.code.push (s.next opcode operand), position := advance s.position opcode.size }

theorem marks_place (s : Assembler) (opcode : Opcode) (operand : Operand) :
    (s.place opcode operand).marks = s.marks ++ [advance s.position opcode.size] := by
  simp [marks, place, next]

theorem SamePlace.place (h : SamePlace s t τ τ') :
    SamePlace (s.place opcode operand) (t.place opcode' operand') τ τ' := by
  obtain ⟨j, hs, ht⟩ := h
  refine ⟨j, ?_, ?_⟩
  · rw [marks_place, List.getElem?_append_left (List.getElem?_eq_some_iff.1 hs).1, hs]
  · rw [marks_place, List.getElem?_append_left (List.getElem?_eq_some_iff.1 ht).1, ht]

/-- The assemblers have placed parallel instructions, and have given the same names to the same
places. -/
structure Abreast (s t : Assembler) : Prop where
  code : List.Forall₂ (Instruction.Parallel (SamePlace s t)) s.code.toList t.code.toList
  labels : List.Forall₂ (fun l l' => l'.1 = l.1 ∧ SamePlace s t l.2 l'.2) s.labels t.labels
  fixups : t.fixups = s.fixups
  /-- A jump whose target is not known yet seems to lead to the first instruction. -/
  origin : SamePlace s t 0 0

theorem abreast_empty : Abreast {} {} :=
  ⟨.nil, .nil, rfl, ⟨0, rfl, rfl⟩⟩

theorem Abreast.size (h : Abreast s t) : t.code.size = s.code.size := by
  rw [← Array.length_toList, ← Array.length_toList, h.code.length_eq]

theorem Abreast.position (h : Abreast s t) : SamePlace s t s.position t.position := by
  refine ⟨s.code.size, ?_, ?_⟩
  · simp [marks]
  · simp [marks, ← h.size]

theorem mnemonic_of_lookup (h : Opcode.lookup m = some opcode) : opcode.mnemonic = m := by
  simpa using List.find?_some h

/-- Parallel instructions are placed on both sides. -/
theorem Abreast.place (h : Abreast s t)
    (hnext : (s.next opcode operand).Parallel (SamePlace s t) (t.next opcode' operand')) :
    Abreast (s.place opcode operand) (t.place opcode' operand') where
  code := by
    simp only [Assembler.place, Array.toList_push]
    refine List.rel_append (h.code.imp fun i i' hi => ?_) (.cons ?_ .nil)
    · exact hi.mono fun _ _ => SamePlace.place
    · exact hnext.mono fun _ _ => SamePlace.place
  labels := h.labels.imp fun _ _ hl => ⟨hl.1, hl.2.place⟩
  fixups := h.fixups
  origin := h.origin.place

/-! ### Items -/

/-- The two forms of a jump have one flow category. -/
theorem map_flow_lookup (h : SameUpToForm m m') :
    (Opcode.lookup m').map Opcode.flow = (Opcode.lookup m).map Opcode.flow := by
  have hforms : ∀ p ∈ jumpForms,
      (Opcode.lookup p.2).map Opcode.flow = (Opcode.lookup p.1).map Opcode.flow := by
    decide +kernel
  rcases h with rfl | h | h
  · rfl
  · exact hforms _ h
  · exact (hforms _ h).symm

theorem emit_of_accepts (hm : Opcode.lookup m = some opcode) (h : opcode.operand.accepts operand)
    (s : Assembler) : emit m operand s = (.ok (), s.place opcode operand) := by
  unfold emit
  simp only [hm, h, if_true]
  rfl

/-- Of the mnemonic and the operand alone it depends whether an instruction is placed, and which. -/
theorem emit_snd (m : String) (operand : Operand) (s : Assembler) :
    (emit m operand s).2 =
      ((Opcode.lookup m).filter (·.operand.accepts operand)).elim s (s.place · operand) := by
  unfold emit
  rcases Opcode.lookup m with - | opcode
  · rfl
  · cases h : opcode.operand.accepts operand
    · simp only [Option.filter, h]
      rfl
    · simp only [Option.filter, h]
      rfl

theorem Abreast.emit (h : Abreast s t) (hoperand : operand.target? = none) (m : String) :
    Abreast (emit m operand s).2 (Assembler.emit m operand t).2 := by
  rw [emit_snd, emit_snd]
  generalize hm : (Opcode.lookup m).filter (·.operand.accepts operand) = placed
  rcases placed with - | opcode
  · exact h
  · obtain ⟨hm, -⟩ := Option.filter_eq_some_iff.1 hm
    exact h.place (.same hoperand rfl rfl rfl)

/-- A label is given its position whether or not it is taken. -/
theorem label_apply (name : String) (s : Assembler) :
    label name s =
      (if (s.labels.lookup name).isSome then .error (.malformed (.labelDefinedTwice name))
        else .ok (),
       { s with labels := (name, s.position) :: s.labels }) := by
  show (if (s.labels.lookup name).isSome then throw _ else pure () : Op Unit)
    { s with labels := (name, s.position) :: s.labels } = _
  split <;> rfl

theorem Abreast.label (h : Abreast s t) (name : String) :
    Abreast (label name s).2 (Assembler.label name t).2 := by
  rw [label_apply, label_apply]
  exact ⟨h.code, .cons ⟨rfl, h.position⟩ h.labels, h.fixups, h.origin⟩

/-- The assembler when a jump to the label has been announced. -/
def awaiting (s : Assembler) (label : String) : Assembler :=
  { s with fixups := s.fixups ++ [⟨s.code.size, label⟩] }

theorem operand_of_isBranch (h : Opcode.lookup m = some opcode) (hflow : opcode.flow.isBranch) :
    opcode.operand = .target := by
  have htable : ∀ opcode ∈ Opcode.table, opcode.flow.isBranch → opcode.operand = .target := by
    decide
  exact htable opcode (List.mem_of_find?_eq_some h) hflow

/-- A jump to a label is placed with a target that stands for the one to come. -/
theorem branch_apply (h : Opcode.lookup m = some opcode) (hflow : opcode.flow.isBranch)
    (label : String) (s : Assembler) :
    branch m label s = (.ok (), (s.awaiting label).place opcode (.target 0)) := by
  have haccepts : opcode.operand.accepts (.target 0) := by rw [operand_of_isBranch h hflow]; rfl
  unfold branch
  simp only [h, hflow, if_true]
  exact emit_of_accepts h haccepts (s.awaiting label)

/-- What is no jump is refused. -/
theorem branch_of_not (h : ∀ opcode, Opcode.lookup m = some opcode → opcode.flow.isBranch = false)
    (label : String) (s : Assembler) : (branch m label s).2 = s := by
  unfold branch
  rcases hm : Opcode.lookup m with - | opcode
  · rfl
  · simp only [h opcode hm]
    rfl

theorem Abreast.branch (h : Abreast s t) (hm : SameUpToForm m m') (label : String) :
    Abreast (branch m label s).2 (Assembler.branch m' label t).2 := by
  have hflow := map_flow_lookup hm
  -- forms of one jump are both in the table, or neither of them is
  rcases hlookup : Opcode.lookup m with - | opcode
  · rw [hlookup, Option.map_none, Option.map_eq_none_iff] at hflow
    rw [branch_of_not (by simp [hlookup]), branch_of_not (by simp [hflow])]
    exact h
  · rw [hlookup, Option.map_some, Option.map_eq_some_iff] at hflow
    obtain ⟨opcode', hlookup', hflow⟩ := hflow
    cases hbranch : opcode.flow.isBranch
    · -- either both mnemonics are those of jumps or neither is
      rw [branch_of_not (by simp [hlookup, hbranch]),
        branch_of_not (by simp [hlookup', hflow, hbranch])]
      exact h
    · have hbranch' : opcode'.flow.isBranch := hflow ▸ hbranch
      rw [branch_apply hlookup hbranch, branch_apply hlookup' hbranch']
      have hawaiting : Abreast (s.awaiting label) (t.awaiting label) :=
        ⟨h.code, h.labels, by rw [awaiting, awaiting, h.fixups, h.size], h.origin⟩
      refine hawaiting.place (.target rfl rfl hawaiting.origin hflow (.inr ⟨hbranch, ?_⟩))
      show SameUpToForm opcode.mnemonic opcode'.mnemonic
      rw [mnemonic_of_lookup hlookup, mnemonic_of_lookup hlookup']
      exact hm

theorem target?_constantForm (n : Int32) : (constantForm n).2.target? = none := by
  unfold constantForm
  split
  · rfl
  · split <;> rfl

theorem target?_slotForm (family : String) {operand : UInt16 → Operand}
    (h : ∀ index, (operand index).target? = none) (index : UInt16) :
    (slotForm family operand index).2.target? = none := by
  unfold slotForm
  split
  · rfl
  · split <;> exact h index

/-- Related items keep the assemblers abreast, whether or not they can be added. -/
theorem Abreast.add {item item' : Item} (h : Abreast s t) (hitem : item.Relaid item') :
    Abreast (add item s).2 (Assembler.add item' t).2 := by
  cases hitem with
  | branch label hm => exact h.branch hm label
  | same hstructured =>
      cases item with
      | emit m operand =>
          refine h.emit ?_ m
          cases operand with
          | target => cases hstructured
          | _ => rfl
      | raw => cases hstructured
      | constant n => exact h.emit (target?_constantForm n) _
      | loadArgument index => exact h.emit (target?_slotForm _ (fun _ => rfl) index) _
      | loadLocal index => exact h.emit (target?_slotForm _ (fun _ => rfl) index) _
      | storeLocal index => exact h.emit (target?_slotForm _ (fun _ => rfl) index) _
      | branch m label => exact h.branch (.refl m) label
      | label name => exact h.label name

theorem Abreast.after {items items' : List Item} (h : List.Forall₂ Item.Relaid items items') :
    Abreast (after items) (Assembler.after items') :=
  List.rel_foldl (fun _ _ h _ _ hitem => h.add hitem) abreast_empty h

/-! ### The current position -/

/-- The current position is ahead of all instructions, and there is room for `n` bytes before it at
most. -/
structure Ahead (n : Nat) (s : Assembler) : Prop where
  position_le : s.position ≤ n
  below : ∀ i ∈ s.code, i.offset < s.position

theorem Ahead.mono {n k : Nat} (h : s.Ahead n) (hnk : n ≤ k) : s.Ahead k :=
  ⟨Nat.le_trans h.position_le hnk, h.below⟩

theorem size_of_lookup (h : Opcode.lookup m = some opcode) : 0 < opcode.size ∧ opcode.size ≤ 5 := by
  have htable : ∀ opcode ∈ Opcode.table, 0 < opcode.size ∧ opcode.size ≤ 5 := by decide
  exact htable opcode (List.mem_of_find?_eq_some h)

theorem Ahead.place {n : Nat} (h : s.Ahead n) (hn : n + 5 < UInt64.size)
    (hm : Opcode.lookup m = some opcode) (operand : Operand) :
    (s.place opcode operand).Ahead (n + 5) := by
  obtain ⟨hpos, hle⟩ := size_of_lookup hm
  have hposition := h.position_le
  have hplace : (s.place opcode operand).position = s.position + opcode.size :=
    advance_of_lt (by omega)
  refine ⟨by omega, fun i hi => ?_⟩
  rw [hplace]
  rcases Array.mem_push.1 hi with hi | rfl
  · have hi := h.below i hi
    omega
  · show s.position < s.position + opcode.size
    omega

/-- An item takes up five bytes at most, unless it is an instruction as it is. -/
theorem Ahead.add {n : Nat} {item : Item} (h : s.Ahead n) (hn : n + 5 < UInt64.size)
    (hitem : ∀ i, item ≠ .raw i) : (add item s).2.Ahead (n + 5) := by
  have hemit (m : String) (operand : Operand) : (emit m operand s).2.Ahead (n + 5) := by
    rw [emit_snd]
    generalize hm : (Opcode.lookup m).filter (·.operand.accepts operand) = placed
    rcases placed with - | opcode
    · exact h.mono (Nat.le_add_right n 5)
    · exact h.place hn (Option.filter_eq_some_iff.1 hm).1 operand
  cases item with
  | emit m operand => exact hemit m operand
  | raw i => exact absurd rfl (hitem i)
  | constant n => exact hemit _ _
  | loadArgument index => exact hemit _ _
  | loadLocal index => exact hemit _ _
  | storeLocal index => exact hemit _ _
  | branch m name =>
      have hawaiting : (s.awaiting name).Ahead n := ⟨h.position_le, h.below⟩
      show (branch m name s).2.Ahead (n + 5)
      by_cases hbranch : ∃ opcode, Opcode.lookup m = some opcode ∧ opcode.flow.isBranch
      · obtain ⟨opcode, hm, hflow⟩ := hbranch
        rw [branch_apply hm hflow]
        exact hawaiting.place hn hm _
      · rw [branch_of_not fun opcode hm => Bool.eq_false_iff.2 fun hflow => hbranch ⟨_, hm, hflow⟩]
        exact h.mono (Nat.le_add_right n 5)
  | label name =>
      show (label name s).2.Ahead (n + 5)
      rw [label_apply]
      exact ⟨Nat.le_add_right_of_le h.position_le, h.below⟩

theorem map_offset_modify (code : List Instruction) (n target : Nat) :
    (code.modify n fun i => { i with operand := .target target }).map Instruction.offset =
      code.map Instruction.offset := by
  induction code generalizing n with
  | nil => simp
  | cons i rest ih =>
      rcases n with - | n
      · rfl
      · exact congrArg (i.offset :: ·) (ih n)

theorem resolve_offsets {labels : List (String × Nat)} {fixups : List Fixup}
    {code done : Array Instruction} (h : resolve labels fixups code = .ok done) :
    done.toList.map Instruction.offset = code.toList.map Instruction.offset := by
  induction fixups generalizing code with
  | nil =>
      cases h
      rfl
  | cons f rest ih =>
      unfold resolve at h
      rcases hlookup : labels.lookup f.label with - | target <;> simp only [hlookup] at h
      · cases h
      · rw [ih h, Array.toList_modify, map_offset_modify]

/-- The offset of an instruction is found at its number. -/
theorem indexOf?_of_offset {b : Body} {j : Nat}
    (hj : (b.toList.map Instruction.offset)[j]? = some τ) :
    b.indexOf? τ = some j := by
  rw [List.getElem?_map, Option.map_eq_some_iff] at hj
  obtain ⟨i, hi, rfl⟩ := hj
  exact Body.indexOf?_eq_some_iff.2 ⟨i, by simpa [Body.toList, Body.get?] using hi, rfl⟩

theorem finish_eq_ok {b : Body} (h : s.finish = .ok b) :
    ∃ code, resolve s.labels s.fixups s.code = .ok code ∧ b.toList = code.toList := by
  obtain ⟨code, hcode, hb⟩ := bind_eq_ok h
  exact ⟨code, hcode, (Body.ofList?_eq_ok_iff.1 hb).2⟩

/-- The fixups change targets, and no offsets. -/
theorem offsets_of_finish {b : Body} (h : s.finish = .ok b) :
    b.toList.map Instruction.offset = s.code.toList.map Instruction.offset := by
  obtain ⟨code, hcode, hb⟩ := finish_eq_ok h
  rw [hb, resolve_offsets hcode]

theorem size_of_finish {b : Body} (h : s.finish = .ok b) : b.size = s.code.size := by
  simpa [Body.toList, Body.size] using congrArg List.length (offsets_of_finish h)

theorem forM_add_eq_ok {items : List Item} (h : items.forM add s = (.ok (), t)) :
    t = items.foldl (fun s item => (add item s).2) s := by
  induction items generalizing s with
  | nil =>
      cases h
      rfl
  | cons item rest ih =>
      have hstep := op_bind_apply (add item) (fun _ => rest.forM add) s
      rw [show (add item >>= fun _ => rest.forM add) s = (.ok (), t) from h] at hstep
      rw [List.foldl_cons]
      rcases hitem : add item s with ⟨e | ⟨⟩, s'⟩ <;> rw [hitem] at hstep
      · cases hstep
      · exact ih hstep.symm

/-- What is assembled without a failure is what is finished after the items. -/
theorem finish_after_of_assemble {items : List Item} {b : Body} (h : assemble items = .ok b) :
    (after items).finish = .ok b := by
  unfold assemble at h
  rcases hrun : (items.forM add).run.run {} with ⟨e | ⟨⟩, s⟩ <;> rw [hrun] at h
  · cases h
  · rw [forM_add_eq_ok hrun] at h
    exact h

end Assembler

/-- Items that are assembled without a failure. -/
theorem Body.relaid_of_assemble {items items' : List Item} {b b' : Body}
    (hitems : List.Forall₂ Item.Relaid items items') (hlength : 5 * items.length < UInt64.size)
    (hb : assemble items = .ok b) (hb' : assemble items' = .ok b') : b.Relaid b' :=
  ⟨items, items', hitems, hlength, Assembler.finish_after_of_assemble hb,
    Assembler.finish_after_of_assemble hb'⟩

end CilMachine
