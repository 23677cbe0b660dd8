/-
CilMachine/Proofs/Placement.lean

Where the assembler places what it is given, and where the jumps of the finished body lead.  What an
item that is accepted adds to the code, the labels and the announced jumps is said once, of a single
item (`adds_of_add`).  A run goes through the assemblers *before* its items, one item from each to
the next; so by induction on the number of items (`before_induction`) the current position is as far
as the code reaches, a label names the position of the assembler before it, and the announced jumps
are the items that jump, each with the number of its instruction.  No two of them have one number,
hence finishing gives every jump its own target and leaves all else alone (`placement`).

The position is that far only while the code *fits* into 64-bit offsets.  An instruction that is
taken as it is can reach beyond them, and then what follows is not placed behind it
(`placement_overlaps`).
-/
import CilMachine.Proofs.Assembly
import Mathlib.Data.List.Chain

namespace CilMachine

/-! ### Items -/

namespace Item

/-- The mnemonic and the operand that the item takes from the opcode table.  A jump to a label has
the target zero until the body is finished. -/
def form? : Item → Option (String × Operand)
  | emit mnemonic operand => some (mnemonic, operand)
  | constant n => some (constantForm n)
  | loadArgument index => some (slotForm "ldarg" .argument index)
  | loadLocal index => some (slotForm "ldloc" .localSlot index)
  | storeLocal index => some (slotForm "stloc" .localSlot index)
  | branch mnemonic _ => some (mnemonic, .target 0)
  | raw _ | label _ => none

/-- The label that the item jumps to. -/
def jump? : Item → Option String
  | branch _ name => some name
  | _ => none

/-- The label that the item defines. -/
def label? : Item → Option String
  | label name => some name
  | _ => none

/-- The instruction that the item becomes at a position. -/
def instruction? (position : Nat) : Item → Option Instruction
  | raw i => some i
  | item => item.form?.bind fun form => (Opcode.lookup form.1).map fun opcode =>
      ⟨position, opcode.size, opcode.mnemonic, opcode.flow, form.2⟩

/-- The position behind the item, if it is added at a position. -/
def behind (position : Nat) : Item → Nat
  | raw i => max position i.nextOffset
  | item => (item.instruction? position).elim position Instruction.nextOffset

theorem eq_label_of_label? {item : Item} {name : String} (h : item.label? = some name) :
    item = .label name := by
  cases item with
  | label => exact congrArg label (Option.some.inj h)
  | _ => cases h

theorem exists_branch_of_jump? {item : Item} {name : String} (h : item.jump? = some name) :
    ∃ m, item = .branch m name := by
  cases item with
  | branch m => exact ⟨m, congrArg (branch m) (Option.some.inj h)⟩
  | _ => cases h

theorem instruction?_of_form {item : Item} {m : String} {operand : Operand} {opcode : Opcode}
    (hform : item.form? = some (m, operand)) (hm : Opcode.lookup m = some opcode)
    (position : Nat) :
    item.instruction? position =
      some ⟨position, opcode.size, opcode.mnemonic, opcode.flow, operand⟩ := by
  cases item with
  | raw | label => cases hform
  | _ => simp only [instruction?, hform, Option.bind_some, hm, Option.map_some]

theorem behind_of_none {item : Item} {position : Nat} (h : item.instruction? position = none) :
    item.behind position = position := by
  cases item with
  | raw => cases h
  | _ => simp only [behind, h, Option.elim_none]

/-- What comes from the opcode table is placed at the position, and moves that behind itself. -/
theorem behind_of_instruction {item : Item} {position : Nat} {i : Instruction}
    (h : item.instruction? position = some i) :
    item = .raw i ∨ i.offset = position ∧ item.behind position = i.nextOffset := by
  cases item with
  | raw =>
      cases h
      exact .inl rfl
  | label => cases h
  | _ =>
      refine .inr ⟨?_, by simp only [behind, h, Option.elim_some]⟩
      simp only [instruction?] at h
      obtain ⟨form, -, hform⟩ := Option.bind_eq_some_iff.1 h
      obtain ⟨opcode, -, rfl⟩ := Option.map_eq_some_iff.1 hform
      rfl

end Item

/-! ### How far code reaches -/

/-- The instruction ends before the 64-bit offsets do. -/
def Instruction.Fits (i : Instruction) : Prop := i.offset + i.size < UInt64.size

theorem Instruction.Fits.nextOffset_eq {i : Instruction} (h : i.Fits) :
    i.nextOffset = i.offset + i.size :=
  advance_of_lt h

/-- The greatest offset just behind an instruction, or zero if there is none. -/
def reach (code : List Instruction) : Nat := code.foldl (fun n i => max n i.nextOffset) 0

/-- The first instruction is at the offset zero, and each one starts where the last one ends. -/
def Contiguous (code : List Instruction) : Prop :=
  (∀ i ∈ code.head?, i.offset = 0) ∧ code.IsChain fun i j => j.offset = i.nextOffset

/-- The offset just behind the last instruction, or zero if there is none. -/
def endOf (code : List Instruction) : Nat := code.getLast?.elim 0 Instruction.nextOffset

section Reach

variable {code rest : List Instruction} {i : Instruction}

theorem reach_concat (code : List Instruction) (i : Instruction) :
    reach (code ++ [i]) = max (reach code) i.nextOffset := by
  simp [reach]

theorem nextOffset_le_reach (h : i ∈ code) : i.nextOffset ≤ reach code := by
  induction code using List.reverseRecOn with
  | nil => cases h
  | append_singleton code j ih =>
      rw [reach_concat]
      rcases List.mem_append.1 h with h | h
      · exact Nat.le_trans (ih h) (Nat.le_max_left _ _)
      · obtain rfl := List.mem_singleton.1 h
        exact Nat.le_max_right _ _

theorem endOf_concat (code : List Instruction) (i : Instruction) :
    endOf (code ++ [i]) = i.nextOffset := by
  simp [endOf]

theorem contiguous_nil : Contiguous [] := ⟨by simp, .nil⟩

theorem Contiguous.concat (h : Contiguous code) (hi : i.offset = endOf code) :
    Contiguous (code ++ [i]) := by
  refine ⟨?_, List.isChain_append.2 ⟨h.2, .singleton i, ?_⟩⟩
  · rcases code with - | ⟨first, code⟩
    · rintro _ ⟨⟩
      exact hi
    · exact h.1
  · rintro last hlast _ ⟨⟩
    rw [hi, endOf, hlast, Option.elim_some]

/-- Each instruction starts where those before it end. -/
theorem Contiguous.offset_eq (h : Contiguous (code ++ i :: rest)) : i.offset = endOf code := by
  obtain ⟨hhead, hchain⟩ := h
  obtain ⟨-, -, hlink⟩ := List.isChain_append.1 hchain
  rcases hlast : code.getLast? with - | last
  · obtain rfl := List.getLast?_eq_none_iff.1 hlast
    exact hhead i rfl
  · rw [endOf, hlast]
    exact hlink last hlast i rfl

end Reach

namespace Assembler

variable {s t : Assembler} {item : Item} {items : List Item} {k l n τ : Nat} {m name : String}
  {operand : Operand} {opcode : Opcode}

/-! ### One item -/

/-- What becomes of the assembler when the item is accepted. -/
structure Adds (s : Assembler) (item : Item) (t : Assembler) : Prop where
  code : t.code.toList = s.code.toList ++ (item.instruction? s.position).toList
  position : t.position = item.behind s.position
  labels : t.labels = (item.label?.map fun name => (name, s.position)).toList ++ s.labels
  fixups : t.fixups = s.fixups ++ (item.jump?.map fun label => ⟨s.code.size, label⟩).toList
  fresh : ∀ name, item.label? = some name → s.labels.lookup name = none
  known : ∀ form, item.form? = some form → ∃ opcode, Opcode.lookup form.1 = some opcode

theorem emit_eq_ok (h : emit m operand s = (.ok (), t)) :
    ∃ opcode, Opcode.lookup m = some opcode ∧ t = s.place opcode operand := by
  rcases hm : Opcode.lookup m with - | opcode
  · unfold emit at h
    simp only [hm] at h
    cases h
  · refine ⟨opcode, rfl, ?_⟩
    cases haccepts : opcode.operand.accepts operand
    · unfold emit at h
      simp only [hm, haccepts] at h
      cases h
    · rw [emit_of_accepts hm haccepts] at h
      cases h
      rfl

theorem branch_eq_ok {label : String} (h : branch m label s = (.ok (), t)) :
    ∃ opcode, Opcode.lookup m = some opcode ∧ t = (s.awaiting label).place opcode (.target 0) := by
  unfold branch at h
  rcases hm : Opcode.lookup m with - | opcode
  · simp only [hm] at h
    cases h
  · cases hflow : opcode.flow.isBranch
    · simp only [hm, hflow] at h
      cases h
    · simp only [hm, hflow, if_true] at h
      obtain ⟨opcode', hm', ht⟩ := emit_eq_ok (s := s.awaiting label) h
      rw [hm] at hm'
      cases hm'
      exact ⟨opcode, rfl, ht⟩

/-- The table instruction of an item is placed; a jump has been announced before. -/
theorem adds_place (hform : item.form? = some (m, operand)) (hm : Opcode.lookup m = some opcode)
    (hlabel : item.label? = none)
    (ht : t = { s.place opcode operand with
      fixups := s.fixups ++ (item.jump?.map fun label => ⟨s.code.size, label⟩).toList }) :
    Adds s item t := by
  have hinstruction := Item.instruction?_of_form hform hm s.position
  subst ht
  refine ⟨?_, ?_, ?_, rfl, ?_, ?_⟩
  · rw [hinstruction]
    exact Array.toList_push
  · rcases Item.behind_of_instruction hinstruction with rfl | ⟨-, hbehind⟩
    · cases hform
    · rw [hbehind]
      rfl
  · rw [hlabel]
    rfl
  · rw [hlabel]
    simp
  · intro form hform'
    rw [hform] at hform'
    cases hform'
    exact ⟨opcode, hm⟩

theorem adds_of_emit (hform : item.form? = some (m, operand)) (hlabel : item.label? = none)
    (hjump : item.jump? = none) (h : emit m operand s = (.ok (), t)) : Adds s item t := by
  obtain ⟨opcode, hm, rfl⟩ := emit_eq_ok h
  refine adds_place hform hm hlabel ?_
  rw [hjump]
  simp [place]

theorem adds_of_add (h : add item s = (.ok (), t)) : Adds s item t := by
  cases item with
  | emit => exact adds_of_emit rfl rfl rfl h
  | constant => exact adds_of_emit rfl rfl rfl h
  | loadArgument => exact adds_of_emit rfl rfl rfl h
  | loadLocal => exact adds_of_emit rfl rfl rfl h
  | storeLocal => exact adds_of_emit rfl rfl rfl h
  | branch m label =>
      obtain ⟨opcode, hm, rfl⟩ := branch_eq_ok h
      exact adds_place rfl hm rfl rfl
  | raw i =>
      cases h
      exact ⟨Array.toList_push, rfl, rfl, (List.append_nil _).symm, by simp [Item.label?],
        by simp [Item.form?]⟩
  | label name =>
      have h : label name s = (.ok (), t) := h
      rw [label_apply] at h
      split at h <;> cases h
      rename_i hfree
      refine ⟨(List.append_nil _).symm, rfl, rfl, (List.append_nil _).symm, ?_,
        by simp [Item.form?]⟩
      rintro _ ⟨⟩
      exact Option.not_isSome_iff_eq_none.1 hfree

namespace Adds

/-- The position stays as far as the code reaches, while the code fits. -/
theorem position_eq_reach (h : Adds s item t) (hfits : ∀ i ∈ t.code.toList, i.Fits)
    (hs : s.position = reach s.code.toList) : t.position = reach t.code.toList := by
  rw [h.code] at hfits
  rw [h.position, h.code]
  rcases hi : item.instruction? s.position with - | i
  · rw [Item.behind_of_none hi]
    simpa using hs
  · rw [hi] at hfits
    rw [Option.toList_some, reach_concat, ← hs]
    rcases Item.behind_of_instruction hi with rfl | ⟨hoffset, hbehind⟩
    · rfl
    · -- an instruction from the table is at the position, so the code reaches no further than it
      have hnext := (hfits i (List.mem_append_right _ List.mem_cons_self)).nextOffset_eq
      rw [hbehind, Nat.max_eq_right]
      omega

end Adds

/-! ### Runs -/

theorem forM_add_after (h : (items.forM add {}).1 = .ok ()) :
    items.forM add {} = (.ok (), after items) := by
  rcases hrun : items.forM add {} with ⟨e | ⟨⟩, s⟩
  · rw [hrun] at h
    cases h
  · rw [forM_add_eq_ok hrun]
    rfl

/-- The assembler before an item is added. -/
def before (items : List Item) (k : Nat) : Assembler := after (items.take k)

theorem add_onwards (h : items.forM add s = (.ok (), t)) (hk : items[k]? = some item) :
    add item (s.onwards (items.take k)) = (.ok (), s.onwards (items.take (k + 1))) := by
  induction items generalizing s k with
  | nil => cases hk
  | cons first rest ih =>
      have hstep := op_bind_apply (add first) (fun _ => rest.forM add) s
      rw [show (add first >>= fun _ => rest.forM add) s = (.ok (), t) from h] at hstep
      rcases hfirst : add first s with ⟨e | ⟨⟩, u⟩ <;> rw [hfirst] at hstep
      · cases hstep
      · have hu : (add first s).2 = u := congrArg Prod.snd hfirst
        rcases k with - | k
        · cases hk
          simpa [onwards, hu] using hfirst
        · have hnext := ih (s := u) hstep.symm (k := k) (by simpa using hk)
          simpa [onwards, hu] using hnext

section Run

variable (h : items.forM add {} = (.ok (), s))
include h

theorem adds_before (hk : items[k]? = some item) :
    Adds (before items k) item (before items (k + 1)) :=
  adds_of_add (add_onwards h hk)

theorem before_of_length_le (hk : items.length ≤ k) : before items k = s := by
  rw [before, List.take_of_length_le hk]
  exact (forM_add_eq_ok h).symm

/-- What holds before the first item and is kept by each item holds throughout. -/
theorem before_induction {P : Nat → Assembler → Prop} (hstart : P 0 {})
    (hstep : ∀ k item, items[k]? = some item → Adds (before items k) item (before items (k + 1)) →
      P k (before items k) → P (k + 1) (before items (k + 1))) (hk : k ≤ items.length) :
    P k (before items k) := by
  induction k with
  | zero => exact hstart
  | succ k ih =>
      obtain ⟨item, hitem⟩ : ∃ item, items[k]? = some item := ⟨_, List.getElem?_eq_getElem hk⟩
      exact hstep k item hitem (adds_before h hitem) (ih (Nat.le_of_succ_le hk))

/-- The same, where it does not matter how many items there have been. -/
theorem before_invariant {P : Assembler → Prop} (hstart : P {})
    (hstep : ∀ k item, items[k]? = some item → Adds (before items k) item (before items (k + 1)) →
      P (before items k) → P (before items (k + 1))) (k : Nat) : P (before items k) := by
  rcases Nat.le_total k items.length with hk | hk
  · exact before_induction h (P := fun _ => P) hstart hstep hk
  · rw [before_of_length_le h hk, ← before_of_length_le h (Nat.le_refl _)]
    exact before_induction h (P := fun _ => P) hstart hstep (Nat.le_refl _)

/-- The current position is as far as the code reaches, while the code fits. -/
theorem position_before (k : Nat) (hfits : ∀ i ∈ (before items k).code, i.Fits) :
    (before items k).position = reach (before items k).code.toList := by
  refine before_invariant h (P := fun s => (∀ i ∈ s.code.toList, i.Fits) →
    s.position = reach s.code.toList) (fun _ => rfl) ?_ k
    fun i hi => hfits i (Array.mem_toList_iff.1 hi)
  intro k item _ hadds ih hfits
  refine hadds.position_eq_reach hfits (ih fun i hi => hfits i ?_)
  rw [hadds.code]
  exact List.mem_append_left _ hi

/-- Code that has been placed stays. -/
theorem code_before_mono (hkl : k ≤ l) :
    (before items k).code.toList <+: (before items l).code.toList := by
  induction hkl with
  | refl => exact List.prefix_rfl
  | @step l _ ih =>
      rcases hl : items[l]? with - | item
      · have hlength := List.getElem?_eq_none_iff.1 hl
        rw [before_of_length_le h (Nat.le_succ_of_le hlength), ← before_of_length_le h hlength]
        exact ih
      · rw [(adds_before h hl).code]
        exact ih.trans (List.prefix_append _ _)

theorem code_before_le (k : Nat) : (before items k).code.toList <+: s.code.toList := by
  have hinitial := code_before_mono h (Nat.le_max_left k items.length)
  rwa [before_of_length_le h (Nat.le_max_right k items.length)] at hinitial

/-- The instruction of an item has the number of those before it. -/
theorem getElem?_of_instruction {i : Instruction} (hk : items[k]? = some item)
    (hi : item.instruction? (before items k).position = some i) :
    s.code[(before items k).code.size]? = some i := by
  have hcode := (adds_before h hk).code
  rw [hi, Option.toList_some] at hcode
  have hinitial := code_before_le h (k + 1)
  rw [hcode, List.prefix_iff_getElem?] at hinitial
  have hget := hinitial (before items k).code.size (by simp)
  simpa using hget

theorem instruction_of_form {form : String × Operand} (hk : items[k]? = some item)
    (hform : item.form? = some form) :
    ∃ opcode, Opcode.lookup form.1 = some opcode ∧
      item.instruction? (before items k).position =
        some ⟨(before items k).position, opcode.size, form.1, opcode.flow, form.2⟩ := by
  obtain ⟨opcode, hm⟩ := (adds_before h hk).known form hform
  refine ⟨opcode, hm, ?_⟩
  rw [Item.instruction?_of_form hform hm, mnemonic_of_lookup hm]

/-- If all sizes are positive, every instruction is before the current position, while the code
fits. -/
theorem offset_lt_position (hsizes : ∀ i, .raw i ∈ items → 0 < i.size) (k : Nat)
    (hfits : ∀ i ∈ (before items k).code, i.Fits) :
    ∀ i ∈ (before items k).code, i.offset < (before items k).position := by
  have hpositive : ∀ i ∈ (before items k).code.toList, 0 < i.size := by
    refine before_invariant h (P := fun s => ∀ i ∈ s.code.toList, 0 < i.size) (by simp) ?_ k
    intro k item hk hadds ih i hi
    rw [hadds.code, List.mem_append, Option.mem_toList] at hi
    rcases hi with hi | hi
    · exact ih i hi
    · cases item with
      | raw j =>
          cases hi
          exact hsizes i (List.mem_of_getElem? hk)
      | label => cases hi
      | _ =>
          obtain ⟨opcode, hm, hinstruction⟩ := instruction_of_form h hk rfl
          rw [hinstruction] at hi
          cases hi
          exact (size_of_lookup hm).1
  intro i hi
  have hreach := nextOffset_le_reach (Array.mem_toList_iff.2 hi)
  have hsize := hpositive i (Array.mem_toList_iff.2 hi)
  have hnext := (hfits i hi).nextOffset_eq
  rw [position_before h k hfits]
  omega

/-- Without instructions as they are, there are no gaps. -/
theorem contiguous_before (hraw : ∀ i, .raw i ∉ items) (k : Nat) :
    Contiguous (before items k).code.toList ∧
      (before items k).position = endOf (before items k).code.toList := by
  refine before_invariant h (P := fun s => Contiguous s.code.toList ∧
    s.position = endOf s.code.toList) ⟨contiguous_nil, rfl⟩ ?_ k
  rintro k item hk hadds ⟨hcontiguous, hposition⟩
  rw [hadds.code, hadds.position]
  rcases hi : item.instruction? (before items k).position with - | i
  · rw [Item.behind_of_none hi, Option.toList_none, List.append_nil]
    exact ⟨hcontiguous, hposition⟩
  · rcases Item.behind_of_instruction hi with rfl | ⟨hoffset, hbehind⟩
    · exact absurd (List.mem_of_getElem? hk) (hraw i)
    · rw [hbehind, Option.toList_some, endOf_concat]
      exact ⟨hcontiguous.concat (hoffset.trans hposition), rfl⟩

/-! ### Labels and jumps -/

/-- A label names the position of the assembler before it. -/
theorem lookup_before (hk : k ≤ items.length) (name : String) (τ : Nat) :
    (before items k).labels.lookup name = some τ ↔
      ∃ l < k, items[l]? = some (.label name) ∧ (before items l).position = τ := by
  refine before_induction h (P := fun k s => s.labels.lookup name = some τ ↔
    ∃ l < k, items[l]? = some (.label name) ∧ (before items l).position = τ) (by simp) ?_ hk
  intro k item hk hadds ih
  rw [hadds.labels]
  -- the new label is either this one, which is then not taken, or another one
  by_cases hlabel : item.label? = some name
  · obtain rfl := Item.eq_label_of_label? hlabel
    have hnone := hadds.fresh name rfl
    rw [hnone] at ih
    simp only [Item.label?, Option.map_some, Option.toList_some, List.cons_append, List.nil_append,
      List.lookup_cons_self, Option.some.injEq]
    constructor
    · rintro rfl
      exact ⟨k, Nat.lt_succ_self k, hk, rfl⟩
    · rintro ⟨l, hl, hlabel, hposition⟩
      rcases Nat.lt_succ_iff_lt_or_eq.1 hl with hl | rfl
      · cases ih.2 ⟨l, hl, hlabel, hposition⟩
      · exact hposition
  · have hlookup : ((item.label?.map fun name => (name, (before items k).position)).toList ++
        (before items k).labels).lookup name = (before items k).labels.lookup name := by
      rcases hother : item.label? with - | other
      · rfl
      · have hne : (name == other) = false :=
          beq_false_of_ne fun heq => hlabel (heq ▸ hother)
        simp [List.lookup_cons, hne]
    rw [hlookup, ih]
    constructor
    · rintro ⟨l, hl, hitem⟩
      exact ⟨l, Nat.lt_succ_of_lt hl, hitem⟩
    · rintro ⟨l, hl, hitem, hposition⟩
      rcases Nat.lt_succ_iff_lt_or_eq.1 hl with hl | rfl
      · exact ⟨l, hl, hitem, hposition⟩
      · rw [hk] at hitem
        cases hitem
        exact absurd rfl hlabel

theorem lookup_labels : s.labels.lookup name = some τ ↔
    ∃ l, items[l]? = some (.label name) ∧ (before items l).position = τ := by
  have hlookup := lookup_before h (Nat.le_refl _) name τ
  rw [before_of_length_le h (Nat.le_refl _)] at hlookup
  rw [hlookup]
  constructor
  · rintro ⟨l, -, hitem⟩
    exact ⟨l, hitem⟩
  · rintro ⟨l, hitem⟩
    exact ⟨l, (List.getElem?_eq_some_iff.1 hitem.1).1, hitem⟩

theorem lookup_isSome_iff :
    (∃ τ, s.labels.lookup name = some τ) ↔ .label name ∈ items := by
  simp only [lookup_labels h, List.mem_iff_getElem?]
  constructor
  · rintro ⟨τ, l, hitem, -⟩
    exact ⟨l, hitem⟩
  · rintro ⟨l, hitem⟩
    exact ⟨_, l, hitem, rfl⟩

/-- The announced jumps are the items that jump, with the numbers of their instructions. -/
theorem mem_fixups_before (hk : k ≤ items.length) (f : Fixup) :
    f ∈ (before items k).fixups ↔
      ∃ j < k, ∃ item, items[j]? = some item ∧ item.jump? = some f.label ∧
        (before items j).code.size = f.index := by
  refine before_induction h (P := fun k s => f ∈ s.fixups ↔ ∃ j < k, ∃ item,
    items[j]? = some item ∧ item.jump? = some f.label ∧ (before items j).code.size = f.index)
    (by simp) ?_ hk
  intro k item hk hadds ih
  rw [hadds.fixups, List.mem_append, ih]
  constructor
  · rintro (⟨j, hj, hjump⟩ | hf)
    · exact ⟨j, Nat.lt_succ_of_lt hj, hjump⟩
    · obtain ⟨label, hjump, rfl⟩ := Option.map_eq_some_iff.1 (Option.mem_toList.1 hf)
      exact ⟨k, Nat.lt_succ_self k, item, hk, hjump, rfl⟩
  · rintro ⟨j, hj, other, hother, hjump, hindex⟩
    rcases Nat.lt_succ_iff_lt_or_eq.1 hj with hj | rfl
    · exact .inl ⟨j, hj, other, hother, hjump, hindex⟩
    · rw [hk] at hother
      cases hother
      right
      rw [hjump, Option.map_some, Option.toList_some, List.mem_singleton, hindex]

theorem mem_fixups {f : Fixup} : f ∈ s.fixups ↔
    ∃ j item, items[j]? = some item ∧ item.jump? = some f.label ∧
      (before items j).code.size = f.index := by
  have hmem := mem_fixups_before h (Nat.le_refl _) f
  rw [before_of_length_le h (Nat.le_refl _)] at hmem
  rw [hmem]
  constructor
  · rintro ⟨j, -, item, hitem⟩
    exact ⟨j, item, hitem⟩
  · rintro ⟨j, item, hitem⟩
    exact ⟨j, (List.getElem?_eq_some_iff.1 hitem.1).1, item, hitem⟩

/-- An item that becomes an instruction comes before the next one. -/
theorem size_before_lt {i : Instruction} (hk : items[k]? = some item)
    (hi : item.instruction? (before items k).position = some i) (hkl : k < l) :
    (before items k).code.size < (before items l).code.size := by
  have hcode := congrArg List.length (adds_before h hk).code
  have hinitial := (code_before_mono h (Nat.succ_le_of_lt hkl)).length_le
  rw [hi] at hcode
  simp at hcode hinitial
  omega

/-- Two items of one number are one item, if both become instructions. -/
theorem eq_of_size_before_eq {item' : Item} {i i' : Instruction} (hk : items[k]? = some item)
    (hi : item.instruction? (before items k).position = some i) (hl : items[l]? = some item')
    (hi' : item'.instruction? (before items l).position = some i')
    (heq : (before items k).code.size = (before items l).code.size) : k = l := by
  rcases Nat.lt_trichotomy k l with hlt | rfl | hlt
  · exact absurd heq (Nat.ne_of_lt (size_before_lt h hk hi hlt))
  · rfl
  · exact absurd heq (Nat.ne_of_gt (size_before_lt h hl hi' hlt))

theorem instruction_of_jump (hk : items[k]? = some item) (hjump : item.jump? = some name) :
    ∃ i, item.instruction? (before items k).position = some i := by
  obtain ⟨m, rfl⟩ := Item.exists_branch_of_jump? hjump
  obtain ⟨opcode, -, hinstruction⟩ := instruction_of_form h hk rfl
  exact ⟨_, hinstruction⟩

/-- One jump is announced for one instruction. -/
theorem fixups_functional {f f' : Fixup} (hf : f ∈ s.fixups) (hf' : f' ∈ s.fixups)
    (hindex : f.index = f'.index) : f = f' := by
  obtain ⟨j, item, hitem, hjump, hj⟩ := (mem_fixups h).1 hf
  obtain ⟨j', item', hitem', hjump', hj'⟩ := (mem_fixups h).1 hf'
  obtain ⟨i, hi⟩ := instruction_of_jump h hitem hjump
  obtain ⟨i', hi'⟩ := instruction_of_jump h hitem' hjump'
  obtain rfl := eq_of_size_before_eq h hitem hi hitem' hi' (by rw [hj, hj', hindex])
  rw [hitem] at hitem'
  cases hitem'
  rw [hjump] at hjump'
  cases f
  cases f'
  cases hindex
  cases hjump'
  rfl

end Run

/-! ### Finishing -/

section Resolve

variable {labels : List (String × Nat)} {fixups : List Fixup} {code done : Array Instruction}

theorem resolve_isOk_iff (code : Array Instruction) :
    (∃ done, resolve labels fixups code = .ok done) ↔
      ∀ f ∈ fixups, ∃ τ, labels.lookup f.label = some τ := by
  induction fixups generalizing code with
  | nil => simp [resolve]
  | cons f rest ih =>
      unfold resolve
      rcases hlookup : labels.lookup f.label with - | τ
      · simp [hlookup]
      · simp [hlookup, ih]

/-- An instruction that no jump is announced for stays. -/
theorem getElem?_resolve_of_not_mem (h : resolve labels fixups code = .ok done)
    (hn : ∀ f ∈ fixups, f.index ≠ n) : done[n]? = code[n]? := by
  induction fixups generalizing code with
  | nil =>
      cases h
      rfl
  | cons f rest ih =>
      unfold resolve at h
      rcases hlookup : labels.lookup f.label with - | τ <;> simp only [hlookup] at h
      · cases h
      · rw [ih h fun g hg => hn g (List.mem_cons_of_mem _ hg), Array.getElem?_modify,
          if_neg (hn f List.mem_cons_self)]

/-- The instruction that a jump is announced for leads where the label is. -/
theorem getElem?_resolve_of_mem {f : Fixup} (h : resolve labels fixups code = .ok done)
    (hf : f ∈ fixups) (hone : ∀ g ∈ fixups, g.index = f.index → g = f)
    (hτ : labels.lookup f.label = some τ) :
    done[f.index]? = code[f.index]?.map fun i => { i with operand := .target τ } := by
  induction fixups generalizing code with
  | nil => cases hf
  | cons g rest ih =>
      have hrest : ∀ g ∈ rest, g.index = f.index → g = f :=
        fun g hg => hone g (List.mem_cons_of_mem _ hg)
      have hretarget : code[f.index]?.map (fun i => { i with operand := Operand.target τ }) =
          (code.modify f.index fun i => { i with operand := .target τ })[f.index]? := by
        rw [Array.getElem?_modify, if_pos rfl]
      unfold resolve at h
      rcases hlookup : labels.lookup g.label with - | σ <;> simp only [hlookup] at h
      · cases h
      · by_cases hg : g = f
        · subst hg
          obtain rfl : σ = τ := by simpa [hlookup] using hτ
          rw [hretarget]
          by_cases hagain : g ∈ rest
          · -- the same jump is announced again: its target is written once more
            rw [ih h hagain hrest, Array.getElem?_modify, if_pos rfl, Option.map_map]
            rfl
          · exact getElem?_resolve_of_not_mem h fun f hf heq => hagain (hrest f hf heq ▸ hf)
        · have hindex : g.index ≠ f.index := fun heq => hg (hone g List.mem_cons_self heq)
          have hf : f ∈ rest := (List.mem_cons.1 hf).resolve_left (Ne.symm hg)
          rw [ih h hf hrest, Array.getElem?_modify, if_neg hindex]

theorem finish_isOk_iff (s : Assembler) :
    (∃ b, s.finish = .ok b) ↔
      (∀ f ∈ s.fixups, ∃ τ, s.labels.lookup f.label = some τ) ∧
        (s.code.toList.map Instruction.offset).Nodup := by
  rw [← resolve_isOk_iff s.code]
  constructor
  · rintro ⟨b, hb⟩
    obtain ⟨code, hcode, hcodeb⟩ := finish_eq_ok hb
    refine ⟨⟨code, hcode⟩, ?_⟩
    rw [← resolve_offsets hcode, ← hcodeb]
    exact b.offsets_nodup
  · rintro ⟨⟨code, hcode⟩, hnodup⟩
    rw [← resolve_offsets hcode] at hnodup
    refine ⟨⟨code, hnodup⟩, ?_⟩
    rw [finish, hcode]
    exact Body.ofList?_eq_ok_iff.2 ⟨hnodup, rfl⟩

end Resolve

section Finished

variable {b : Body} (h : items.forM add {} = (.ok (), s)) (hb : s.finish = .ok b)
include h hb

theorem branches_resolved : ∀ m name, .branch m name ∈ items → .label name ∈ items := by
  intro m name hbranch
  obtain ⟨k, hk⟩ := List.mem_iff_getElem?.1 hbranch
  have hfixup : (⟨(before items k).code.size, name⟩ : Fixup) ∈ s.fixups :=
    (mem_fixups h).2 ⟨k, _, hk, rfl, rfl⟩
  exact (lookup_isSome_iff h).1 (((finish_isOk_iff s).1 ⟨b, hb⟩).1 _ hfixup)

/-- What is no jump to a label is in the body as it was placed. -/
theorem get?_of_instruction {i : Instruction} (hk : items[k]? = some item)
    (hjump : item.jump? = none) (hi : item.instruction? (before items k).position = some i) :
    b.get? (before items k).code.size = some i := by
  obtain ⟨code, hcode, hbody⟩ := finish_eq_ok hb
  obtain rfl : b.code = code := Array.toList_inj.1 hbody
  rw [Body.get?, getElem?_resolve_of_not_mem hcode, getElem?_of_instruction h hk hi]
  -- an announced jump of this number would be one of this item
  intro f hf hindex
  obtain ⟨j, item', hj, hjump', hsize⟩ := (mem_fixups h).1 hf
  obtain ⟨i', hi'⟩ := instruction_of_jump h hj hjump'
  obtain rfl := eq_of_size_before_eq h hj hi' hk hi (hsize.trans hindex)
  rw [hk] at hj
  cases hj
  rw [hjump] at hjump'
  cases hjump'

/-- A jump to a label leads to the position at which the label is defined. -/
theorem get?_of_branch (hk : items[k]? = some (.branch m name))
    (hl : items[l]? = some (.label name)) :
    ∃ opcode, Opcode.lookup m = some opcode ∧
      b.get? (before items k).code.size =
        some ⟨(before items k).position, opcode.size, m, opcode.flow,
          .target (before items l).position⟩ := by
  obtain ⟨code, hcode, hbody⟩ := finish_eq_ok hb
  obtain rfl : b.code = code := Array.toList_inj.1 hbody
  obtain ⟨opcode, hm, hi⟩ := instruction_of_form h hk rfl
  have hfixup : (⟨(before items k).code.size, name⟩ : Fixup) ∈ s.fixups :=
    (mem_fixups h).2 ⟨k, _, hk, rfl, rfl⟩
  refine ⟨opcode, hm, ?_⟩
  rw [Body.get?, getElem?_resolve_of_mem hcode hfixup
    (fun g hg hindex => fixups_functional h hg hfixup hindex) ((lookup_labels h).2 ⟨l, hl, rfl⟩),
    getElem?_of_instruction h hk hi]
  rfl

/-- The instruction that follows a label is the one that the label leads to, if all instructions
come from the table. -/
theorem indexOf?_position (hraw : ∀ i, .raw i ∉ items) (hlk : l < k)
    (hk : items[k]? = some item) (hitem : item.label? = none) :
    b.indexOf? (before items l).position = some (before items l).code.size := by
  have hcode := code_before_le h l
  obtain ⟨i, hi⟩ : ∃ i, item.instruction? (before items k).position = some i := by
    cases item with
    | raw i => exact ⟨i, rfl⟩
    | label => cases hitem
    | _ =>
        obtain ⟨opcode, -, hi⟩ := instruction_of_form h hk rfl
        exact ⟨_, hi⟩
  have hsize : (before items l).code.size < s.code.size := by
    have hle := (code_before_mono h (Nat.le_of_lt hlk)).length_le
    have hlt := (Array.getElem?_eq_some_iff.1 (getElem?_of_instruction h hk hi)).1
    exact Nat.lt_of_le_of_lt (by simpa using hle) hlt
  obtain ⟨hcontiguous, -⟩ := contiguous_before h hraw items.length
  obtain ⟨-, hposition⟩ := contiguous_before h hraw l
  rw [before_of_length_le h (Nat.le_refl _)] at hcontiguous
  obtain ⟨rest, hrest⟩ := hcode
  -- the label is where the code before it ends, and the next instruction starts there
  rcases rest with - | ⟨j, rest⟩
  · have hlength := congrArg List.length hrest
    simp at hlength
    omega
  · rw [← hrest] at hcontiguous
    refine indexOf?_of_offset ?_
    rw [offsets_of_finish hb, ← hrest, hposition, ← hcontiguous.offset_eq]
    simp

end Finished

/-- **Instructions are placed behind all that precede them, and jumps lead where their labels are.**
Of items that are added without a failure: code that is placed stays, and while it fits into 64-bit
offsets, the position is as far as it reaches, behind every instruction; what comes from the opcode
table is placed there; and if all comes from the table, there are no gaps.  The body can be finished
exactly if every label that is jumped to is defined and no offset occurs twice.  Then a jump to a
label has the position at which the label was defined as its target, all else is as it was emitted,
and if all comes from the table, that position is the offset of the first instruction that was
emitted behind the label. -/
theorem placement (h : items.forM add {} = (.ok (), s))
    (hsizes : ∀ i, .raw i ∈ items → 0 < i.size) :
    (∀ k, (before items k).code.toList <+: s.code.toList ∧
      ((∀ i ∈ (before items k).code, i.Fits) →
        (before items k).position = reach (before items k).code.toList ∧
          ∀ i ∈ (before items k).code, i.offset < (before items k).position)) ∧
    (∀ k item form, items[k]? = some item → item.form? = some form →
      ∃ opcode, Opcode.lookup form.1 = some opcode ∧
        s.code[(before items k).code.size]? =
          some ⟨(before items k).position, opcode.size, form.1, opcode.flow, form.2⟩) ∧
    ((∀ i, .raw i ∉ items) → Contiguous s.code.toList) ∧
    ((∃ b, s.finish = .ok b) ↔
      (∀ m name, .branch m name ∈ items → .label name ∈ items) ∧
        (s.code.toList.map Instruction.offset).Nodup) ∧
    ∀ b, s.finish = .ok b →
      b.size = s.code.size ∧
      (∀ k m name l, items[k]? = some (.branch m name) → items[l]? = some (.label name) →
        ∃ opcode, Opcode.lookup m = some opcode ∧
          b.get? (before items k).code.size =
            some ⟨(before items k).position, opcode.size, m, opcode.flow,
              .target (before items l).position⟩) ∧
      (∀ k item i, items[k]? = some item → item.jump? = none →
        item.instruction? (before items k).position = some i →
        b.get? (before items k).code.size = some i) ∧
      ((∀ i, .raw i ∉ items) → ∀ l name k item, items[l]? = some (.label name) → l < k →
        items[k]? = some item → item.label? = none →
        b.indexOf? (before items l).position = some (before items l).code.size) := by
  refine ⟨fun k => ⟨code_before_le h k, fun hfits => ⟨position_before h k hfits,
    offset_lt_position h hsizes k hfits⟩⟩, ?_, fun hraw => ?_, ?_, fun b hb => ⟨?_, ?_, ?_, ?_⟩⟩
  · intro k item form hk hform
    obtain ⟨opcode, hm, hi⟩ := instruction_of_form h hk hform
    exact ⟨opcode, hm, getElem?_of_instruction h hk hi⟩
  · rw [← before_of_length_le h (Nat.le_refl _)]
    exact (contiguous_before h hraw items.length).1
  · constructor
    · rintro ⟨b, hb⟩
      exact ⟨branches_resolved h hb, ((finish_isOk_iff s).1 ⟨b, hb⟩).2⟩
    · rintro ⟨hdefined, hnodup⟩
      refine (finish_isOk_iff s).2 ⟨fun f hf => ?_, hnodup⟩
      obtain ⟨k, item, hk, hjump, -⟩ := (mem_fixups h).1 hf
      obtain ⟨m, rfl⟩ := Item.exists_branch_of_jump? hjump
      exact (lookup_isSome_iff h).2 (hdefined m _ (List.mem_of_getElem? hk))
  · exact size_of_finish hb
  · exact fun k m name l hk hl => get?_of_branch h hb hk hl
  · exact fun k item i hk hjump hi => get?_of_instruction h hb hk hjump hi
  · exact fun hraw l name k item _ hlk hk hitem => indexOf?_position h hb hraw hlk hk hitem

end Assembler

namespace Sample

/-- A loop with a jump forward to its end and one back to its start. -/
def loop : List Item :=
  [.label "top", .plain "nop", .branch "br.s" "end", .branch "br" "top", .label "end",
    .plain "ret"]

/-- The same with an instruction that is given as it is, ahead of the end. -/
def gapped : List Item :=
  [.label "top", .raw ⟨16, 2, "nop", .sequential, .none⟩, .branch "br.s" "end",
    .branch "br" "top", .label "end", .plain "ret"]

/-- An instruction that is given as it is and takes up all offsets from its own on, and two that are
placed. -/
def reaching : List Item :=
  [.raw ⟨1, UInt64.size - 1, "nop", .sequential, .none⟩, .plain "nop", .plain "nop"]

end Sample

namespace Assembler

/-- Both jumps lead to their labels, to the instruction of number 3 and back to the first one.  What
follows an instruction that is given as it is, is placed behind it. -/
theorem placement_loop :
    (∃ b, (after Sample.loop).finish = .ok b ∧ b.indexOf? 8 = some 3 ∧
      b.get? 1 = some ⟨1, 2, "br.s", .unconditionalBranch, .target 8⟩ ∧
      b.get? 2 = some ⟨3, 5, "br", .unconditionalBranch, .target 0⟩) ∧
    (after Sample.gapped).code[1]? =
      some ⟨18, 2, "br.s", .unconditionalBranch, .target 0⟩ := by
  have hloop : Sample.loop.forM add {} = (.ok (), after Sample.loop) :=
    forM_add_after (by decide +kernel)
  have hgapped : Sample.gapped.forM add {} = (.ok (), after Sample.gapped) :=
    forM_add_after (by decide +kernel)
  have hshort : Opcode.lookup "br.s" = some ⟨"br.s", 2, .unconditionalBranch, .target⟩ := by
    decide +kernel
  have hlong : Opcode.lookup "br" = some ⟨"br", 5, .unconditionalBranch, .target⟩ := by
    decide +kernel
  obtain ⟨-, -, -, hfinish, hbody⟩ := placement hloop (by simp [Sample.loop, Item.plain])
  obtain ⟨-, hplaced, -⟩ := placement hgapped (by simp [Sample.gapped, Item.plain])
  have hdefined : ∀ m name, .branch m name ∈ Sample.loop → .label name ∈ Sample.loop := by
    intro m name hbranch
    obtain ⟨-, rfl⟩ | ⟨-, rfl⟩ : m = "br.s" ∧ name = "end" ∨ m = "br" ∧ name = "top" := by
      simpa [Sample.loop, Item.plain] using hbranch
    · decide
    · decide
  obtain ⟨b, hb⟩ := hfinish.2 ⟨hdefined, by decide +kernel⟩
  obtain ⟨-, hjumps, -, hnext⟩ := hbody b hb
  refine ⟨⟨b, hb, ?_, ?_, ?_⟩, ?_⟩
  · exact hnext (by simp [Sample.loop, Item.plain]) 4 "end" 5 (.plain "ret") rfl (by decide) rfl rfl
  · obtain ⟨opcode, hm, hget⟩ := hjumps 2 "br.s" "end" 4 rfl rfl
    cases hshort.symm.trans hm
    exact hget
  · obtain ⟨opcode, hm, hget⟩ := hjumps 3 "br" "top" 0 rfl rfl
    cases hlong.symm.trans hm
    exact hget
  · obtain ⟨opcode, hm, hget⟩ := hplaced 2 (.branch "br.s" "end") _ rfl rfl
    cases hshort.symm.trans hm
    exact hget

/-- It is not so that what is placed never overlaps with what precedes it.  Behind an instruction
that reaches over the last offset comes the offset zero, and the second one that is placed then has
the offset of the first. -/
theorem placement_overlaps :
    ¬ ∀ (items : List Item) (s : Assembler), items.forM add {} = (.ok (), s) →
      (∀ i, .raw i ∈ items → 0 < i.size ∧ i.size < UInt64.size ∧ i.offset < UInt64.size) →
      ∀ k item form, items[k]? = some item → item.form? = some form →
        ∀ i ∈ (before items k).code, i.offset ≠ (before items k).position := by
  intro hclaim
  have hreaching : Sample.reaching.forM add {} = (.ok (), after Sample.reaching) :=
    forM_add_after (by decide +kernel)
  have hsizes : ∀ i, .raw i ∈ Sample.reaching →
      0 < i.size ∧ i.size < UInt64.size ∧ i.offset < UInt64.size := by
    simp [Sample.reaching, Item.plain, UInt64.size]
  have hcode : (before Sample.reaching 2).code[0]? =
      some ⟨1, UInt64.size - 1, "nop", .sequential, .none⟩ := by decide +kernel
  have hposition : (before Sample.reaching 2).position = 1 := by decide +kernel
  exact hclaim Sample.reaching _ hreaching hsizes 2 (.plain "nop") _ rfl rfl _
    (Array.mem_of_getElem? hcode) hposition.symm

end Assembler

end CilMachine
