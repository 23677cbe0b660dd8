/-
CilMachine/Proofs/ShortestForms.lean

The instructions that the assembler chooses.  Constants and accesses to slots can be encoded in
several ways, and the assembler takes the shortest one.  The proof goes by the action that an
instruction is read as.  On the one hand the chosen form is read as the action that was asked for
(`Encodes`), and no entry of the opcode table takes fewer bytes for this action
(`Opcode.leastSize_le`).  On the other hand an instruction means what was asked for just in case it
is read as this action (`loadsConstant_iff` and its like), because what the instruction does to a
single machine tells these actions apart (`action?_of_recognize`).
-/
import CilMachine.Proofs.Decoding

namespace CilMachine

/-! ### Sizes -/

/-- The least size of an instruction that pushes a constant. -/
def constantSize (n : Int32) : Nat :=
  if (smallConstants.lookup n).isSome then 1 else if n.toInt8.toInt32 = n then 2 else 5

/-- The least size of an instruction that accesses a slot in a given way. -/
def slotSize (k : UInt16) : Nat := if k < 4 then 1 else if k ≤ 255 then 2 else 4

/-- The least size of an instruction that is read as the action; of other actions than those the
assembler chooses instructions for, it is a lower bound only. -/
def Action.leastSize : Action → Nat
  | loadConstant n => constantSize n
  | loadArgument k | loadLocal k | storeLocal k => slotSize k
  | _ => 1

theorem constantSize_le_five (n : Int32) : constantSize n ≤ 5 := by
  unfold constantSize
  split
  · decide
  · split <;> decide

theorem constantSize_le_two {n : Int32} (h : n.toInt8.toInt32 = n) : constantSize n ≤ 2 := by
  rw [constantSize, if_pos h]
  split <;> decide

theorem slotSize_le_four (k : UInt16) : slotSize k ≤ 4 := by
  unfold slotSize
  split
  · decide
  · split <;> decide

theorem slotSize_le_two {k : UInt16} (h : k ≤ 255) : slotSize k ≤ 2 := by
  rw [slotSize, if_pos h]
  split <;> decide

namespace Operand

variable {x : Operand} {n : Int32} {k : UInt16}

/-- What is encoded in one byte is a constant that the byte stands for. -/
theorem toInt8_of_accepts (h : OperandKind.int8.accepts x = true) (hn : x.int32? = some n) :
    n.toInt8.toInt32 = n := by
  cases x with
  | immediate c =>
      cases c with
      | int8 | uint8 =>
          obtain rfl := Option.some.inj hn
          rw [Int8.toInt8_toInt32]
      | _ => cases h
  | _ => cases h

theorem index_le_of_accepts (h : OperandKind.uint8.accepts x = true) (hk : x.index? = some k) :
    k ≤ 255 := by
  cases x with
  | localSlot | argument =>
      obtain rfl := Option.some.inj hk
      exact of_decide_eq_true h
  | immediate c =>
      cases c with
      | uint16 =>
          obtain rfl := Option.some.inj hk
          exact of_decide_eq_true h
      | uint8 b =>
          obtain rfl := Option.some.inj hk
          rw [UInt16.le_iff_toNat_le, UInt8.toNat_toUInt16]
          exact Nat.le_of_lt_succ b.toNat_lt
      | _ => cases h
  | _ => cases h

end Operand

/-! ### Slots -/

/-- The ways in which instructions access slots. -/
inductive SlotAccess
  | loadArgument | loadLocal | storeLocal
deriving DecidableEq

namespace SlotAccess

/-- The family of the mnemonics. -/
def family : SlotAccess → String
  | loadArgument => "ldarg"
  | loadLocal => "ldloc"
  | storeLocal => "stloc"

/-- The operand for a slot. -/
def operand : SlotAccess → UInt16 → Operand
  | loadArgument => .argument
  | loadLocal | storeLocal => .localSlot

/-- How the mnemonics with an operand become actions. -/
def form : SlotAccess → ActionForm
  | loadArgument => .loadArgument
  | loadLocal => .loadLocal
  | storeLocal => .storeLocal

/-- The access to a slot. -/
def action : SlotAccess → UInt16 → Action
  | loadArgument => .loadArgument
  | loadLocal => .loadLocal
  | storeLocal => .storeLocal

/-- What the assembler is asked for. -/
def item : SlotAccess → UInt16 → Item
  | loadArgument => .loadArgument
  | loadLocal => .loadLocal
  | storeLocal => .storeLocal

variable (access : SlotAccess) (k : UInt16)

@[simp] theorem leastSize_action : (access.action k).leastSize = slotSize k := by
  cases access <;> rfl

theorem index?_operand : (access.operand k).index? = some k := by
  cases access <;> rfl

theorem formAction_eq_ok_iff {i : Instruction} {a : Action} :
    i.formAction access.form = .ok a ↔ ∃ k, i.operand.index? = some k ∧ a = access.action k := by
  cases access <;> simp only [form, action, Instruction.formAction, Instruction.need] <;>
    rcases i.operand.index? with - | k <;> simp [Except.map, eq_comm]

end SlotAccess

namespace Instruction

theorem formAction_constant_eq_ok_iff {i : Instruction} {a : Action} :
    i.formAction .constant = .ok a ↔ ∃ n, i.operand.int32? = some n ∧ a = .loadConstant n := by
  rw [formAction, need]
  rcases i.operand.int32? with - | n <;> simp [Except.map, eq_comm]

end Instruction

/-! ### The opcode table -/

namespace Opcode

variable {o : Opcode} {i : Instruction} {a : Action} {form : ActionForm}

/-- What the kind of operand says of the size, for the forms that the assembler chooses among. -/
def sizeFits (o : Opcode) : ActionForm → Bool
  | .plain a => a.leastSize = 1
  | .constant => o.operand = .int8 ∧ o.size = 2 ∨ o.operand = .int32 ∧ o.size = 5
  | .loadArgument | .loadLocal | .storeLocal =>
    o.operand = .uint8 ∧ o.size = 2 ∨ o.operand = .uint16 ∧ o.size = 4
  | _ => true

theorem sizeFits_of_lookup (ho : o ∈ table)
    (h : sequentialForms.lookup o.mnemonic = some form) : o.sizeFits form = true := by
  have htable : ∀ o ∈ table, (sequentialForms.lookup o.mnemonic).all o.sizeFits = true := by decide
  have hfits := htable o ho
  rwa [h, Option.all_some] at hfits

theorem leastSize_le_of_slot (access : SlotAccess) (hfits : o.sizeFits access.form = true)
    (haccepts : o.operand.accepts i.operand = true) (ha : i.formAction access.form = .ok a) :
    a.leastSize ≤ o.size := by
  have hfits : o.operand = .uint8 ∧ o.size = 2 ∨ o.operand = .uint16 ∧ o.size = 4 := by
    cases access <;> exact of_decide_eq_true hfits
  obtain ⟨k, hk, rfl⟩ := access.formAction_eq_ok_iff.1 ha
  rw [SlotAccess.leastSize_action]
  rcases hfits with ⟨hkind, hsize⟩ | ⟨-, hsize⟩ <;> rw [hsize]
  · rw [hkind] at haccepts
    exact slotSize_le_two (Operand.index_le_of_accepts haccepts hk)
  · exact slotSize_le_four k

theorem leastSize_le_of_constant (hfits : o.sizeFits .constant = true)
    (haccepts : o.operand.accepts i.operand = true) (ha : i.formAction .constant = .ok a) :
    a.leastSize ≤ o.size := by
  obtain ⟨n, hn, rfl⟩ := Instruction.formAction_constant_eq_ok_iff.1 ha
  rcases of_decide_eq_true hfits with ⟨hkind, hsize⟩ | ⟨-, hsize⟩ <;> rw [hsize]
  · rw [hkind] at haccepts
    exact constantSize_le_two (Operand.toInt8_of_accepts haccepts hn)
  · exact constantSize_le_five n

/-- No entry of the table that accepts the operand takes fewer bytes. -/
theorem leastSize_le (ho : o ∈ table) (hm : i.mnemonic = o.mnemonic)
    (haccepts : o.operand.accepts i.operand = true) (ha : i.action? = .ok a) :
    a.leastSize ≤ o.size := by
  have htable : ∀ o ∈ table, 1 ≤ o.size := by decide
  have hpos := htable o ho
  cases Instruction.reads_of_action? ha with
  | leave _ h =>
      subst h
      exact hpos
  | branch _ h =>
      unfold branchAction? at h
      split at h <;> cases h <;> exact hpos
  | call _ h =>
      unfold callAction? at h
      split at h <;> cases h <;> exact hpos
  | @sequential form _ hlookup hform =>
      rw [hm] at hlookup
      have hfits := sizeFits_of_lookup ho hlookup
      cases form with
      | plain b =>
          -- one byte is the least there is
          cases hform
          rw [of_decide_eq_true hfits]
          exact hpos
      | constant => exact leastSize_le_of_constant hfits haccepts hform
      | loadArgument => exact leastSize_le_of_slot .loadArgument hfits haccepts hform
      | loadLocal => exact leastSize_le_of_slot .loadLocal hfits haccepts hform
      | storeLocal => exact leastSize_le_of_slot .storeLocal hfits haccepts hform
      | _ =>
          obtain ⟨_, -, rfl⟩ := map_eq_ok hform
          exact hpos

end Opcode

/-! ### The chosen forms -/

/-- The table has the mnemonic of the form and accepts its operand; the instruction is read as the
action, and is as short as can be. -/
structure Encodes (form : String × Operand) (a : Action) (o : Opcode) : Prop where
  lookup : Opcode.lookup form.1 = some o
  accepts : o.operand.accepts form.2 = true
  size : o.size = a.leastSize
  action? : ∀ i : Instruction,
    i.mnemonic = o.mnemonic → i.flow = o.flow → i.operand = form.2 → i.action? = .ok a

theorem encodes_of_sequential {form : String × Operand} {a : Action} {o : Opcode} {f : ActionForm}
    (hlookup : Opcode.lookup form.1 = some o) (hflow : o.flow = .sequential)
    (hform : sequentialForms.lookup o.mnemonic = some f)
    (haccepts : o.operand.accepts form.2 = true) (hsize : o.size = a.leastSize)
    (haction : ∀ i : Instruction, i.operand = form.2 → i.formAction f = .ok a) :
    Encodes form a o where
  lookup := hlookup
  accepts := haccepts
  size := hsize
  action? i hm hi hoperand := by
    rw [Instruction.action?, hi, hflow]
    dsimp only
    rw [hm, hform]
    exact haction i hoperand

theorem encodes_constant {n : Int32} {x : Operand} {o : Opcode}
    (hlookup : Opcode.lookup o.mnemonic = some o) (hflow : o.flow = .sequential)
    (hform : sequentialForms.lookup o.mnemonic = some .constant)
    (haccepts : o.operand.accepts x = true) (hx : x.int32? = some n)
    (hsize : o.size = constantSize n) :
    Encodes (o.mnemonic, x) (.loadConstant n) o := by
  refine encodes_of_sequential hlookup hflow hform haccepts hsize fun i hi => ?_
  rw [Instruction.formAction_constant_eq_ok_iff, hi]
  exact ⟨n, hx, rfl⟩

theorem encodes_constantForm (n : Int32) : ∃ o, Encodes (constantForm n) (.loadConstant n) o := by
  unfold constantForm
  rcases hn : smallConstants.lookup n with - | m
  · dsimp only
    split
    · rename_i hbyte
      refine ⟨_, encodes_constant (o := ⟨"ldc.i4.s", 2, .sequential, .int8⟩) rfl rfl rfl rfl
        (congrArg some hbyte) ?_⟩
      rw [constantSize, hn, if_pos hbyte]
      rfl
    · rename_i hbyte
      refine ⟨_, encodes_constant (o := ⟨"ldc.i4", 5, .sequential, .int32⟩) rfl rfl rfl rfl
        rfl ?_⟩
      rw [constantSize, hn, if_neg hbyte]
      rfl
  · -- the mnemonic has an entry without operand, which is read as this constant
    have htable : ∀ p ∈ smallConstants, ∃ o ∈ Opcode.table, Opcode.lookup p.2 = some o ∧
        o.flow = .sequential ∧ o.operand = .none ∧ o.size = 1 ∧
        sequentialForms.lookup o.mnemonic = some (.plain (.loadConstant p.1)) := by decide
    obtain ⟨l₁, l₂, hl, -⟩ := List.lookup_eq_some_iff.1 hn
    obtain ⟨o, -, hlookup, hflow, hkind, hsize, hform⟩ :=
      htable (n, m) (hl ▸ List.mem_append_right l₁ List.mem_cons_self)
    refine ⟨o, encodes_of_sequential hlookup hflow hform ?_ ?_ fun i _ => rfl⟩
    · rw [hkind]
      rfl
    · rw [hsize, Action.leastSize, constantSize, hn]
      rfl

theorem encodes_slot {access : SlotAccess} {k : UInt16} {o : Opcode}
    (hlookup : Opcode.lookup o.mnemonic = some o) (hflow : o.flow = .sequential)
    (hform : sequentialForms.lookup o.mnemonic = some access.form)
    (haccepts : o.operand.accepts (access.operand k) = true) (hsize : o.size = slotSize k) :
    Encodes (o.mnemonic, access.operand k) (access.action k) o := by
  refine encodes_of_sequential hlookup hflow hform haccepts ?_ fun i hi => ?_
  · rw [hsize, SlotAccess.leastSize_action]
  · rw [SlotAccess.formAction_eq_ok_iff, hi]
    exact ⟨k, access.index?_operand k, rfl⟩

theorem encodes_slotForm (access : SlotAccess) (k : UInt16) :
    ∃ o, Encodes (slotForm access.family access.operand k) (access.action k) o := by
  unfold slotForm
  split
  · rename_i hown
    obtain rfl | rfl | rfl | rfl : k = 0 ∨ k = 1 ∨ k = 2 ∨ k = 3 := by
      simp only [← UInt16.toNat_inj]
      rw [UInt16.lt_iff_toNat_lt] at hown
      change k.toNat < 4 at hown
      change k.toNat = 0 ∨ k.toNat = 1 ∨ k.toNat = 2 ∨ k.toNat = 3
      omega
    -- four slots and three ways to access them, each with an entry of its own
    all_goals
      cases access <;>
        exact ⟨_, encodes_of_sequential (f := .plain _) rfl rfl rfl rfl rfl fun _ _ => rfl⟩
  · rename_i hown
    split
    · rename_i hbyte
      refine ⟨_, encodes_slot (o := ⟨access.family ++ ".s", 2, .sequential, .uint8⟩)
        ?_ rfl ?_ ?_ ?_⟩
      · cases access <;> rfl
      · cases access <;> rfl
      · cases access <;> exact decide_eq_true hbyte
      · rw [slotSize, if_neg hown, if_pos hbyte]
    · rename_i hbyte
      refine ⟨_, encodes_slot (o := ⟨access.family, 4, .sequential, .uint16⟩) ?_ rfl ?_ ?_ ?_⟩
      · cases access <;> rfl
      · cases access <;> rfl
      · cases access <;> rfl
      · rw [slotSize, if_neg hown, if_neg hbyte]

/-! ### What the instructions mean -/

namespace Machine

variable {ctx : Context} {s : Machine} {f : Frame} {F : List Frame} {S : OperandStack} {v : Value}

theorem push_top (hs : s.calls.frames = f :: F) (v : Value) :
    push v s = (.ok (), s.withStack (v :: f.stack)) := by
  have hpush := push_withStack (S := f.stack) hs v
  rwa [withStack_self hs rfl] at hpush

theorem load_apply (read : Frame → Except ExecError Value) (hs : s.calls.frames = f :: F) :
    (do push (← read (← frame))
        proceed : Op Effect) s = match read f with
      | .ok v => (.ok (.outcome .next), s.withStack (v :: f.stack))
      | .error e => (.error (.execution e), s) := by
  have hframe : frame s = (.ok f, s) := by
    rw [frame_apply, CallStack.current, hs]
    rfl
  rw [op_bind_apply, hframe]
  dsimp only
  rw [op_bind_apply, lift_apply]
  rcases read f with e | v
  · rfl
  · dsimp only [Except.mapError]
    rw [op_bind_apply, push_top hs]
    rfl

theorem store_apply (k : Nat) (hs : s.calls.frames = f :: F) (hf : f.stack = v :: S) :
    (do setLocal k (← pop)
        proceed : Op Effect) s = match f.locals.set k v with
      | .ok locals => (.ok (.outcome .next),
          { s with calls.frames := { f with locals, stack := S } :: F })
      | .error e => (.error (.execution e), s.withStack S) := by
  have hself := withStack_self hs hf
  conv_lhs => rw [← hself]
  rw [op_bind_apply, pop_withStack hs]
  dsimp only
  rw [op_bind_apply, setLocal, Correspondence.onFrame_apply, withStack_eq hs]
  simp only [CallStack.current, bind, Except.bind]
  rcases f.locals.set k v with e | locals
  · rfl
  · rfl

end Machine

namespace Instruction

/-- In every machine with a frame, the instruction pushes what is read off the top frame.  Where
there is nothing to be read it fails with that error, and the machine stays as it is. -/
def Loads (read : Frame → Except ExecError Value) (i : Instruction) : Prop :=
  ∀ (ctx : Context) (fuel : Nat) (s : Machine) (f : Frame) (F : List Frame),
    s.calls.frames = f :: F → Machine.step ctx fuel i s = some (match read f with
      | .ok v => (.ok .next, s.withStack (v :: f.stack))
      | .error e => (.error (.execution e), s))

def LoadsConstant (n : Int32) : Instruction → Prop := Loads fun _ => .ok (.int32 n)

/-- The only error is that there is no argument of this number. -/
def LoadsArgument (k : UInt16) : Instruction → Prop := Loads fun f =>
  match f.arguments[k.toNat]? with
  | some v => .ok v
  | none => .error (.argumentOutOfBounds k.toNat f.arguments.length)

/-- The only error is that there is no local slot of this number. -/
def LoadsLocal (k : UInt16) : Instruction → Prop := Loads fun f =>
  match f.locals[k.toNat]? with
  | some slot => .ok slot.value
  | none => .error (.localOutOfBounds k.toNat f.locals.length)

/-- In every machine with a value on top of the operand stack, the instruction pops this value and
stores it in the local slot.  It fails if there is no slot of this number or the value does not fit
the flavor of the slot; the value is popped, but nothing is stored. -/
def StoresLocal (k : UInt16) (i : Instruction) : Prop :=
  ∀ (ctx : Context) (fuel : Nat) (s : Machine) (f : Frame) (F : List Frame) (v : Value)
    (S : OperandStack), s.calls.frames = f :: F → f.stack = v :: S →
    Machine.step ctx fuel i s = some (match f.locals[k.toNat]? with
      | some slot =>
        if v.fits slot.flavor then
          (.ok .next, { s with calls.frames :=
            { f with locals := List.set f.locals k.toNat { slot with value := v }
                     stack := S } :: F })
        else
          (.error (.execution (.invalidOperationTypes (.storeLocal slot.flavor k.toNat) [v.kind])),
            s.withStack S)
      | none => (.error (.execution (.localOutOfBounds k.toNat f.locals.length)), s.withStack S))

end Instruction

namespace Machine

/-- The machine with one frame that has neither arguments nor locals, and null on its operand
stack. -/
def probe : Machine := { calls := { frames := [{ stack := [.null] }], limit := 0 } }

/-- The constant or the access that is recognized by what a step leaves of that machine.  A local
that is loaded and one that is stored differ in what becomes of the operand stack. -/
def recognize : Except Failure Outcome × Machine → Option Action
  | (.ok _, s) =>
    match s.calls.frames with
    | { stack := .int32 n :: _, .. } :: _ => some (.loadConstant n)
    | _ => none
  | (.error (.execution (.argumentOutOfBounds k _)), _) => some (.loadArgument k.toUInt16)
  | (.error (.execution (.localOutOfBounds k _)), s) =>
    match s.calls.frames with
    | { stack := [], .. } :: _ => some (.storeLocal k.toUInt16)
    | _ => some (.loadLocal k.toUInt16)
  | _ => none

/-- What is recognized is what the instruction is read as. -/
theorem action?_of_recognize {i : Instruction} {a : Action} {p : Except Failure Outcome × Machine}
    (h : step { catalog := {} } 0 i probe = some p) (hp : recognize p = some a) :
    i.action? = .ok a := by
  rcases hb : i.action? with e | b
  · -- a refusal is none of the errors that are recognized
    rw [step_of_refused _ hb] at h
    cases h
    cases i.action?_refuses e hb <;> cases hp
  · refine congrArg Except.ok ?_
    rw [step, stepWith_apply, performInstruction_of_action hb] at h
    cases b with
    | loadConstant n =>
        cases h
        exact Option.some.inj hp
    | loadArgument k | loadLocal k | storeLocal k =>
        cases h
        rw [← Option.some.inj hp]
        exact congrArg _ UInt16.ofNat_toNat.symm
    | convert op => cases op <;> cases h <;> cases hp
    | newObject ctor =>
        -- however many arguments are popped, there is no type of which to make an object
        have hrefused (n : Nat) : ∃ e u, (popMany n >>= fun args => do
            return .call (← prepareConstruction { catalog := {} } ctor args).2 : Op Effect) probe =
            (.error (.execution e), u) ∧ recognize (.error (.execution e), u) = none := by
          rcases n with - | - | n <;> exact ⟨_, _, rfl, rfl⟩
        obtain ⟨e, u, hrun, hnone⟩ := hrefused ctor.paramCount
        rw [perform, hrun] at h
        cases h
        rw [hnone] at hp
        cases hp
    | _ =>
        cases h
        cases hp

end Machine

namespace Instruction

variable {i : Instruction} {a : Action} {read : Frame → Except ExecError Value}

theorem loads_of_action (ha : i.action? = .ok a)
    (hperform : ∀ ctx s f F, s.calls.frames = f :: F → Machine.perform ctx a s = match read f with
      | .ok v => (.ok (.outcome .next), s.withStack (v :: f.stack))
      | .error e => (.error (.execution e), s)) : i.Loads read := by
  intro ctx fuel s f F hs
  have h := hperform ctx s f F hs
  rcases hread : read f with e | v <;> rw [hread] at h
  · exact Machine.step_of_error ha h fuel
  · exact Machine.step_of_outcome ha h fuel

/-- One machine is enough. -/
theorem Loads.action? (h : i.Loads read)
    (ha : Machine.recognize (match read { stack := [.null] } with
      | .ok v => (.ok .next, Machine.probe.withStack [v, .null])
      | .error e => (.error (.execution e), Machine.probe)) = some a) : i.action? = .ok a :=
  Machine.action?_of_recognize (h _ _ _ _ _ rfl) ha

theorem loadsConstant_iff {n : Int32} :
    i.LoadsConstant n ↔ i.action? = .ok (.loadConstant n) := by
  refine ⟨fun h => h.action? rfl, fun ha => loads_of_action ha fun ctx s f F hs => ?_⟩
  rw [Machine.perform, op_bind_apply, Machine.push_top hs]
  rfl

theorem loadsArgument_iff {k : UInt16} :
    i.LoadsArgument k ↔ i.action? = .ok (.loadArgument k) := by
  refine ⟨fun h => h.action? (congrArg (fun k => some (Action.loadArgument k)) UInt16.ofNat_toNat),
    fun ha => loads_of_action ha fun ctx s f F hs => ?_⟩
  exact Machine.load_apply (·.argument k.toNat) hs

theorem loadsLocal_iff {k : UInt16} : i.LoadsLocal k ↔ i.action? = .ok (.loadLocal k) := by
  refine ⟨fun h => h.action? (congrArg (fun k => some (Action.loadLocal k)) UInt16.ofNat_toNat),
    fun ha => loads_of_action ha fun ctx s f F hs => ?_⟩
  exact Machine.load_apply (·.locals.get k.toNat) hs

theorem storesLocal_iff {k : UInt16} : i.StoresLocal k ↔ i.action? = .ok (.storeLocal k) := by
  constructor
  · intro h
    exact Machine.action?_of_recognize (h _ _ _ _ _ _ _ rfl rfl)
      (congrArg (fun k => some (Action.storeLocal k)) UInt16.ofNat_toNat)
  · intro ha ctx fuel s f F v S hs hf
    have hperform : Machine.perform ctx (.storeLocal k) s = _ := Machine.store_apply k.toNat hs hf
    rw [Locals.set] at hperform
    rcases hslot : f.locals[k.toNat]? with - | slot <;> simp only [hslot] at hperform
    · exact Machine.step_of_error ha hperform fuel
    · cases hfits : v.fits slot.flavor <;> simp only [hfits] at hperform
      · rw [Machine.step_of_error ha hperform fuel]
        simp only [hfits]
        rfl
      · rw [Machine.step_of_outcome ha hperform fuel]
        simp only [hfits]
        rfl

end Instruction

/-! ### The choice of the assembler -/

namespace Assembler

/-- The assembler accepts the item and places an instruction that means what it should.  No other
instruction that an entry of the opcode table allows at this position and that means this is
shorter. -/
def PlacesShortest (s : Assembler) (item : Item) (means : Instruction → Prop) : Prop :=
  ∃ o ∈ Opcode.table, ∃ operand, o.operand.accepts operand = true ∧
    add item s = (.ok (), s.place o operand) ∧ means (s.next o operand) ∧
    ∀ o' ∈ Opcode.table, ∀ operand', o'.operand.accepts operand' = true →
      means (s.next o' operand') → o.size ≤ o'.size

theorem placesShortest_of_encodes {item : Item} {form : String × Operand} {a : Action} {o : Opcode}
    {means : Instruction → Prop} (hadd : add item = emitForm form) (hform : Encodes form a o)
    (hmeans : ∀ i, means i ↔ i.action? = .ok a) (s : Assembler) : s.PlacesShortest item means := by
  refine ⟨o, List.mem_of_find?_eq_some hform.lookup, form.2, hform.accepts, ?_, ?_, ?_⟩
  · rw [hadd]
    exact emit_of_accepts hform.lookup hform.accepts s
  · exact (hmeans _).2 (hform.action? _ rfl rfl rfl)
  · intro o' ho' operand' haccepts hmeans'
    rw [hform.size]
    exact Opcode.leastSize_le ho' rfl haccepts ((hmeans _).1 hmeans')

theorem placesShortest_slot (access : SlotAccess) (k : UInt16) {means : Instruction → Prop}
    (hmeans : ∀ i, means i ↔ i.action? = .ok (access.action k)) (s : Assembler) :
    s.PlacesShortest (access.item k) means := by
  obtain ⟨o, hform⟩ := encodes_slotForm access k
  exact placesShortest_of_encodes (by cases access <;> rfl) hform hmeans s

/-- **The shortest forms mean what was asked for.**  The assembler always accepts a constant and an
access to a slot.  For a constant it places an instruction that pushes this constant in every frame;
for an argument, a local that is to be loaded, or one that is to be stored, an instruction that
accesses the slot of just this number, or fails because there is no such slot or the value does not
fit it.  In each case no entry of the opcode table that can do the same is shorter. -/
theorem shortest_forms (s : Assembler) :
    (∀ n, s.PlacesShortest (.constant n) (Instruction.LoadsConstant n)) ∧
    (∀ k, s.PlacesShortest (.loadArgument k) (Instruction.LoadsArgument k)) ∧
    (∀ k, s.PlacesShortest (.loadLocal k) (Instruction.LoadsLocal k)) ∧
    (∀ k, s.PlacesShortest (.storeLocal k) (Instruction.StoresLocal k)) := by
  refine ⟨fun n => ?_, fun k => ?_, fun k => ?_, fun k => ?_⟩
  · obtain ⟨o, hform⟩ := encodes_constantForm n
    exact placesShortest_of_encodes rfl hform (fun _ => Instruction.loadsConstant_iff) s
  · exact placesShortest_slot .loadArgument k (fun _ => Instruction.loadsArgument_iff) s
  · exact placesShortest_slot .loadLocal k (fun _ => Instruction.loadsLocal_iff) s
  · exact placesShortest_slot .storeLocal k (fun _ => Instruction.storesLocal_iff) s

end Assembler

end CilMachine
