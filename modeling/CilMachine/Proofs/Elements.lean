/-
CilMachine/Proofs/Elements.lean

Reads and writes of value arrays.  An access has a width: a store cuts the integer that it is given
to this width and extends it by its sign, and a load does the same to what it finds.  Whatever the
widths are, a load finds just what the last store at this element has left, and no store touches
another element (`store_then_load`).

A store is turned into an equation for its operands first (`storeElement_apply`), and from that into
one for operands that name an element (`storeElement_of_targets`).  It succeeds with no other
operands (`targets_of_storeElement`), which is where the exact condition for failing comes from.
-/
import CilMachine.Proofs.Consumption
import CilMachine.Proofs.ElementTypes

namespace CilMachine

/-! ### Widths -/

namespace ElementWidth

/-- Two to the number of bits that an access sees. -/
def modulus : ElementWidth → Nat
  | w8 => 0x100
  | w16 => 0x10000
  | w32 => 0x100000000

/-- The end of the mnemonics. -/
def suffix : ElementWidth → String
  | w8 => "i1"
  | w16 => "i2"
  | w32 => "i4"

/-- What is seen is the number in the signed range of the width that it is congruent to. -/
theorem toInt_cut (w : ElementWidth) (n : Int64) : (w.cut n).toInt = n.toInt.bmod w.modulus := by
  cases w with
  | w8 => exact (Int8.toInt_toInt32 _).trans n.toInt_toInt8
  | w16 => exact (Int16.toInt_toInt32 _).trans n.toInt_toInt16
  | w32 => exact n.toInt_toInt32

end ElementWidth

namespace Instruction

variable {i : Instruction} {w : ElementWidth}

/-- The instruction loads an element of a value array. -/
def LoadsElement (w : ElementWidth) (i : Instruction) : Prop :=
  i.flow = .sequential ∧ i.mnemonic = "ldelem." ++ w.suffix

/-- The instruction stores to an element of a value array. -/
def StoresElement (w : ElementWidth) (i : Instruction) : Prop :=
  i.flow = .sequential ∧ i.mnemonic = "stelem." ++ w.suffix

theorem LoadsElement.action? (hi : i.LoadsElement w) : i.action? = .ok (.loadElement w) := by
  obtain ⟨hflow, hmnemonic⟩ := hi
  cases w <;> simp only [Instruction.action?, hflow, hmnemonic] <;> rfl

theorem StoresElement.action? (hi : i.StoresElement w) : i.action? = .ok (.storeElement w) := by
  obtain ⟨hflow, hmnemonic⟩ := hi
  cases w <;> simp only [Instruction.action?, hflow, hmnemonic] <;> rfl

end Instruction

/-! ### The heap -/

namespace Heap

variable {h : Heap} {a r : Handle} {k j : Nat} {element : TypeRef} {items : Array Value} {v : Value}

/-- What is written to an element is what is read there. -/
theorem getElement_replace_self (hget : h.get? a = some (.array element (.values items)))
    (hk : k < items.size) :
    (h.replace a (.array element (.values (items.setIfInBounds k v)))).getElement a k = .ok v := by
  have hself := get?_replace_self (.array element (.values (items.setIfInBounds k v))) hget
  rw [getElement_of_inRange hself (by rw [Array.size_setIfInBounds]; omega), Int.toNat_natCast,
    Array.getD_eq_getD_getElem?, Array.getElem?_setIfInBounds_self_of_lt hk]
  rfl

theorem getElement_congr {l : Heap} (heq : l.get? r = h.get? r) (index : Int) :
    l.getElement r index = h.getElement r index := by
  rw [getElement, getElement, getValues, getValues, get, get, heq]

/-- The other elements are as before, also those that there are not. -/
theorem getElement_replace_of_ne (hget : h.get? a = some (.array element (.values items)))
    (hne : r = a → j ≠ k) :
    (h.replace a (.array element (.values (items.setIfInBounds k v)))).getElement r j =
      h.getElement r j := by
  by_cases hr : r = a
  · subst hr
    have hself := get?_replace_self (.array element (.values (items.setIfInBounds k v))) hget
    rw [getElement, getElement, getValues_eq_ok.2 hself, getValues_eq_ok.2 hget]
    simp only [bind, Except.bind, Array.size_setIfInBounds]
    rcases hindex : checkedIndex j items.size with e | j'
    · rfl
    · obtain ⟨hj, -⟩ := checkedIndex_eq_ok_iff.1 hindex
      have hne' : k ≠ j' := by
        have := hne rfl
        omega
      simp only [Array.getD_eq_getD_getElem?, Array.getElem?_setIfInBounds_ne hne']
  · exact getElement_congr (get?_replace_of_ne _ hr) j

end Heap

/-! ### Equations -/

namespace Machine

variable {ctx : Context} {s t u : Machine} {i : Instruction} {w : ElementWidth} {a r : Handle}
  {k : Nat} {n : Int64} {v index target : Value} {S : OperandStack} {f : Frame} {F : List Frame}
  {element : TypeRef} {items : Array Value}

theorem storeElement_apply {m : Int64} (hs : s.calls.frames = f :: F)
    (hf : f.stack = v :: index :: .object a :: S) (hv : v.integer? = some n)
    (hm : index.integer? = some m) :
    storeElement w s = match s.heap.setElement a m.toInt (.int32 (w.cut n)) with
      | .ok h => (.ok (.outcome .next), { s.withStack S with heap := h })
      | .error e => (.error (.execution e), s.withStack S) := by
  conv_lhs => rw [← withStack_self hs hf]
  rw [storeElement, op_bind_apply, pop_withStack hs]
  dsimp only
  rw [op_bind_apply, popInteger_withStack hs hm]
  dsimp only
  rw [op_bind_apply, popObject_withStack hs]
  simp only [hv]
  have hheap : (s.withStack S).heap = s.heap := rfl
  rw [op_bind_apply, Correspondence.writeHeap_apply, hheap]
  rcases s.heap.setElement a m.toInt (.int32 (w.cut n)) with e | h
  · rfl
  · rfl

/-- The operands of a store are an integer, an index and a value array that has such an element. -/
structure Targets (h : Heap) (v index target : Value) (n : Int64) (a : Handle) (k : Nat)
    (element : TypeRef) (items : Array Value) : Prop where
  value : v.integer? = some n
  index : ∃ m : Int64, index.integer? = some m ∧ m.toInt = k
  target : target = .object a
  array : h.get? a = some (.array element (.values items))
  inRange : k < items.size

theorem storeElement_of_targets (hs : s.calls.frames = f :: F)
    (hf : f.stack = v :: index :: target :: S)
    (h : Targets s.heap v index target n a k element items) :
    storeElement w s = (.ok (.outcome .next), { s.withStack S with
      heap := s.heap.replace a
        (.array element (.values (items.setIfInBounds k (.int32 (w.cut n))))) }) := by
  obtain ⟨hv, ⟨m, hm, hk⟩, rfl, hget, hlt⟩ := h
  have hset : s.heap.setElement a k (.int32 (w.cut n)) = .ok (s.heap.replace a
      (.array element (.values (items.setIfInBounds k (.int32 (w.cut n)))))) :=
    Heap.setElement_eq_ok.2 ⟨element, items, k, hget, checkedIndex_natCast hlt, rfl⟩
  rw [storeElement_apply hs hf hv hm, hk, hset]

/-- Only with such operands does a store succeed. -/
theorem targets_of_storeElement (hs : s.calls.frames = f :: F)
    (hf : f.stack = v :: index :: target :: S) {e : Effect}
    (h : storeElement w s = (.ok e, u)) :
    ∃ n a k element items, Targets s.heap v index target n a k element items := by
  rw [← withStack_self hs hf, storeElement, op_bind_apply, pop_withStack hs] at h
  obtain ⟨m, t, hindex, h⟩ := op_bind_eq_ok h
  obtain ⟨index', hpop, hm⟩ := popInteger_eq_ok hindex
  rw [pop_withStack hs] at hpop
  cases hpop
  obtain ⟨a, t, htarget, h⟩ := op_bind_eq_ok h
  have hpop := popObject_eq_ok htarget
  rw [pop_withStack hs] at hpop
  cases hpop
  rcases hv : v.integer? with - | n <;> simp only [hv] at h
  · cases h
  · obtain ⟨_, t, hwrite, -⟩ := op_bind_eq_ok h
    rw [Correspondence.writeHeap_apply] at hwrite
    rcases hset : s.heap.setElement a m.toInt (.int32 (w.cut n)) with e' | l
    · have hset' : (s.withStack S).heap.setElement a m.toInt (.int32 (w.cut n)) = _ := hset
      rw [hset'] at hwrite
      cases hwrite
    · obtain ⟨element, items, k, hget, hk, -⟩ := Heap.setElement_eq_ok.1 hset
      obtain ⟨hindex, hlt⟩ := Heap.checkedIndex_eq_ok_iff.1 hk
      exact ⟨n, a, k, element, items, hv, ⟨m, hm, hindex⟩, rfl, hget, hlt⟩

/-! ### Loads and stores -/

/-- The operands of a store are not what it needs: the value is no integer, the index is none, the
target is no value array, or the index is outside of it. -/
inductive Refuses (h : Heap) (v index target : Value) : Prop
  | value : v.integer? = none → Refuses h v index target
  | index : index.integer? = none → Refuses h v index target
  | target : (∀ a element items, target = .object a →
      h.get? a ≠ some (.array element (.values items))) → Refuses h v index target
  | outside {m : Int64} {a : Handle} {element : TypeRef} {items : Array Value} :
      index.integer? = some m → target = .object a →
      h.get? a = some (.array element (.values items)) → ¬ (0 ≤ m.toInt ∧ m.toInt < items.size) →
      Refuses h v index target

theorem Targets.not_refuses {h : Heap} (htargets : Targets h v index target n a k element items) :
    ¬ Refuses h v index target := by
  obtain ⟨hv, ⟨m, hm, hk⟩, rfl, hget, hlt⟩ := htargets
  rintro (hnone | hnone | hnone | ⟨hm', htarget, hget', houtside⟩)
  · rw [hv] at hnone
    cases hnone
  · rw [hm] at hnone
    cases hnone
  · exact hnone _ _ _ rfl hget
  · rw [hm] at hm'
    cases hm'
    cases htarget
    rw [hget] at hget'
    cases hget'
    omega

theorem targets_or_refuses (h : Heap) (v index target : Value) :
    (∃ n a k element items, Targets h v index target n a k element items) ∨
      Refuses h v index target := by
  rcases hv : v.integer? with - | n
  · exact .inr (.value hv)
  rcases hm : index.integer? with - | m
  · exact .inr (.index hm)
  by_cases harray : ∃ a element items, target = .object a ∧
      h.get? a = some (.array element (.values items))
  · obtain ⟨a, element, items, htarget, hget⟩ := harray
    by_cases hindex : 0 ≤ m.toInt ∧ m.toInt < items.size
    · exact .inl ⟨n, a, m.toInt.toNat, element, items, hv, ⟨m, hm, by omega⟩, htarget, hget,
        by omega⟩
    · exact .inr (.outside hm htarget hget hindex)
  · exact .inr (.target fun a element items htarget hget =>
      harray ⟨a, element, items, htarget, hget⟩)

/-- The instruction loads the element `k` of the array `a`, with the operands `S` left. -/
inductive LoadsAt (i : Instruction) (w : ElementWidth) (a : Handle) (k : Nat) (S : OperandStack)
    (s : Machine) : Prop
  | intro {f : Frame} {F : List Frame} : i.LoadsElement w → s.calls.frames = f :: F →
      Selects a k S f.stack → LoadsAt i w a k S s

/-- The integer has been cut to the width and written to the element; nothing else has changed but
that the operands are gone.

A load of this element, of whatever width, finds the integer as the store has left it, and cuts that
to its own width.  A load of another element comes out as before the store. -/
structure Writes (w : ElementWidth) (n : Int64) (a : Handle) (k : Nat) (element : TypeRef)
    (items : Array Value) (S : OperandStack) (s u : Machine) : Prop where
  rest : u = { s.withStack S with heap := u.heap }
  size : u.heap.size = s.heap.size
  others : ∀ r, r ≠ a → u.heap.get? r = s.heap.get? r
  array : ∃ items', u.heap.get? a = some (.array element (.values items')) ∧
    items'.size = items.size
  found : ∀ ctx i w' S' t, t.heap = u.heap → LoadsAt i w' a k S' t → ∃ y : Int32,
    y.toInt = (n.toInt.bmod w.modulus).bmod w'.modulus ∧
      ∀ fuel, step ctx fuel i t = some (.ok .next, t.withStack (.int32 y :: S'))
  elsewhere : ∀ ctx i w' r j S' t, (r = a → j ≠ k) → LoadsAt i w' r j S' t → ∃ result S'',
    ∀ fuel,
      step ctx fuel i { t with heap := s.heap } =
        some (result, { t.withStack S'' with heap := s.heap }) ∧
      step ctx fuel i { t with heap := u.heap } =
        some (result, { t.withStack S'' with heap := u.heap })

theorem step_of_found {S' : OperandStack} {x : Int32} (hload : LoadsAt i w a k S' t)
    (hget : t.heap.getElement a k = .ok (.int32 x)) (ctx : Context) (fuel : Nat) :
    step ctx fuel i t = some (.ok .next, t.withStack (.int32 (w.cut x.toInt64) :: S')) := by
  obtain ⟨hi, hs, index, m, hf, hm, hk⟩ := hload
  refine step_of_outcome hi.action? ?_ fuel
  show loadElement w t = _
  rw [loadElement_apply hs hf hm, hk, hget]
  rfl

/-- A load depends on the element only. -/
theorem step_congr_element {S' : OperandStack} {h l : Heap} {j : Nat} (hload : LoadsAt i w r j S' t)
    (heq : l.getElement r j = h.getElement r j) (ctx : Context) :
    ∃ result S'', ∀ fuel,
      step ctx fuel i { t with heap := h } = some (result, { t.withStack S'' with heap := h }) ∧
      step ctx fuel i { t with heap := l } = some (result, { t.withStack S'' with heap := l }) := by
  obtain ⟨hi, hs, index, m, hf, hm, hk⟩ := hload
  have hh : perform ctx (.loadElement w) { t with heap := h } = _ :=
    loadElement_apply (s := { t with heap := h }) hs hf hm
  have hl : perform ctx (.loadElement w) { t with heap := l } = _ :=
    loadElement_apply (s := { t with heap := l }) hs hf hm
  dsimp only at hh hl
  rw [hk] at hh hl
  rw [heq] at hl
  rcases hget : h.getElement r j with e | x <;> simp only [hget] at hh hl
  · exact ⟨_, S', fun fuel => ⟨step_of_error hi.action? hh fuel, step_of_error hi.action? hl fuel⟩⟩
  rcases hx : x.int32? with - | y <;> simp only [hx] at hh hl
  · exact ⟨_, S', fun fuel => ⟨step_of_error hi.action? hh fuel, step_of_error hi.action? hl fuel⟩⟩
  · exact ⟨_, _, fun fuel =>
      ⟨step_of_outcome hi.action? hh fuel, step_of_outcome hi.action? hl fuel⟩⟩

theorem writes_of_targets (htargets : Targets s.heap v index target n a k element items)
    (hu : u = { s.withStack S with
      heap := s.heap.replace a
        (.array element (.values (items.setIfInBounds k (.int32 (w.cut n))))) }) :
    Writes w n a k element items S s u := by
  obtain ⟨-, -, -, hget, hlt⟩ := htargets
  subst hu
  refine ⟨rfl, Heap.size_replace _ _ _, fun r hr => Heap.get?_replace_of_ne _ hr,
    ⟨_, Heap.get?_replace_self _ hget, Array.size_setIfInBounds⟩, ?_, ?_⟩
  · intro ctx i w' S' t hheap hload
    have hfound : t.heap.getElement a k = .ok (.int32 (w.cut n)) := by
      rw [hheap]
      exact Heap.getElement_replace_self hget hlt
    refine ⟨w'.cut (w.cut n).toInt64, ?_, fun fuel => step_of_found hload hfound ctx fuel⟩
    rw [w'.toInt_cut, Int32.toInt_toInt64, w.toInt_cut]
  · intro ctx i w' r j S' t hne hload
    exact step_congr_element hload (Heap.getElement_replace_of_ne hget hne) ctx

/-- **A load sees the last store.**  Let there be three operands for a store of a width.  It fails
exactly if the value is no integer, the index is no integer, the target is no value array, or the
index is outside of it; and then it leaves the heap as it was.  Otherwise it changes one element, so
that a load of any width finds there the integer cut to the one width and then to the other, and
finds everywhere else what it found before. -/
theorem store_then_load (ctx : Context) (hi : i.StoresElement w) (hs : s.calls.frames = f :: F)
    (hf : f.stack = v :: index :: target :: S) :
    ∃ result u, (∀ fuel, step ctx fuel i s = some (result, u)) ∧
      ((∃ e, result = .error e) ↔ Refuses s.heap v index target) ∧
      ((∃ e, result = .error e) → u.heap = s.heap) ∧
      ∀ o, result = .ok o → o = .next ∧ ∃ n a k element items,
        Targets s.heap v index target n a k element items ∧
          Writes w n a k element items S s u := by
  rcases targets_or_refuses s.heap v index target with
    ⟨n, a, k, element, items, htargets⟩ | hrefuses
  · refine ⟨.ok .next, _, step_of_outcome hi.action? (storeElement_of_targets hs hf htargets),
      ⟨?_, fun hrefuses => absurd hrefuses htargets.not_refuses⟩, ?_, ?_⟩
    · rintro ⟨e, ⟨⟩⟩
    · rintro ⟨e, ⟨⟩⟩
    · rintro o ⟨⟩
      exact ⟨rfl, n, a, k, element, items, htargets, writes_of_targets htargets rfl⟩
  · have htidy := tidy_storeElement w s ⟨f, F, hs⟩
    rcases hstore : storeElement w s with ⟨e | effect, u⟩
    · rw [hstore] at htidy
      cases htidy with
      | fails hconsumes =>
          refine ⟨.error e, u, step_of_error hi.action? hstore,
            ⟨fun _ => hrefuses, fun _ => ⟨e, rfl⟩⟩, fun _ => ?_, ?_⟩
          · obtain ⟨-, -⟩ := hconsumes
            rfl
          · rintro o ⟨⟩
    · obtain ⟨n, a, k, element, items, htargets⟩ := targets_of_storeElement hs hf hstore
      exact absurd hrefuses htargets.not_refuses

end Machine

namespace Sample

/-- An array of two integers. -/
def numbers : Heap := ⟨#[.array (.corelib "System.Int32") (.values #[.int32 3, .int32 5])]⟩

def putShort : Instruction := ⟨0, 1, "stelem.i2", .sequential, .none⟩

def takeByte : Instruction := ⟨1, 1, "ldelem.i1", .sequential, .none⟩

end Sample

namespace Machine

/-- Of 40000 a store of 16 bits leaves -25536, and of that a load of 8 bits finds 64. -/
theorem store_then_load_short :
    ∃ u, step Sample.constructorContext 1 Sample.putShort
        (Sample.shelving Sample.numbers [.int64 40000, .int32 1, .object ⟨1⟩]) =
          some (.ok .next, u) ∧
      step Sample.constructorContext 1 Sample.takeByte
          (Sample.shelving u.heap [.int64 1, .object ⟨1⟩, .null]) =
        some (.ok .next, (Sample.shelving u.heap [.int64 1, .object ⟨1⟩, .null]).withStack
          [.int32 64, .null]) := by
  have hi : Sample.putShort.StoresElement .w16 := ⟨rfl, rfl⟩
  obtain ⟨result, u, hstep, -, -, hwrites⟩ := store_then_load Sample.constructorContext hi
    (s := Sample.shelving Sample.numbers [.int64 40000, .int32 1, .object ⟨1⟩]) rfl rfl
  have hsucceeds : (step Sample.constructorContext 1 Sample.putShort
      (Sample.shelving Sample.numbers [.int64 40000, .int32 1, .object ⟨1⟩])).map Prod.fst =
        some (.ok .next) := rfl
  rw [hstep 1] at hsucceeds
  cases hsucceeds
  obtain ⟨-, n, a, k, element, items, ⟨hn, ⟨m, hm, hk⟩, ha, -, -⟩, hwritten⟩ := hwrites _ rfl
  cases hn
  cases hm
  cases ha
  obtain rfl : k = 1 := Int.ofNat_inj.1 hk.symm
  have hload : LoadsAt Sample.takeByte .w8 ⟨1⟩ 1 [.null]
      (Sample.shelving u.heap [.int64 1, .object ⟨1⟩, .null]) :=
    .intro ⟨rfl, rfl⟩ rfl ⟨.int64 1, 1, rfl, rfl, rfl⟩
  obtain ⟨y, hy, hfound⟩ :=
    hwritten.found Sample.constructorContext _ _ _ (Sample.shelving u.heap _) rfl hload
  obtain rfl : y = 64 := Int32.toInt_inj.1 hy
  exact ⟨u, hstep 1, hfound 1⟩

end Machine

end CilMachine
