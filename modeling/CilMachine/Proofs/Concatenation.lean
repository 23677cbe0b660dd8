/-
CilMachine/Proofs/Concatenation.lean

Strings put one behind the other.  The routine reads all its arguments before it adds anything, so
it fails and adds nothing, or adds one object with the texts of all arguments (`run_stringConcat`,
`concatText_eq_ok`).  Units are encoded one character after the other, so the lengths add up
(`Text.Utf16.length_append`).

Concatenations may be nested; what they come to depends only on the texts of the leaves and on their
order (`run_concatenation`).
-/
import CilMachine.Proofs.StringMethods
import CilMachine.Proofs.Texts
import Mathlib.Algebra.Group.Int.Defs

namespace CilMachine

/-! ### The routine -/

namespace Native

variable {h : Heap} {args : List Value} {z : String} {headers : Headers}

/-- The arguments have a text just if each of them has one. -/
theorem concatText_eq_ok :
    concatText h args = .ok z ↔ ∃ texts, List.Forall₂ h.HasText args texts ∧ z = .join texts := by
  constructor
  · intro htext
    obtain ⟨texts, htexts, hz⟩ := bind_eq_ok htext
    refine ⟨texts, (mapM_eq_ok_iff.1 htexts).imp fun v x hx => Heap.concatPart_eq_ok.1 hx, ?_⟩
    exact (Except.ok.inj hz).symm
  · rintro ⟨texts, htexts, rfl⟩
    have hparts := mapM_eq_ok_iff.2 (htexts.imp fun v x hx => Heap.concatPart_eq_ok.2 hx)
    rw [concatText, hparts]
    rfl

/-- The texts are read first; if all are there, one string is added. -/
theorem run_stringConcat (htypes : headers.contains .string = true) (args : List Value)
    (h : Heap) :
    (stringConcat.run headers args).run.run h = match concatText h args with
      | .error e => (.error (.execution e), h)
      | .ok z => (.ok (some (.object h.next)), (h.allocString .string z).2) := by
  show (get >>= fun g => liftM (concatText g args) >>= fun s => allocString headers s >>= fun r =>
    pure (some (.object r)) : Heap.Op (Option Value)) h = _
  show (liftM (concatText h args) >>= fun s => allocString headers s >>= fun r =>
    pure (some (.object r)) : Heap.Op (Option Value)) h = _
  rw [op_bind_apply, Heap.lift_apply]
  rcases concatText h args with e | z
  · rfl
  · show (allocString headers z >>= fun r => pure (some (.object r)) : Heap.Op (Option Value)) h = _
    rw [allocString, if_pos htypes]
    rfl

theorem run_stringConcat_of_hasText (htypes : headers.contains .string = true) {a b : Value}
    {x y : String} (ha : h.HasText a x) (hb : h.HasText b y) :
    (stringConcat.run headers [a, b]).run.run h =
      (.ok (some (.object h.next)), (h.allocString .string (x ++ y)).2) := by
  have htext : concatText h [a, b] = .ok (x ++ y) := by
    refine concatText_eq_ok.2 ⟨[x, y], .cons ha (.cons hb .nil), ?_⟩
    rw [← String.toList_inj, String.toList_join, String.toList_append]
    simp
  rw [run_stringConcat htypes, htext]

theorem run_stringConcat_fails (htypes : headers.contains .string = true) {a b : Value}
    (h : Heap) (hab : ¬ ((∃ x, h.HasText a x) ∧ ∃ y, h.HasText b y)) :
    ∃ e, (stringConcat.run headers [a, b]).run.run h = (.error e, h) := by
  rw [run_stringConcat htypes]
  rcases htext : concatText h [a, b] with e | z
  · exact ⟨_, rfl⟩
  · obtain ⟨texts, htexts, -⟩ := concatText_eq_ok.1 htext
    cases htexts with
    | cons ha htexts => cases htexts with
      | cons hb _ => exact absurd ⟨⟨_, ha⟩, _, hb⟩ hab

end Native

/-! ### Nested concatenations -/

/-- Concatenations of values, nested in some way. -/
inductive Concatenation
  | leaf (v : Value)
  | join (left right : Concatenation)

namespace Concatenation

/-- The values from left to right. -/
def leaves : Concatenation → List Value
  | leaf v => [v]
  | join left right => left.leaves ++ right.leaves

/-- Makes the concatenations by a method, from left to right.  A method that returns nothing is
taken to return null. -/
def run (ctx : Context) (fuel : Nat) (m : Method) : Concatenation → Run Value
  | leaf v => return v
  | join left right => do
    let a ← left.run ctx fuel m
    let b ← right.run ctx fuel m
    return (← Machine.invoke ctx fuel m [a, b]).getD .null

end Concatenation

namespace Machine

variable {ctx : Context} {P : Native → Prop} {m : Method} {s : Machine} {a b : Value} {x y : String}

/-- The concatenation of two texts is a new object. -/
theorem invoke_concat (ctx : Context) (hbody : m.body = .native .stringConcat)
    (hreturns : m.returnsValue = true)
    (htypes : ctx.catalog.headers.contains .string = true) (hroom : s.HasRoom)
    (ha : s.heap.HasText a x) (hb : s.heap.HasText b y) :
    ∃ u, (∀ fuel, invoke ctx (fuel + 1) m [a, b] s = some (.ok (some (.object s.heap.next)), u)) ∧
      u.heap.HasText (.object s.heap.next) (x ++ y) ∧
      ∀ r o, s.heap.get? r = some o → u.heap.get? r = some o := by
  obtain ⟨u, hu, hheap⟩ := invoke_native ctx hbody hroom
    (Native.run_stringConcat_of_hasText htypes ha hb) hreturns.symm
  refine ⟨u, hu, ?_, fun r o ho => ?_⟩ <;> rw [hheap]
  · exact .object (s.heap.get?_alloc_next _) rfl
  · exact Heap.get?_alloc_of_some _ ho

/-- Nested concatenations have the texts of their leaves, from left to right. -/
theorem run_concatenation (hbody : m.body = .native .stringConcat)
    (hreturns : m.returnsValue = true)
    (htypes : ctx.catalog.headers.contains .string = true) (c : Concatenation)
    {texts : List String} (hroom : s.HasRoom)
    (htexts : List.Forall₂ s.heap.HasText c.leaves texts) :
    ∃ v u, (∀ fuel, c.run ctx (fuel + 1) m s = some (.ok v, u)) ∧
      u.heap.HasText v (.join texts) ∧ u.HasRoom ∧
      ∀ r o, s.heap.get? r = some o → u.heap.get? r = some o := by
  induction c generalizing s texts with
  | leaf v =>
      cases htexts with
      | cons hv hnil =>
          cases hnil
          refine ⟨v, s, fun _ => rfl, ?_, hroom, fun _ _ ho => ho⟩
          rw [String.join_cons, String.join_nil, String.append_empty]
          exact hv
  | join left right ihl ihr =>
      -- the first texts are those of the left part, and the others those of the right one
      have hleft := (List.forall₂_take_append _ _ _ htexts.flip).flip
      have hright := (List.forall₂_drop_append _ _ _ htexts.flip).flip
      obtain ⟨a, t, ht, ha, hroomt, hkeptt⟩ := ihl hroom hleft
      obtain ⟨b, t', ht', hb, hroomt', hkeptt'⟩ :=
        ihr hroomt (hright.imp fun _ _ hv => hv.mono hkeptt)
      obtain ⟨u, hu, htext, hkept⟩ :=
        invoke_concat ctx hbody hreturns htypes hroomt' (ha.mono hkeptt') hb
      refine ⟨.object t'.heap.next, u, fun fuel => ?_, ?_, hroomt'.of_invoke (hu 0),
        fun r o ho => hkept r o (hkeptt' r o (hkeptt r o ho))⟩
      · rw [Concatenation.run, Run.bind_apply, ht fuel]
        dsimp only
        rw [Run.bind_apply, ht' fuel]
        dsimp only
        rw [Run.bind_apply, hu fuel]
        rfl
      · rw [← List.take_append_drop left.leaves.length texts, String.join_append]
        exact htext

/-- **Concatenation is a homomorphism.**  In every program with the core library, let two values be
given to the concatenation of strings.  If each of them has a text, where that of null is empty, it
returns a handle that was not in use, of an object with the one text behind the other; all other
objects are what they were; and the length that is told of it is the sum of the two lengths, if it
can be told.  So concatenations that are nested in any way come to the texts of their leaves from
left to right, however they are nested.  If one of the values has no text, the concatenation fails
and the heap is as it was. -/
theorem concatenation_homomorphism (hcatalog : Catalog.withCorelib.Extends P ctx.catalog) :
    ∃ concat length, ctx.catalog.resolveMethod Catalog.concatRef = .ok concat ∧
      ctx.catalog.resolveMethod Catalog.lengthRef = .ok length ∧
      ∀ s : Machine,
        (∀ a b x y, s.heap.HasText a x → s.heap.HasText b y → s.HasRoom → ∃ u,
          (∀ fuel, invoke ctx (fuel + 1) concat [a, b] s =
            some (.ok (some (.object s.heap.next)), u)) ∧
          s.heap.get? s.heap.next = none ∧ u.heap.HasText (.object s.heap.next) (x ++ y) ∧
          (∀ r o, s.heap.get? r = some o → u.heap.get? r = some o) ∧
          ∀ k l, HasLength ctx length s a k → HasLength ctx length s b l → k + l < 2 ^ 31 →
            HasLength ctx length u (.object s.heap.next) (k + l)) ∧
        (∀ v x, s.heap.HasText v x → s.HasRoom →
          HasLength ctx length s v (min (Text.Utf16.length x) maxArrayLength : Nat)) ∧
        (∀ (c : Concatenation) texts, List.Forall₂ s.heap.HasText c.leaves texts → s.HasRoom →
          ∃ v u, (∀ fuel, c.run ctx (fuel + 1) concat s = some (.ok v, u)) ∧
            u.heap.HasText v (.join texts)) ∧
        ∀ a b, ¬ ((∃ x, s.heap.HasText a x) ∧ ∃ y, s.heap.HasText b y) → ∃ e u,
          (∀ fuel, invoke ctx (fuel + 1) concat [a, b] s = some (.error e, u)) ∧
            u.heap = s.heap := by
  obtain ⟨concat, hconcat, hconcatBody, hconcatReturns⟩ := hcatalog.exists_concat
  obtain ⟨length, hlength, hlengthBody, hlengthReturns⟩ := hcatalog.exists_length
  have htypes := hcatalog.contains_string
  have htold (s : Machine) (v : Value) (x : String) (hv : s.heap.HasText v x) (hroom : s.HasRoom) :
      HasLength ctx length s v (min (Text.Utf16.length x) maxArrayLength : Nat) :=
    hasLength_of_hasText ctx hlengthBody hlengthReturns hroom hv
  refine ⟨concat, length, hconcat, hlength, fun s => ⟨?_, htold s, ?_, ?_⟩⟩
  · intro a b x y ha hb hroom
    obtain ⟨u, hu, htext, hkept⟩ :=
      invoke_concat ctx hconcatBody hconcatReturns htypes hroom ha hb
    have hsum := htold u _ _ htext (hroom.of_invoke (hu 0))
    refine ⟨u, hu, s.heap.get?_next, htext, hkept, fun k l hk hl hlt => ?_⟩
    obtain rfl := hk.unique (htold s a x ha hroom)
    obtain rfl := hl.unique (htold s b y hb hroom)
    -- below the limit neither length has been cut off, unless the other one is zero
    have hmax : maxArrayLength = 0x7fffffff := rfl
    rw [Text.Utf16.length_append] at hsum
    have heq : min (Text.Utf16.length x + Text.Utf16.length y) maxArrayLength =
        min (Text.Utf16.length x) maxArrayLength + min (Text.Utf16.length y) maxArrayLength := by
      omega
    rw [heq, Int.natCast_add] at hsum
    exact hsum
  · intro c texts htexts hroom
    obtain ⟨v, u, hu, htext, -, -⟩ :=
      run_concatenation hconcatBody hconcatReturns htypes c hroom htexts
    exact ⟨v, u, hu, htext⟩
  · intro a b hab
    obtain ⟨e, hrun⟩ := Native.run_stringConcat_fails htypes s.heap hab
    exact invoke_native_fails hconcatBody hrun

end Machine

namespace Sample

/-- A string with a character beyond the basic plane. -/
def smiling : Heap := ⟨#[.record .string [(textField, .text "a😀")]]⟩

/-- Itself, nothing, and itself again, nested to the right. -/
def doubled : Concatenation :=
  .join (.leaf (.object ⟨1⟩)) (.join (.leaf .null) (.leaf (.object ⟨1⟩)))

end Sample

namespace Machine

/-- A string behind itself, which is twice as long, and the same with nothing between. -/
theorem concatenation_homomorphism_doubled :
    ∃ concat length u v t,
      invoke Sample.library 1 concat [.object ⟨1⟩, .object ⟨1⟩]
        { Sample.idle with heap := Sample.smiling } = some (.ok (some (.object ⟨2⟩)), u) ∧
      u.heap.HasText (.object ⟨2⟩) "a😀a😀" ∧
      u.heap.get? ⟨1⟩ = some (.record .string [(textField, .text "a😀")]) ∧
      HasLength Sample.library length u (.object ⟨2⟩) 6 ∧
      Sample.doubled.run Sample.library 1 concat { Sample.idle with heap := Sample.smiling } =
        some (.ok v, t) ∧
      t.heap.HasText v "a😀a😀" := by
  have hcatalog : Catalog.withCorelib.Extends (fun _ => True) Sample.library.catalog := .refl
  obtain ⟨concat, length, -, hlength, hconcatenation⟩ := concatenation_homomorphism hcatalog
  obtain ⟨hjoins, htold, hnested, -⟩ := hconcatenation { Sample.idle with heap := Sample.smiling }
  have hsmiling : Sample.smiling.HasText (.object ⟨1⟩) "a😀" := .object rfl rfl
  obtain ⟨u, hu, -, htext, hkept, hsum⟩ := hjoins _ _ _ _ hsmiling hsmiling (by decide)
  have hthree := htold _ _ hsmiling (by decide)
  obtain ⟨v, t, ht, hall⟩ := hnested Sample.doubled ["a😀", "", "a😀"]
    (.cons hsmiling (.cons .null (.cons hsmiling .nil))) (by decide)
  exact ⟨concat, length, u, v, t, hu 0, htext, hkept ⟨1⟩ _ rfl, hsum 3 3 hthree hthree (by decide),
    ht 0, hall⟩

end Machine

end CilMachine
