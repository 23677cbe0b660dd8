/-
CilMachine/Proofs/Ancestry.lean

Hierarchies are well founded.  The lookups of the catalog climb from a type to its base, by the name
of the base, until they find what they look for or there is no base; nothing in them bounds the
climb.  Here they are written down as the loops that they are (`search`, `collect`), with a number
of rounds that may fail to suffice.

A base is registered before the types that derive from it, hence from every registered type there is
a climb to a type without a base (`Climbs`), through distinct registered types, so as many rounds as
there are types suffice (`Extends.grounded`).  With it the loops end in what the catalog's functions
compute from the list of types, no base is ever missing, and to be assignable is a partial order in
which the ancestors of a type are linearly ordered (`Extends.founded`).
-/
import CilMachine.Proofs.Extension
import Mathlib.Order.Preorder.Chain

namespace CilMachine

namespace Catalog

variable {α : Type} {P : Native → Prop} {c c' : Catalog} {r s : TypeRef} {t u : TypeDef}
  {ts us : List TypeDef}

/-! ### The lookups as loops -/

/-- The base of a type, found by its name. -/
def baseOf (c : Catalog) (t : TypeDef) : Except ExecError (Option TypeDef) :=
  match t.base with
  | none => .ok none
  | some base => (c.resolveType base).map some

/-- From a type on to its base and so on, until `found` gives an answer; `none` if that takes more
rounds. -/
def search (c : Catalog) (found : TypeDef → Option α) :
    Nat → Option TypeDef → Option (Except ExecError (Option α))
  | _, none => some (.ok none)
  | 0, some _ => none
  | rounds + 1, some t =>
    match found t with
    | some a => some (.ok (some a))
    | none =>
      match c.baseOf t with
      | .ok base => c.search found rounds base
      | .error e => some (.error e)

theorem search_none (c : Catalog) (found : TypeDef → Option α) (rounds : Nat) :
    c.search found rounds none = some (.ok none) := by
  cases rounds <;> rfl

/-- From a type on to its base and so on, through all of them; `none` if that takes more rounds. -/
def collect (c : Catalog) : Nat → Option TypeDef → Option (Except ExecError (List TypeDef))
  | _, none => some (.ok [])
  | 0, some _ => none
  | rounds + 1, some t =>
    match c.baseOf t with
    | .ok base => (c.collect rounds base).map (·.map (t :: ·))
    | .error e => some (.error e)

theorem collect_none (c : Catalog) (rounds : Nat) : c.collect rounds none = some (.ok []) := by
  cases rounds <;> rfl

/-- The search for a member, from the declaring type on. -/
def memberLoop (c : Catalog) (rounds : Nat) (declaring : TypeRef) (found : TypeDef → Option α)
    (missing : Missing) : Option (Except ExecError α) :=
  match c.resolveType declaring with
  | .ok t => (c.search found rounds (some t)).map fun answer => do
    match ← answer with
    | some a => .ok a
    | none => .error (.unresolved missing)
  | .error e => some (.error e)

/-- The method that a reference means. -/
def methodLoop (c : Catalog) (rounds : Nat) (m : MethodRef) : Option (Except ExecError Method) :=
  c.memberLoop rounds m.declaring (·.method? m.name m.paramCount) (.method m)

/-- The field that a reference means. -/
def fieldLoop (c : Catalog) (rounds : Nat) (f : FieldRef) : Option (Except ExecError Field) :=
  c.memberLoop rounds f.declaring (·.field? f.name) (.field f)

/-- The method of a name that a virtual call reaches on objects of a type. -/
def overrideLoop (c : Catalog) (rounds : Nat) (t : TypeDef) (name : String) :
    Option (Except ExecError (Option Method)) :=
  c.search (·.concrete? name) rounds (some t)

/-- Whether a type is another or derives from it. -/
def assignableLoop (c : Catalog) (rounds : Nat) (t : TypeDef) (target : TypeRef) :
    Option (Except ExecError Bool) :=
  (c.search (fun u => if u.ref = target then some () else none) rounds (some t)).map
    (·.map Option.isSome)

/-- The fields of the instances of a type. -/
def layoutLoop (c : Catalog) (rounds : Nat) (t : TypeDef) :
    Option (Except ExecError (Named Flavor)) :=
  (c.collect rounds (some t)).map fun chain => do
    (← chain).reverse.foldlM (fun l d => c.extendLayout l d.fields) []

/-! ### Climbs -/

/-- The types that are met from `t` on, to a type without a base. -/
inductive Climbs (c : Catalog) : TypeDef → List TypeDef → Prop
  | root {t : TypeDef} : c.baseOf t = .ok none → Climbs c t [t]
  | step {t u : TypeDef} {us : List TypeDef} : c.baseOf t = .ok (some u) → Climbs c u us →
      Climbs c t (t :: us)

theorem Climbs.search_eq (h : c.Climbs t ts) (found : TypeDef → Option α) {rounds : Nat}
    (hrounds : ts.length ≤ rounds) :
    c.search found rounds (some t) = some (.ok (ts.findSome? found)) := by
  induction h generalizing rounds with
  | root hbase =>
      rcases rounds with - | n
      · cases hrounds
      rw [search, hbase, List.findSome?_singleton]
      split <;> rename_i hfound <;> rw [hfound]
      exact search_none c found n
  | step hbase _ ih =>
      rcases rounds with - | n
      · cases hrounds
      rw [search, hbase, List.findSome?_cons]
      split <;> rename_i hfound <;> rw [hfound]
      exact ih (Nat.le_of_succ_le_succ hrounds)

theorem Climbs.collect_eq (h : c.Climbs t ts) {rounds : Nat} (hrounds : ts.length ≤ rounds) :
    c.collect rounds (some t) = some (.ok ts) := by
  induction h generalizing rounds with
  | root hbase =>
      rcases rounds with - | n
      · cases hrounds
      rw [collect, hbase]
      dsimp only
      rw [collect_none]
      rfl
  | step hbase _ ih =>
      rcases rounds with - | n
      · cases hrounds
      rw [collect, hbase]
      dsimp only
      rw [ih (Nat.le_of_succ_le_succ hrounds)]
      rfl

theorem Climbs.head_mem (h : c.Climbs t ts) : t ∈ ts := by
  cases h <;> exact List.mem_cons_self

theorem Climbs.unique (h : c.Climbs t ts) (h' : c.Climbs t us) : ts = us := by
  induction h generalizing us with
  | root hbase =>
      cases h' with
      | root _ => rfl
      | step hbase' _ => cases hbase.symm.trans hbase'
  | step hbase _ ih =>
      cases h' with
      | root hbase' => cases hbase.symm.trans hbase'
      | step hbase' hus =>
          cases hbase.symm.trans hbase'
          rw [ih hus]

/-- From a type that is met, the climb goes on as it does anyway. -/
theorem Climbs.suffix (h : c.Climbs t ts) (hu : u ∈ ts) : ∃ us, c.Climbs u us ∧ us <:+ ts := by
  induction h with
  | root hbase =>
      obtain rfl := List.mem_singleton.1 hu
      exact ⟨_, .root hbase, List.suffix_rfl⟩
  | step hbase hclimb ih =>
      rcases List.mem_cons.1 hu with rfl | hu
      · exact ⟨_, .step hbase hclimb, List.suffix_rfl⟩
      · obtain ⟨us, hus, hsuffix⟩ := ih hu
        exact ⟨us, hus, hsuffix.trans (List.suffix_cons _ _)⟩

theorem baseOf_eq_some (h : c.baseOf t = .ok (some u)) :
    ∃ base, t.base = some base ∧ c.resolveType base = .ok u := by
  rcases hbase : t.base with - | base <;> simp only [baseOf, hbase] at h
  · cases h
  rcases hr : c.resolveType base with e | t' <;> rw [hr] at h <;> cases h
  exact ⟨base, rfl, hr⟩

/-- A catalog that finds the types of another has its climbs. -/
theorem Climbs.upheld (h : c.Climbs t ts) (hup : c'.Upholds c) : c'.Climbs t ts := by
  have hbaseOf : ∀ {t base}, c.baseOf t = .ok base → c'.baseOf t = .ok base := by
    intro t base hbase
    rcases hname : t.base with - | name <;> simp only [baseOf, hname] at hbase ⊢
    · exact hbase
    rcases hr : c.resolveType name with e | u <;> rw [hr] at hbase
    · cases hbase
    · rw [hup.type name u hr]
      exact hbase
  induction h with
  | root hbase => exact .root (hbaseOf hbase)
  | step hbase _ ih => exact .step (hbaseOf hbase) ih

/-! ### Grounded catalogs -/

/-- From every type there is a climb, no longer than there are types, and the catalog knows it. -/
def Grounded (c : Catalog) : Prop :=
  ∀ t ∈ c.types, ∃ ts, c.Climbs t ts ∧ ts.length ≤ c.size ∧ c.ancestry t.ref = .ok ts

theorem mem_of_resolveType (h : c.resolveType r = .ok t) : t ∈ c.types :=
  List.mem_of_find?_eq_some (resolveType_eq_ok.1 h)

/-- A new type is above none, and what it derives from is grounded. -/
theorem Grounded.register {d : TypeDecl} (h : c.Grounded) (hregister : c.register d = .ok (t, c')) :
    c'.Grounded := by
  have hup : c'.Upholds c := upholds_register hregister
  have hplaceable := placeable_of_register hregister
  have hfound : c'.get? d.ref = some t := by rw [get?_register hregister, if_pos rfl]
  obtain ⟨-, hheader, -, rfl⟩ := register_eq_ok hregister
  have hbase : t.base = d.base := congrArg TypeHeader.base hheader
  intro t' ht'
  rcases List.mem_cons.1 ht' with rfl | ht'
  · rcases hd : d.base with - | base
    · have ht : t'.base = none := hbase.trans hd
      refine ⟨[t'], .root (by simp only [baseOf, ht]), Nat.le_add_left 1 _, ?_⟩
      simp only [ancestry, chain, if_true, ht]
    · have ht : t'.base = some base := hbase.trans hd
      -- the base was there before, so the climb from it does not meet the new type
      obtain ⟨u, hu⟩ := contains_iff_resolveType.1 (hplaceable.base base hd)
      obtain ⟨us, hclimb, hlength, hus⟩ := h u (mem_of_resolveType hu)
      rw [ref_of_resolveType hu] at hus
      refine ⟨t' :: us, .step (u := u) ?_ (hclimb.upheld hup), Nat.succ_le_succ hlength, ?_⟩
      · simp only [baseOf, ht, hup.type base u hu]
        rfl
      · have hchain : chain c.types base = .ok us := hus
        simp only [ancestry, chain, if_true, ht, hchain]
        rfl
  · obtain ⟨ts, hclimb, hlength, hts⟩ := h t' ht'
    exact ⟨ts, hclimb.upheld hup, Nat.le_succ_of_le hlength, ancestry_register hregister hts⟩

theorem Grounded.registerNative (h : c.Grounded) (m : MethodRef) (routine : Native) :
    (c.registerNative m routine).Grounded := by
  intro t ht
  obtain ⟨ts, hclimb, hlength, hts⟩ := h t ht
  exact ⟨ts, hclimb.upheld (upholds_registerNative c m routine), hlength, hts⟩

/-- Registrations keep a catalog grounded. -/
theorem Extends.grounded (h : c.Extends P c') (hc : c.Grounded) : c'.Grounded := by
  induction h with
  | refl => exact hc
  | register _ _ hregister ih => exact ih.register hregister
  | registerNative m _ _ ih => exact ih.registerNative m _

theorem grounded_empty : Grounded {} := by
  intro t ht
  cases ht

/-! ### The loops end -/

theorem chain_of_forall_ne {types : List TypeDef} (h : ∀ d ∈ types, d.ref ≠ r) :
    chain types r = .error (.unresolved (.type r)) := by
  induction types with
  | nil => rfl
  | cons d older ih =>
      rw [chain, if_neg (h d List.mem_cons_self)]
      exact ih fun d' hd' => h d' (List.mem_cons_of_mem d hd')

/-- A type that is not registered has no chain of bases, for that reason. -/
theorem ancestry_of_not_contains (h : c.contains r = false) :
    c.resolveType r = .error (.unresolved (.type r)) ∧
      c.ancestry r = .error (.unresolved (.type r)) := by
  have hnone : c.get? r = none := by simpa [contains] using h
  refine ⟨by rw [resolveType, hnone], chain_of_forall_ne fun d hd => ?_⟩
  have := List.find?_eq_none.1 hnone d hd
  simpa using this

/-- A name is registered with a climb from its type, or it is not registered. -/
theorem Grounded.lookup (h : c.Grounded) (r : TypeRef) :
    (∃ t ts, c.resolveType r = .ok t ∧ c.Climbs t ts ∧ ts.length ≤ c.size ∧
      c.ancestry r = .ok ts) ∨ c.contains r = false := by
  rcases hr : c.contains r
  · exact .inr rfl
  · obtain ⟨t, ht⟩ := contains_iff_resolveType.1 hr
    obtain ⟨ts, hclimb, hlength, hts⟩ := h t (mem_of_resolveType ht)
    rw [ref_of_resolveType ht] at hts
    exact .inl ⟨t, ts, ht, hclimb, hlength, hts⟩

/-- In so many rounds each loop ends, in what the catalog's function computes. -/
structure LoopsEnd (c : Catalog) (rounds : Nat) : Prop where
  method : ∀ m, c.methodLoop rounds m = some (c.resolveMethod m)
  field : ∀ f, c.fieldLoop rounds f = some (c.resolveField f)
  override : ∀ t ∈ c.types, ∀ name, c.overrideLoop rounds t name = some (c.findOverride t.ref name)
  assignable : ∀ t ∈ c.types, ∀ target,
    c.assignableLoop rounds t target = some (c.isAssignable t.ref target)
  layout : ∀ t ∈ c.types, c.layoutLoop rounds t = some (c.instanceFields t.ref)

/-- What the nearest type that has an answer gives, along the chain of bases. -/
def nearest (c : Catalog) (r : TypeRef) (found : TypeDef → Option α) (missing : Missing) :
    Except ExecError α := do
  match (← c.ancestry r).findSome? found with
  | some a => .ok a
  | none => .error (.unresolved missing)

theorem resolveMethod_eq_nearest (c : Catalog) (m : MethodRef) :
    c.resolveMethod m = c.nearest m.declaring (·.method? m.name m.paramCount) (.method m) := by
  unfold resolveMethod nearest
  congr 1
  funext ts
  generalize List.findSome? _ ts = answer
  cases answer <;> rfl

theorem resolveField_eq_nearest (c : Catalog) (f : FieldRef) :
    c.resolveField f = c.nearest f.declaring (·.field? f.name) (.field f) := by
  unfold resolveField nearest
  congr 1
  funext ts
  generalize List.findSome? _ ts = answer
  cases answer <;> rfl

theorem Grounded.memberLoop_eq (h : c.Grounded) {rounds : Nat} (hrounds : c.size ≤ rounds)
    (r : TypeRef) (found : TypeDef → Option α) (missing : Missing) :
    c.memberLoop rounds r found missing = some (c.nearest r found missing) := by
  rcases h.lookup r with ⟨t, ts, ht, hclimb, hlength, hts⟩ | hr
  · rw [memberLoop, nearest, ht, hts]
    dsimp only
    rw [hclimb.search_eq found (hlength.trans hrounds)]
    rfl
  · obtain ⟨htype, hancestry⟩ := ancestry_of_not_contains hr
    rw [memberLoop, nearest, htype, hancestry]
    rfl

theorem isSome_findSome?_ref (ts : List TypeDef) (target : TypeRef) :
    (ts.findSome? fun u => if u.ref = target then some () else none).isSome =
      ts.any (·.ref == target) := by
  induction ts with
  | nil => rfl
  | cons t ts ih =>
      rw [List.findSome?_cons, List.any_cons]
      rcases Decidable.em (t.ref = target) with heq | hne
      · simp [heq]
      · rw [if_neg hne, beq_false_of_ne hne, ih, Bool.false_or]

theorem Grounded.loopsEnd (h : c.Grounded) {rounds : Nat} (hrounds : c.size ≤ rounds) :
    c.LoopsEnd rounds where
  method m := by
    rw [resolveMethod_eq_nearest]
    exact h.memberLoop_eq hrounds _ _ _
  field f := by
    rw [resolveField_eq_nearest]
    exact h.memberLoop_eq hrounds _ _ _
  override t ht name := by
    obtain ⟨ts, hclimb, hlength, hts⟩ := h t ht
    rw [overrideLoop, hclimb.search_eq _ (hlength.trans hrounds), findOverride, hts]
    rfl
  assignable t ht target := by
    obtain ⟨ts, hclimb, hlength, hts⟩ := h t ht
    rw [assignableLoop, hclimb.search_eq _ (hlength.trans hrounds), isAssignable, hts]
    exact congrArg (fun b => some (Except.ok b)) (isSome_findSome?_ref ts target)
  layout t ht := by
    obtain ⟨ts, hclimb, hlength, hts⟩ := h t ht
    rw [layoutLoop, hclimb.collect_eq (hlength.trans hrounds), instanceFields, hts]
    rfl

/-! ### The order of types -/

/-- A type is another or derives from it. -/
def Derives (c : Catalog) (r s : TypeRef) : Prop := c.isAssignable r s = .ok true

theorem derives_iff (hts : c.ancestry r = .ok ts) : c.Derives r s ↔ ∃ u ∈ ts, u.ref = s := by
  have hassignable : c.isAssignable r s = .ok (ts.any (·.ref == s)) := by
    rw [isAssignable, hts]
    rfl
  rw [Derives, hassignable]
  simp

theorem Climbs.left_unique (h : c.Climbs t ts) (h' : c.Climbs u ts) : t = u := by
  cases h <;> cases h' <;> rfl

/-- The registered types have distinct names. -/
theorem Grounded.resolveType (h : c.Grounded) (ht : t ∈ c.types) : c.resolveType t.ref = .ok t := by
  obtain ⟨ts, hclimb, -, hts⟩ := h t ht
  rcases h.lookup t.ref with ⟨t', ts', ht', hclimb', -, hts'⟩ | hnot
  · cases hts.symm.trans hts'
    rw [ht', hclimb.left_unique hclimb']
  · cases hts.symm.trans (ancestry_of_not_contains hnot).2

/-- What a type derives from is registered, and its bases end those of the type. -/
theorem Grounded.suffix (h : c.Grounded) (hts : c.ancestry r = .ok ts) (hu : u ∈ ts) :
    ∃ us, c.Climbs u us ∧ c.ancestry u.ref = .ok us ∧ us <:+ ts := by
  obtain ⟨t, ht, rfl⟩ := contains_of_chain hts
  obtain ⟨ts', hclimb, -, hts'⟩ := h t ht
  cases hts.symm.trans hts'
  obtain ⟨us, hus, hsuffix⟩ := hclimb.suffix hu
  obtain ⟨us', hus', -, hancestry⟩ := h u (mem_of_chain hts u hu)
  cases hus.unique hus'
  exact ⟨us, hus, hancestry, hsuffix⟩

theorem Grounded.mem_ancestry (h : c.Grounded) (hts : c.ancestry r = .ok ts) (hu : u ∈ c.types)
    (hru : c.Derives r u.ref) : u ∈ ts := by
  obtain ⟨u', hu', href⟩ := (derives_iff hts).1 hru
  have heq := h.resolveType (mem_of_chain hts u' hu')
  rw [href, h.resolveType hu] at heq
  cases heq
  exact hu'

/-- The registered types, by name. -/
abbrev Registered (c : Catalog) : Type := {r : TypeRef // c.contains r = true}

theorem Grounded.ancestry_registered (h : c.Grounded) (r : c.Registered) :
    ∃ t ts, t ∈ ts ∧ t.ref = r.1 ∧ c.ancestry r.1 = .ok ts := by
  rcases h.lookup r.1 with ⟨t, ts, ht, hclimb, -, hts⟩ | hnot
  · exact ⟨t, ts, hclimb.head_mem, ref_of_resolveType ht, hts⟩
  · cases r.2.symm.trans hnot

theorem Grounded.isPartialOrder (h : c.Grounded) :
    IsPartialOrder c.Registered fun r s => c.Derives r.1 s.1 where
  refl r := by
    obtain ⟨t, ts, ht, href, hts⟩ := h.ancestry_registered r
    exact (derives_iff hts).2 ⟨t, ht, href⟩
  trans r s w hrs hsw := by
    obtain ⟨-, ts, -, -, hts⟩ := h.ancestry_registered r
    obtain ⟨u, hu, hus⟩ := (derives_iff hts).1 hrs
    obtain ⟨us, -, hancestry, hsuffix⟩ := h.suffix hts hu
    obtain ⟨v, hv, hvw⟩ := (derives_iff (hus ▸ hancestry)).1 hsw
    exact (derives_iff hts).2 ⟨v, hsuffix.subset hv, hvw⟩
  antisymm r s hrs hsr := by
    -- the chain of each ends that of the other, so the two are the same and begin alike
    obtain ⟨t, ts, -, -, hts⟩ := h.ancestry_registered r
    obtain ⟨u, hu, hus⟩ := (derives_iff hts).1 hrs
    obtain ⟨us, hclimb, hancestry, hsuffix⟩ := h.suffix hts hu
    obtain ⟨v, hv, hvr⟩ := (derives_iff (hus ▸ hancestry)).1 hsr
    obtain ⟨vs, hclimb', hancestry', hsuffix'⟩ := h.suffix hancestry hv
    rw [hvr] at hancestry'
    cases hts.symm.trans hancestry'
    cases hsuffix.eq_of_length (Nat.le_antisymm hsuffix.length_le hsuffix'.length_le)
    cases hclimb.left_unique hclimb'
    exact Subtype.ext (hvr.symm.trans hus)

theorem Grounded.isChain (h : c.Grounded) (r : c.Registered) :
    IsChain (fun s w : c.Registered => c.Derives s.1 w.1) {s | c.Derives r.1 s.1} := by
  intro s hs w hw _
  obtain ⟨-, ts, -, -, hts⟩ := h.ancestry_registered r
  obtain ⟨u, hu, hus⟩ := (derives_iff hts).1 hs
  obtain ⟨v, hv, hvw⟩ := (derives_iff hts).1 hw
  obtain ⟨us, hclimb, hancestry, hsuffix⟩ := h.suffix hts hu
  obtain ⟨vs, hclimb', hancestry', hsuffix'⟩ := h.suffix hts hv
  rw [hus] at hancestry
  rw [hvw] at hancestry'
  -- of two ends of one chain, the one is an end of the other
  rcases List.suffix_or_suffix_of_suffix hsuffix hsuffix' with hle | hle
  · exact .inr ((derives_iff hancestry').2 ⟨u, hle.subset hclimb.head_mem, hus⟩)
  · exact .inl ((derives_iff hancestry).2 ⟨v, hle.subset hclimb'.head_mem, hvw⟩)

theorem Grounded.wellFounded (h : c.Grounded) :
    WellFounded fun u t : TypeDef => t ∈ c.types ∧ c.baseOf t = .ok (some u) := by
  have hacc : ∀ {t ts}, c.Climbs t ts →
      Acc (fun u t : TypeDef => t ∈ c.types ∧ c.baseOf t = .ok (some u)) t := by
    intro t ts hclimb
    induction hclimb with
    | root hbase =>
        refine ⟨_, fun u hu => ?_⟩
        cases hbase.symm.trans hu.2
    | step hbase _ ih =>
        refine ⟨_, fun u hu => ?_⟩
        cases hbase.symm.trans hu.2
        exact ih
  refine ⟨fun t => ⟨t, fun u hu => ?_⟩⟩
  obtain ⟨_, -, hfound⟩ := baseOf_eq_some hu.2
  obtain ⟨us, hclimb, -⟩ := h u (mem_of_resolveType hfound)
  exact hacc hclimb

/-! ### How the lookups fail -/

/-- A lookup of a member fails for the declaring type or for the member: the one is not registered,
or no type that it derives from has the other. -/
def FailsFor (c : Catalog) (r : TypeRef) (found : TypeDef → Option α) (missing : Missing)
    (e : ExecError) : Prop :=
  (c.contains r = false ∧ e = .unresolved (.type r)) ∨
    (c.contains r = true ∧ e = .unresolved missing ∧
      ∀ u ∈ c.types, c.Derives r u.ref → found u = none)

/-- No lookup fails for a base.  Two do not fail on registered types, two fail for the declaring
type or the member, and a layout fails for the type of a field that is declared by a base. -/
structure NoBaseMissing (c : Catalog) : Prop where
  override : ∀ t ∈ c.types, ∀ name, ∃ found, c.findOverride t.ref name = .ok found
  assignable : ∀ t ∈ c.types, ∀ target, ∃ b, c.isAssignable t.ref target = .ok b
  method : ∀ m e, c.resolveMethod m = .error e →
    c.FailsFor m.declaring (·.method? m.name m.paramCount) (.method m) e
  field : ∀ f e, c.resolveField f = .error e → c.FailsFor f.declaring (·.field? f.name) (.field f) e
  layout : ∀ t ∈ c.types, ∀ e, c.instanceFields t.ref = .error e →
    ∃ u ∈ c.types, c.Derives t.ref u.ref ∧
      ∃ f ∈ u.fields, c.contains f.type = false ∧ e = .unresolved (.type f.type)

theorem Grounded.failsFor (h : c.Grounded) {found : TypeDef → Option α} {missing : Missing}
    {e : ExecError} (he : c.nearest r found missing = .error e) : c.FailsFor r found missing e := by
  rcases h.lookup r with ⟨t, ts, ht, -, -, hts⟩ | hr
  · rw [nearest, hts] at he
    have hnearest : (match ts.findSome? found with
        | some a => Except.ok a
        | none => .error (ExecError.unresolved missing)) = .error e := he
    split at hnearest
    · cases hnearest
    · rename_i hnone
      cases hnearest
      refine .inr ⟨contains_iff_resolveType.2 ⟨t, ht⟩, rfl, fun u hu hru => ?_⟩
      exact List.findSome?_eq_none_iff.1 hnone u (h.mem_ancestry hts hu hru)
  · rw [nearest, (ancestry_of_not_contains hr).2] at he
    cases he
    exact .inl ⟨hr, rfl⟩

/-- A fold that fails fails in a step. -/
theorem foldlM_eq_error {ε β γ : Type} {f : β → γ → Except ε β} {as : List γ} {b : β} {e : ε}
    (h : as.foldlM f b = .error e) : ∃ a ∈ as, ∃ b, f b a = .error e := by
  induction as generalizing b with
  | nil => cases h
  | cons a as ih =>
      rw [List.foldlM_cons] at h
      rcases hstep : f b a with e' | b' <;> rw [hstep] at h
      · cases h
        exact ⟨a, List.mem_cons_self, b, hstep⟩
      · obtain ⟨a', ha', hfails⟩ := ih h
        exact ⟨a', List.mem_cons_of_mem a ha', hfails⟩

theorem extendLayout_eq_error {layout : Named Flavor} {fields : List Field} {e : ExecError}
    (h : c.extendLayout layout fields = .error e) :
    ∃ f ∈ fields, c.contains f.type = false ∧ e = .unresolved (.type f.type) := by
  obtain ⟨f, hf, l, hstep⟩ := foldlM_eq_error h
  refine ⟨f, hf, ?_⟩
  rcases hr : c.contains f.type
  · rw [flavorOf, (ancestry_of_not_contains hr).1] at hstep
    cases hstep
    exact ⟨rfl, rfl⟩
  · obtain ⟨t, ht⟩ := contains_iff_resolveType.1 hr
    rw [flavorOf, ht] at hstep
    cases hstep

theorem Grounded.noBaseMissing (h : c.Grounded) : c.NoBaseMissing where
  override t ht name := by
    obtain ⟨ts, -, -, hts⟩ := h t ht
    exact ⟨ts.findSome? (·.concrete? name), by rw [findOverride, hts]; rfl⟩
  assignable t ht target := by
    obtain ⟨ts, -, -, hts⟩ := h t ht
    exact ⟨ts.any (·.ref == target), by rw [isAssignable, hts]; rfl⟩
  method m e he := h.failsFor (c.resolveMethod_eq_nearest m ▸ he)
  field f e he := h.failsFor (c.resolveField_eq_nearest f ▸ he)
  layout t ht e he := by
    obtain ⟨ts, -, -, hts⟩ := h t ht
    rw [instanceFields, hts] at he
    obtain ⟨u, hu, layout, hextend⟩ := foldlM_eq_error he
    have hu : u ∈ ts := List.mem_reverse.1 hu
    exact ⟨u, mem_of_chain hts u hu, (derives_iff hts).2 ⟨u, hu, rfl⟩,
      extendLayout_eq_error hextend⟩

/-- **Hierarchies are well founded.**  In whatever way a catalog has been put together, there is no
endless descent from a type to its base; the five lookups along the bases end, in no more rounds
than there are types, with what the catalog's functions compute; none of them fails for want of a
base; and derivation is a partial order on the registered types in which the ancestors of each form
a chain. -/
theorem Extends.founded (h : Extends (fun _ => True) {} c) :
    WellFounded (fun u t : TypeDef => t ∈ c.types ∧ c.baseOf t = .ok (some u)) ∧
      (∀ rounds, c.size ≤ rounds → c.LoopsEnd rounds) ∧
      c.NoBaseMissing ∧
      IsPartialOrder c.Registered (fun r s => c.Derives r.1 s.1) ∧
      ∀ r : c.Registered,
        IsChain (fun s w : c.Registered => c.Derives s.1 w.1) {s | c.Derives r.1 s.1} := by
  have hc : c.Grounded := h.grounded grounded_empty
  exact ⟨hc.wellFounded, fun _ => hc.loopsEnd, hc.noBaseMissing, hc.isPartialOrder, hc.isChain⟩

end Catalog

namespace Sample

/-- A type without a base, and the root of the hierarchy set under it. -/
def rebased : Catalog :=
  (Catalog.add ((TypeDecl.ofRef .object).withBase ⟨"app", "Top"⟩)
    (Catalog.add ((TypeDecl.ofRef ⟨"app", "Top"⟩).withFlavor .i4) {}).2).2

/-- A base that is given to `System.Object` itself is one of its ancestors, found by a loop of two
rounds, and not the other way round. -/
theorem founded_rebased :
    ∃ t ∈ rebased.types, t.ref = .object ∧
      rebased.assignableLoop 2 t ⟨"app", "Top"⟩ = some (.ok true) ∧
      ¬ rebased.Derives ⟨"app", "Top"⟩ .object := by
  have hreached : Catalog.Extends (fun _ => True) {} rebased :=
    (Catalog.Extends.refl.add fun _ _ _ _ => trivial).add fun _ _ _ _ => trivial
  obtain ⟨-, hloops, -, horder, -⟩ := hreached.founded
  have hobject : rebased.contains .object = true := by decide +kernel
  have htop : rebased.contains ⟨"app", "Top"⟩ = true := by decide +kernel
  have hderives : rebased.Derives .object ⟨"app", "Top"⟩ := by
    rw [Catalog.Derives]
    decide +kernel
  obtain ⟨t, ht⟩ := Catalog.contains_iff_resolveType.1 hobject
  have hmem := Catalog.mem_of_resolveType ht
  have href : t.ref = .object := Catalog.ref_of_resolveType ht
  refine ⟨t, hmem, href, ?_, fun hback => ?_⟩
  · rw [(hloops 2 (by decide +kernel)).assignable t hmem, href]
    exact congrArg some hderives
  · have hsame := horder.antisymm ⟨_, hobject⟩ ⟨_, htop⟩ hderives hback
    have hne : TypeRef.object ≠ ⟨"app", "Top"⟩ := by decide
    exact hne (congrArg Subtype.val hsame)

end Sample

end CilMachine
