/-
CilMachine/Proofs/Registration.lean

What registration asks of a declaration, and what it makes of it.  Two sets of conditions stand one
after the other: those on the type, checked before any method is built (`Placeable`), and those on
its methods, checked while the methods are built and bound one by one.  `register_eq_ok_iff`
describes the successful registrations, and `isOk_register_iff` says that there is one exactly if
the declaration is `Registrable`.
-/
import CilMachine.Catalog.Corelib
import CilMachine.Catalog.Hierarchy
import CilMachine.Proofs.Outcome

namespace CilMachine

/-! ### Declared methods -/

namespace MethodDecl

/-- What tells the declared methods of a type apart. -/
def signature (d : MethodDecl) : String × Nat := (d.name, d.params.length)

/-- The name of the method in a type. -/
def ref (d : MethodDecl) (declaring : TypeRef) : MethodRef := ⟨declaring, d.name, d.params.length⟩

/-- The method is built in: it has no routine of its own, is not abstract, and has no code. -/
structure IsBuiltIn (d : MethodDecl) : Prop where
  native : d.native = none
  concrete : d.modifiers.isAbstract = false
  code : ∀ body ∈ d.code, body.isEmpty

theorem isUnbound_build (d : MethodDecl) (t : TypeRef) :
    (d.build t).isUnbound ↔ d.IsBuiltIn := by
  unfold Method.isUnbound
  rw [show (d.build t).body = d.body from rfl]
  unfold MethodDecl.body
  rcases hnative : d.native with - | routine
  · rcases habstract : d.modifiers.isAbstract
    · rcases hcode : d.code with - | body
      · exact iff_of_true rfl ⟨hnative, habstract, by simp [hcode]⟩
      · exact ⟨fun h => ⟨hnative, habstract, by simpa [hcode] using h⟩,
          fun h => h.code body hcode⟩
    · exact iff_of_false Bool.false_ne_true fun h => by
        cases habstract.symm.trans h.concrete
  · exact iff_of_false Bool.false_ne_true fun h => by
      cases hnative.symm.trans h.native

end MethodDecl

namespace Catalog

variable {c c' : Catalog} {natives : NativeRegistry} {t : TypeRef}

/-! ### Binding -/

/-- A method can be bound unless it is built in and has no routine. -/
theorem isOk_bind_iff {d : MethodDecl} :
    (∃ m, bind natives (d.build t) = .ok m) ↔ (d.IsBuiltIn → natives.contains (d.ref t)) := by
  rw [← d.isUnbound_build t]
  unfold bind NativeRegistry.contains
  rw [show (d.build t).ref = d.ref t from rfl]
  rcases (d.build t).isUnbound <;> rcases natives.get? (d.ref t) with - | routine <;> simp

/-- What is bound has a body to run. -/
theorem isUnbound_of_bind {m bound : Method} (h : bind natives m = .ok bound) :
    bound.isUnbound = false := by
  unfold bind at h
  split at h
  · split at h <;> cases h
    rfl
  · cases h
    exact Bool.eq_false_iff.2 ‹_›

/-- The methods are bound if their signatures are new and distinct, and each can be bound. -/
theorem bindAll_eq_ok_iff {ds : List MethodDecl} {taken : List (String × Nat)}
    {ms : List Method} :
    bindAll natives t taken ds = .ok ms ↔
      (ds.map MethodDecl.signature).Nodup ∧ (∀ d ∈ ds, d.signature ∉ taken) ∧
        List.Forall₂ (fun d m => bind natives (d.build t) = .ok m) ds ms := by
  induction ds generalizing taken ms with
  | nil =>
      rw [bindAll]
      constructor
      · rintro ⟨⟩
        exact ⟨List.nodup_nil, by simp, .nil⟩
      · rintro ⟨-, -, ⟨⟩⟩
        rfl
  | cons d ds ih =>
      rw [bindAll]
      dsimp only
      rw [show (d.build t).signature = d.signature from rfl]
      rcases Decidable.em (d.signature ∈ taken) with htaken | htaken
      · rw [if_pos htaken]
        refine iff_of_false (fun h => by cases h) ?_
        rintro ⟨-, hfree, -⟩
        exact hfree d List.mem_cons_self htaken
      rw [if_neg htaken]
      -- the signatures of the rest are new once that of the first is taken too
      have hnew : (∀ d' ∈ ds, d'.signature ∉ d.signature :: taken) ↔
          d.signature ∉ ds.map MethodDecl.signature ∧ ∀ d' ∈ ds, d'.signature ∉ taken := by
        simp only [List.mem_cons, not_or, List.mem_map, not_exists, not_and]
        exact ⟨fun h => ⟨fun d' hd' => (h d' hd').1, fun d' hd' => (h d' hd').2⟩,
          fun h d' hd' => ⟨h.1 d' hd', h.2 d' hd'⟩⟩
      rw [List.map_cons, List.nodup_cons, List.forall_mem_cons]
      constructor
      · intro h
        obtain ⟨bound, hbound, h⟩ := bind_eq_ok h
        obtain ⟨rest, hrest, h⟩ := bind_eq_ok h
        cases h
        obtain ⟨hnodup, hfree, hbind⟩ := ih.1 hrest
        obtain ⟨hd, hfree⟩ := hnew.1 hfree
        exact ⟨⟨hd, hnodup⟩, ⟨htaken, hfree⟩, .cons hbound hbind⟩
      · rintro ⟨⟨hd, hnodup⟩, ⟨-, hfree⟩, hbind⟩
        cases hbind with
        | cons hbound hbind =>
            simp only [hbound, ih.2 ⟨hnodup, hnew.2 ⟨hd, hfree⟩, hbind⟩]
            rfl

/-- The methods can be bound together if each of them can. -/
theorem exists_bound_iff {ds : List MethodDecl} :
    (∃ ms, List.Forall₂ (fun d m => bind natives (d.build t) = .ok m) ds ms) ↔
      ∀ d ∈ ds, d.IsBuiltIn → natives.contains (d.ref t) = true := by
  induction ds with
  | nil => exact iff_of_true ⟨[], .nil⟩ (by simp)
  | cons d ds ih =>
      rw [List.forall_mem_cons, ← isOk_bind_iff, ← ih]
      simp only [List.forall₂_cons_left_iff]
      constructor
      · rintro ⟨-, m, ms, hm, hms, rfl⟩
        exact ⟨⟨m, hm⟩, ms, hms⟩
      · rintro ⟨⟨m, hm⟩, ms, hms⟩
        exact ⟨m :: ms, m, ms, hm, hms, rfl⟩

/-! ### Registering -/

theorem resolveType_eq_ok {r : TypeRef} {t : TypeDef} :
    c.resolveType r = .ok t ↔ c.get? r = some t := by
  unfold resolveType
  rcases c.get? r with - | t' <;> simp

theorem contains_iff_resolveType {r : TypeRef} :
    c.contains r = true ↔ ∃ t, c.resolveType r = .ok t := by
  simp [contains, Option.isSome_iff_exists, resolveType_eq_ok]

/-- What is checked before the methods are built. -/
structure Placeable (c : Catalog) (d : TypeDecl) : Prop where
  fresh : c.contains d.ref = false
  base : ∀ base ∈ d.base, c.contains base = true
  fields : (d.fields.map Field.name).Nodup

/-- The type that a declaration describes, with the given methods. -/
def defined (d : TypeDecl) (methods : List Method) : TypeDef :=
  { ref := d.ref, flavor := d.flavor, base := d.base, fields := d.fields, methods }

/-- A declaration that passes these checks fails at a method at most; the type is put in front of
the others when all of them are bound. -/
theorem add_of_placeable {d : TypeDecl} (h : c.Placeable d) :
    add d c = match bindAll c.natives d.ref [] d.methods with
      | .ok methods => (.ok (defined d methods), { c with types := defined d methods :: c.types })
      | .error e => (.error e, c) := by
  have hfields : firstRepeated [] (d.fields.map Field.name) = none :=
    firstRepeated_eq_none_iff.2 ⟨h.fields, by simp⟩
  have hget : (get : Op Catalog) c = (.ok c, c) := rfl
  unfold add
  rw [op_bind_apply, hget]
  dsimp only
  rw [h.fresh, hfields]
  rcases hbase : d.base with - | base
  · rcases hmethods : bindAll c.natives d.ref [] d.methods with e | methods
    · rfl
    · simp only [defined, hbase]
      rfl
  · obtain ⟨t, ht⟩ := contains_iff_resolveType.1 (h.base base hbase)
    rcases hmethods : bindAll c.natives d.ref [] d.methods with e | methods
    · simp only [ht]
      rfl
    · simp only [defined, hbase, ht]
      rfl

/-- A declaration that does not pass them leaves the catalog as it was. -/
theorem add_of_not_placeable {d : TypeDecl} (h : ¬ c.Placeable d) :
    ∃ e, add d c = (.error e, c) := by
  have hget : (get : Op Catalog) c = (.ok c, c) := rfl
  unfold add
  rw [op_bind_apply, hget]
  dsimp only
  rcases hcontains : c.contains d.ref with - | -
  · rcases hbase : d.base with - | base
    · rcases hfields : firstRepeated [] (d.fields.map Field.name) with - | name
      · exact absurd ⟨hcontains, by simp [hbase], (firstRepeated_eq_none_iff.1 hfields).1⟩ h
      · exact ⟨_, rfl⟩
    · rcases hr : c.resolveType base with e | t
      · simp only [hr]
        exact ⟨_, rfl⟩
      · rcases hfields : firstRepeated [] (d.fields.map Field.name) with - | name
        · refine absurd
            ⟨hcontains, fun base' hbase' => ?_, (firstRepeated_eq_none_iff.1 hfields).1⟩ h
          cases hbase.symm.trans hbase'
          exact contains_iff_resolveType.2 ⟨t, hr⟩
        · simp only [hr]
          exact ⟨_, rfl⟩
  · exact ⟨_, rfl⟩

theorem register_eq (c : Catalog) (d : TypeDecl) :
    c.register d = match add d c with
      | (.ok t, c') => .ok (t, c')
      | (.error e, _) => .error e := rfl

/-- Only the last step of a registration changes the catalog. -/
theorem add_apply (d : TypeDecl) (c : Catalog) :
    add d c = match c.register d with
      | .ok (t, c') => (.ok t, c')
      | .error e => (.error e, c) := by
  rw [register_eq]
  rcases Classical.em (c.Placeable d) with h | h
  · rw [add_of_placeable h]
    rcases bindAll c.natives d.ref [] d.methods with e | methods <;> rfl
  · obtain ⟨e, he⟩ := add_of_not_placeable h
    rw [he]

theorem register_of_placeable {d : TypeDecl} (h : c.Placeable d) :
    c.register d = (bindAll c.natives d.ref [] d.methods).map fun methods =>
      (defined d methods, { c with types := defined d methods :: c.types }) := by
  rw [register_eq, add_of_placeable h]
  rcases bindAll c.natives d.ref [] d.methods with e | methods <;> rfl

theorem placeable_of_register {d : TypeDecl} {p : TypeDef × Catalog} (h : c.register d = .ok p) :
    c.Placeable d := by
  by_contra hplace
  obtain ⟨e, he⟩ := add_of_not_placeable hplace
  have hadd := add_apply d c
  rw [h, he] at hadd
  cases hadd

/-- A successful registration puts the type as it is declared, with its methods bound, in front of
the others. -/
theorem register_eq_ok_iff {d : TypeDecl} {t : TypeDef} :
    c.register d = .ok (t, c') ↔
      c.Placeable d ∧ t.toTypeHeader = ⟨d.ref, d.flavor, d.base, d.fields⟩ ∧
        bindAll c.natives d.ref [] d.methods = .ok t.methods ∧
        c' = { c with types := t :: c.types } := by
  constructor
  · intro h
    have hplace := placeable_of_register h
    rw [register_of_placeable hplace] at h
    rcases hmethods : bindAll c.natives d.ref [] d.methods with e | methods <;>
      rw [hmethods] at h <;> cases h
    exact ⟨hplace, rfl, rfl, rfl⟩
  · rintro ⟨hplace, hheader, hmethods, rfl⟩
    have ht : defined d t.methods = t := by
      rcases t with ⟨header, methods⟩
      cases hheader
      rfl
    rw [register_of_placeable hplace, hmethods]
    simp only [Except.map, ht]

/-- After a successful registration: the name was new, and the type is in front of the others. -/
theorem register_eq_ok {d : TypeDecl} {t : TypeDef} (h : c.register d = .ok (t, c')) :
    c.contains d.ref = false ∧ t.toTypeHeader = ⟨d.ref, d.flavor, d.base, d.fields⟩ ∧
      bindAll c.natives d.ref [] d.methods = .ok t.methods ∧
      c' = { c with types := t :: c.types } := by
  obtain ⟨hplace, h⟩ := register_eq_ok_iff.1 h
  exact ⟨hplace.fresh, h⟩

/-- What a catalog asks of a declaration. -/
structure Registrable (c : Catalog) (d : TypeDecl) : Prop extends c.Placeable d where
  methods : (d.methods.map MethodDecl.signature).Nodup
  natives : ∀ m ∈ d.methods, m.IsBuiltIn → c.natives.contains (m.ref d.ref) = true

theorem isOk_register_iff {d : TypeDecl} :
    (∃ t c', c.register d = .ok (t, c')) ↔ c.Registrable d := by
  simp only [register_eq_ok_iff, bindAll_eq_ok_iff]
  constructor
  · rintro ⟨t, -, hplace, -, ⟨hnodup, -, hbind⟩, -⟩
    exact ⟨hplace, hnodup, exists_bound_iff.1 ⟨t.methods, hbind⟩⟩
  · rintro ⟨hplace, hnodup, hnatives⟩
    obtain ⟨ms, hbind⟩ := exists_bound_iff.2 hnatives
    exact ⟨defined d ms, _, hplace, rfl, ⟨hnodup, by simp, hbind⟩, rfl⟩

end Catalog

end CilMachine
