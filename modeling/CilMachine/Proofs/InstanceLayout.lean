/-
CilMachine/Proofs/InstanceLayout.lean

Which fields an instance has.  A field is looked up along the bases of a type, nearest first, and
the layout of its instances is built along them from the other end; a field that is declared again
keeps its place and takes the new flavor.  Both ways come to the same answer (`layoutAlong_get?`),
because a type declares no field twice (`FieldsDistinct`); so a layout has the fields that can be
looked up, each once, with their flavors, and it begins with the layouts of the bases.
-/
import CilMachine.Proofs.Ancestry
import Mathlib.Data.List.Nodup

namespace CilMachine

namespace Named

variable {α : Type} {xs : Named α} {name : String} {a : α}

theorem names_prefix_put (xs : Named α) (name : String) (a : α) :
    xs.names <+: (xs.put name a).names := by
  induction xs with
  | nil => exact List.nil_prefix
  | cons p rest ih =>
      rw [put]
      split
      · exact List.prefix_rfl
      · exact (List.prefix_cons_inj p.1).2 ih

/-- A new name comes last. -/
theorem names_put_of_not_mem (a : α) (h : name ∉ xs.names) :
    (xs.put name a).names = xs.names ++ [name] := by
  induction xs with
  | nil => rfl
  | cons p rest ih =>
      obtain ⟨hne, hrest⟩ := not_or.1 fun hp => h (List.mem_cons.2 hp)
      rw [put, if_neg (Ne.symm hne)]
      exact congrArg (p.1 :: ·) (ih hrest)

theorem nodup_names_put (h : xs.names.Nodup) (name : String) (a : α) :
    (xs.put name a).names.Nodup := by
  by_cases hname : name ∈ xs.names
  · rw [names_put a (isSome_get?.2 hname)]
    exact h
  · rw [names_put_of_not_mem a hname, ← List.concat_eq_append]
    exact List.Nodup.concat hname h

/-- Where no name is there twice, a name stands for what it is paired with. -/
theorem get?_eq_some_iff (h : xs.names.Nodup) : xs.get? name = some a ↔ (name, a) ∈ xs := by
  refine ⟨mem_of_get?, fun hmem => ?_⟩
  induction xs with
  | nil => cases hmem
  | cons p rest ih =>
      obtain ⟨hp, hrest⟩ := List.nodup_cons.1 h
      rw [get?_cons]
      rcases List.mem_cons.1 hmem with rfl | hmem
      · exact if_pos rfl
      · have hne : name ≠ p.1 := by
          rintro rfl
          exact hp (List.mem_map.2 ⟨_, hmem, rfl⟩)
        rw [if_neg hne]
        exact ih hrest hmem

end Named

namespace Catalog

variable {P : Native → Prop} {c c' : Catalog} {r : TypeRef} {name : String} {flavor : Flavor}
  {fields : List Field} {l l' layout : Named Flavor} {ts us : List TypeDef}

/-! ### Declared fields -/

/-- No type declares a field twice. -/
def FieldsDistinct (c : Catalog) : Prop := ∀ t ∈ c.types, (t.fields.map Field.name).Nodup

theorem Extends.fieldsDistinct (h : c.Extends P c') (hc : c.FieldsDistinct) :
    c'.FieldsDistinct := by
  induction h with
  | refl => exact hc
  | register _ _ hregister ih =>
      have hplaceable := placeable_of_register hregister
      obtain ⟨-, hheader, -, rfl⟩ := register_eq_ok hregister
      intro t ht
      rcases List.mem_cons.1 ht with rfl | ht
      · rw [congrArg TypeHeader.fields hheader]
        exact hplaceable.fields
      · exact ih t ht
  | registerNative _ _ _ ih => exact ih

/-! ### One type -/

/-- A type adds the fields that it declares, each with the flavor of its type. -/
theorem extendLayout_get? (h : c.extendLayout l fields = .ok l')
    (hdistinct : (fields.map Field.name).Nodup) (name : String) :
    l'.get? name = (fields.find? (·.name == name)).elim (l.get? name)
      fun f => (c.flavorOf f.type).toOption := by
  induction fields generalizing l with
  | nil =>
      cases h
      rfl
  | cons f rest ih =>
      obtain ⟨hf, hrest⟩ := List.nodup_cons.1 hdistinct
      obtain ⟨l₁, hl₁, h⟩ := bind_eq_ok (List.foldlM_cons.symm.trans h)
      obtain ⟨flavor, hflavor, hput⟩ := bind_eq_ok hl₁
      cases hput
      rw [ih h hrest, List.find?_cons]
      by_cases hname : f.name = name
      · subst hname
        -- the rest does not declare the name again
        have hnone : rest.find? (·.name == f.name) = none := by
          refine List.find?_eq_none.2 fun g hg heq => hf (List.mem_map.2 ⟨g, hg, ?_⟩)
          exact eq_of_beq heq
        rw [hnone, beq_self_eq_true]
        exact (Named.get?_put_self l f.name flavor).trans (congrArg Except.toOption hflavor).symm
      · rw [Named.get?_put_of_ne _ (Ne.symm hname), beq_false_of_ne hname]

theorem flavorOf_of_extendLayout (h : c.extendLayout l fields = .ok l') :
    ∀ f ∈ fields, ∃ flavor, c.flavorOf f.type = .ok flavor := by
  induction fields generalizing l with
  | nil => exact List.forall_mem_nil _
  | cons f rest ih =>
      obtain ⟨l₁, hl₁, h⟩ := bind_eq_ok (List.foldlM_cons.symm.trans h)
      obtain ⟨flavor, hflavor, -⟩ := bind_eq_ok hl₁
      exact List.forall_mem_cons.2 ⟨⟨flavor, hflavor⟩, ih h⟩

/-- What every addition of a field to a layout preserves, a type preserves. -/
theorem extendLayout_induct {I : Named Flavor → Prop}
    (hput : ∀ k name flavor, I k → I (k.put name flavor)) (h : c.extendLayout l fields = .ok l')
    (hl : I l) : I l' := by
  refine foldlM_induct (I := I) (fun k f k' _ hk hstep => ?_) hl h
  obtain ⟨flavor, -, hk'⟩ := bind_eq_ok hstep
  cases hk'
  exact hput k f.name flavor hk

/-! ### Chains of bases -/

/-- The layout along a chain of bases, from its far end on. -/
abbrev layoutAlong (c : Catalog) (ts : List TypeDef) (l : Named Flavor) :
    Except ExecError (Named Flavor) :=
  ts.reverse.foldlM (fun l d => c.extendLayout l d.fields) l

theorem instanceFields_eq (hts : c.ancestry r = .ok ts) :
    c.instanceFields r = c.layoutAlong ts [] := by
  rw [instanceFields, hts]
  rfl

theorem layoutAlong_induct {I : Named Flavor → Prop}
    (hput : ∀ k name flavor, I k → I (k.put name flavor)) (h : c.layoutAlong ts l = .ok l')
    (hl : I l) : I l' :=
  foldlM_induct (I := I) (fun _ _ _ _ hk hstep => extendLayout_induct hput hstep hk) hl h

/-- The layout along a chain is that along its end, and then goes on. -/
theorem layoutAlong_append (ts us : List TypeDef) (h : c.layoutAlong (ts ++ us) l = .ok l') :
    ∃ k, c.layoutAlong us l = .ok k ∧ c.layoutAlong ts k = .ok l' := by
  rw [layoutAlong, List.reverse_append, List.foldlM_append] at h
  exact bind_eq_ok h

/-- **The two ways along the bases agree.**  The flavor of a name in the layout is that of the
nearest field of the name. -/
theorem layoutAlong_get? (h : c.layoutAlong ts [] = .ok layout)
    (hdistinct : ∀ t ∈ ts, (t.fields.map Field.name).Nodup) (name : String) :
    layout.get? name =
      (ts.findSome? (·.field? name)).bind fun f => (c.flavorOf f.type).toOption := by
  induction ts generalizing layout with
  | nil =>
      cases h
      rfl
  | cons t bases ih =>
      obtain ⟨ht, hbases⟩ := List.forall_mem_cons.1 hdistinct
      obtain ⟨k, hk, h⟩ := layoutAlong_append [t] bases h
      obtain ⟨k', hextend, hlast⟩ := bind_eq_ok h
      cases hlast
      have hfound : t.fields.find? (·.name == name) = t.field? name := rfl
      rw [extendLayout_get? hextend ht, ih hk hbases, List.findSome?_cons, hfound]
      rcases t.field? name with - | f <;> rfl

theorem flavorOf_of_layoutAlong (h : c.layoutAlong ts l = .ok l') :
    ∀ t ∈ ts, ∀ f ∈ t.fields, ∃ flavor, c.flavorOf f.type = .ok flavor := by
  induction ts generalizing l' with
  | nil => exact List.forall_mem_nil _
  | cons t bases ih =>
      obtain ⟨k, hk, h⟩ := layoutAlong_append [t] bases h
      obtain ⟨k', hextend, -⟩ := bind_eq_ok h
      exact List.forall_mem_cons.2 ⟨flavorOf_of_extendLayout hextend, ih hk⟩

/-! ### Layouts of types -/

/-- The types that derive from one another begin alike. -/
theorem Grounded.inherits_layout (hc : c.Grounded) (h : c.instanceFields r = .ok layout)
    {base : TypeRef} (hderives : c.Derives r base) :
    ∃ inherited, c.instanceFields base = .ok inherited ∧ inherited.names <+: layout.names := by
  obtain ⟨ts, hts, -⟩ := bind_eq_ok h
  obtain ⟨u, hu, rfl⟩ := (derives_iff hts).1 hderives
  obtain ⟨us, -, hus, vs, rfl⟩ := hc.suffix hts hu
  rw [instanceFields_eq hts] at h
  obtain ⟨inherited, hinherited, hrest⟩ := layoutAlong_append vs us h
  refine ⟨inherited, (instanceFields_eq hus).trans hinherited, ?_⟩
  refine layoutAlong_induct (I := fun k => inherited.names <+: k.names) ?_ hrest List.prefix_rfl
  exact fun k name flavor hk => hk.trans (k.names_prefix_put name flavor)

theorem nodup_instanceFields (h : c.instanceFields r = .ok layout) : layout.names.Nodup := by
  obtain ⟨ts, hts, -⟩ := bind_eq_ok h
  rw [instanceFields_eq hts] at h
  exact layoutAlong_induct (I := fun k => k.names.Nodup)
    (fun _ name flavor hk => Named.nodup_names_put hk name flavor) h List.nodup_nil

theorem resolveField_eq_ok_iff (hts : c.ancestry r = .ok ts) {field : Field} :
    c.resolveField ⟨r, name⟩ = .ok field ↔ ts.findSome? (·.field? name) = some field := by
  rw [resolveField_eq_nearest, nearest, hts]
  dsimp only [Bind.bind, Except.bind]
  generalize List.findSome? _ ts = found
  rcases found with - | f <;> simp

/-- A layout has just the fields that are found from the type on, with their flavors. -/
theorem FieldsDistinct.mem_instanceFields_iff (hc : c.FieldsDistinct)
    (h : c.instanceFields r = .ok layout) :
    (name, flavor) ∈ layout ↔
      ∃ field, c.resolveField ⟨r, name⟩ = .ok field ∧ c.flavorOf field.type = .ok flavor := by
  obtain ⟨ts, hts, -⟩ := bind_eq_ok h
  rw [← Named.get?_eq_some_iff (nodup_instanceFields h)]
  rw [instanceFields_eq hts] at h
  rw [layoutAlong_get? h fun t ht => hc t (mem_of_chain hts t ht), Option.bind_eq_some_iff]
  refine exists_congr fun field => and_congr (resolveField_eq_ok_iff hts).symm ?_
  rcases c.flavorOf field.type with e | found <;> simp [Except.toOption]

theorem FieldsDistinct.mem_names_iff (hc : c.FieldsDistinct)
    (h : c.instanceFields r = .ok layout) :
    name ∈ layout.names ↔ ∃ field, c.resolveField ⟨r, name⟩ = .ok field := by
  constructor
  · intro hname
    obtain ⟨⟨_, flavor⟩, hmem, rfl⟩ := List.mem_map.1 hname
    obtain ⟨field, hfield, -⟩ := (hc.mem_instanceFields_iff h).1 hmem
    exact ⟨field, hfield⟩
  · rintro ⟨field, hfield⟩
    obtain ⟨ts, hts, -⟩ := bind_eq_ok h
    -- the flavor of the field was looked up when the layout was built
    obtain ⟨t, ht, hfound⟩ :=
      List.exists_of_findSome?_eq_some ((resolveField_eq_ok_iff hts).1 hfield)
    obtain ⟨flavor, hflavor⟩ := flavorOf_of_layoutAlong ((instanceFields_eq hts).symm.trans h) t ht
      field (List.mem_of_find?_eq_some hfound)
    exact List.mem_map.2
      ⟨(name, flavor), (hc.mem_instanceFields_iff h).2 ⟨field, hfield, hflavor⟩, rfl⟩

end Catalog

end CilMachine
