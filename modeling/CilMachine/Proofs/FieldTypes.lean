/-
CilMachine/Proofs/FieldTypes.lean

What fields hold.  A value is stored in a field by the field's name: the declaration that it has
been checked against is one that some type has under that name, and not always the one that the
object gets its field from.  So a field holds a value that fits *some* declared field of its name.
The fields of texts are apart: a text fits no flavor, and what is copied from one such field to
another is not checked.

Main result: wherever the host gets to, an object has the fields of its type's layout, each with a
value of that kind; and where all declarations of a name agree, with one that fits the field's own
flavor (`Host.occurs_typed`).  Where they do not, the value may be of another flavor than the field
(`Host.not_fieldsFit`).
-/
import CilMachine.Proofs.Entry

namespace CilMachine

variable {c : Catalog} {name : String} {v : Value} {flavor : Flavor}

namespace Catalog

/-- A value that a field of the name may come to hold: it fits a declared field of that name, or it
is a text and the field is that of texts. -/
inductive Admits (c : Catalog) (name : String) (v : Value) : Prop
  | declared {flavor : Flavor} : c.DeclaresField name flavor → v.fits flavor → Admits c name v
  | text (s : String) : name = textField → v = .text s → Admits c name v

/-- All declared fields of the name are of one flavor. -/
def Unambiguous (c : Catalog) (name : String) : Prop :=
  ∀ d ∈ c.types, ∀ f ∈ d.fields, f.name = name → ∀ d' ∈ c.types, ∀ f' ∈ d'.fields, f'.name = name →
    c.flavorOf f.type = c.flavorOf f'.type

instance : Decidable (c.Unambiguous name) := by unfold Unambiguous; infer_instance

theorem Unambiguous.flavor_eq {flavor' : Flavor} (h : c.Unambiguous name)
    (hflavor : c.DeclaresField name flavor) (hflavor' : c.DeclaresField name flavor') :
    flavor = flavor' := by
  obtain ⟨d, hd, f, hf, hname, hflavor⟩ := hflavor
  obtain ⟨d', hd', f', hf', hname', hflavor'⟩ := hflavor'
  have heq := h d hd f hf hname d' hd' f' hf' hname'
  rw [hflavor, hflavor'] at heq
  exact Except.ok.inj heq

theorem Admits.fits_or_text (h : c.Admits name v) (hname : c.Unambiguous name)
    (hflavor : c.DeclaresField name flavor) :
    v.fits flavor ∨ name = textField ∧ ∃ s, v = .text s := by
  cases h with
  | declared hflavor' hfits => exact .inl (hname.flavor_eq hflavor' hflavor ▸ hfits)
  | text s htext hs => exact .inr ⟨htext, s, hs⟩

/-- No declared field is of the flavor that no value fits. -/
def NoVoidFields (c : Catalog) : Prop :=
  ∀ d ∈ c.types, ∀ f ∈ d.fields, c.flavorOf f.type ≠ .ok .void

instance : Decidable c.NoVoidFields := by unfold NoVoidFields; infer_instance

theorem admits_default (hvoid : c.NoVoidFields) (h : c.DeclaresField name flavor) :
    c.Admits name (.default flavor) := by
  have hne : flavor ≠ .void := by
    rintro rfl
    obtain ⟨d, hd, f, hf, -, hflavor⟩ := h
    exact hvoid d hd f hf hflavor
  exact .declared h (Value.fits_default hne)

end Catalog

/-! ### Typed heaps -/

/-- A record has the fields of its type's layout, each with a value that the catalog admits. -/
inductive HeapObject.Typed (c : Catalog) : HeapObject → Prop
  | record {type : TypeRef} {fields : Fields} {layout : Named Flavor} :
      c.instanceFields type = .ok layout → fields.names = layout.names →
      (∀ p ∈ fields, c.Admits p.1 p.2) → Typed c (.record type fields)
  | array (element : TypeRef) (storage : Storage) : Typed c (.array element storage)

/-- Strings are laid out as the native routines make them. -/
def Catalog.HasStrings (c : Catalog) : Prop :=
  c.instanceFields .string = .ok [(textField, .string)]

theorem HeapObject.Fresh.typed {o : HeapObject} (hvoid : c.NoVoidFields) (hstring : c.HasStrings)
    (h : o.Fresh c) : o.Typed c := by
  cases h with
  | @record type layout hlayout =>
      refine .record hlayout ?_ ?_
      · simp [Named.names, Function.comp_def]
      · intro p hp
        obtain ⟨⟨name, flavor⟩, hmem, rfl⟩ := List.mem_map.1 hp
        exact Catalog.admits_default hvoid (Catalog.instanceFields_mem hlayout _ hmem)
  | string s =>
      refine .record hstring rfl ?_
      intro p hp
      obtain rfl := List.mem_singleton.1 hp
      exact .text s rfl rfl
  | array length _ => exact .array _ _

namespace Heap

variable {h k : Heap}

/-- All objects are typed. -/
def Typed (c : Catalog) (h : Heap) : Prop := ∀ r o, h.get? r = some o → o.Typed c

theorem typed_empty (c : Catalog) : ({} : Heap).Typed c := by
  intro r o ho
  rw [get?_empty] at ho
  cases ho

theorem Typed.admits_get? {r : Handle} {type : TypeRef} {fields : Fields} (hh : h.Typed c)
    (hget : h.get? r = some (.record type fields)) (hname : fields.get? name = some v) :
    c.Admits name v := by
  cases hh r _ hget with
  | record _ _ hadmits => exact hadmits _ (Named.mem_of_get? hname)

/-- What is stored in a field is admitted there. -/
theorem Stores.admits (hh : h.Typed c) (hstores : h.Stores c name v) : c.Admits name v := by
  cases hstores with
  | declared hfield hflavor hfits hname =>
      subst hname
      exact .declared (Catalog.declaresField_of_resolveField hfield hflavor) hfits
  | copied hget hname =>
      subst hname
      obtain ⟨type, fields, hget, hname⟩ := getField_eq_ok.1 hget
      exact hh.admits_get? hget hname
  | text s hs hname => exact .text s hname hs

/-- No change of the machine's makes an object ill-typed. -/
theorem Change.typed (hvoid : c.NoVoidFields) (hstring : c.HasStrings) (hchange : h.Change c k)
    (hh : h.Typed c) : k.Typed c := by
  intro q o ho
  cases hchange with
  | alloc hfresh =>
      rcases get?_alloc_eq_some ho with ⟨-, rfl⟩ | ⟨-, ho⟩
      · exact hfresh.typed hvoid hstring
      · exact hh q o ho
  | setField hget hname hstores =>
      rcases get?_replace_eq_some hget ho with ⟨-, rfl⟩ | ⟨-, ho⟩
      · cases hh _ _ hget with
        | record hlayout hnames hadmits =>
            -- the names stay, and the one new pair is what has been stored
            refine .record hlayout ((Named.names_put _ hname).trans hnames) fun p hp => ?_
            rcases Named.mem_put hp with hp | rfl
            · exact hadmits p hp
            · exact hstores.admits hh
      · exact hh q o ho
  | setElement n hget hi =>
      rcases get?_replace_eq_some hget ho with ⟨-, rfl⟩ | ⟨-, ho⟩
      · exact .array _ _
      · exact hh q o ho
  | setReference slot hget hi =>
      rcases get?_replace_eq_some hget ho with ⟨-, rfl⟩ | ⟨-, ho⟩
      · exact .array _ _
      · exact hh q o ho

/-! ### Native routines that write nothing -/

/-- The heap has become `k` by additions of fresh objects. -/
inductive Grows (c : Catalog) (h : Heap) : Heap → Prop
  | refl : Grows c h h
  | alloc {k : Heap} {o : HeapObject} : Grows c h k → o.Fresh c → Grows c h (k.alloc o).2

theorem Grows.keeps {Q : Heap → Prop} (hQ : ∀ {h k : Heap}, h.Change c k → Q h → Q k)
    (hgrows : h.Grows c k) (hh : Q h) : Q k := by
  induction hgrows with
  | refl => exact hh
  | alloc _ ho ih => exact hQ (.alloc ho) ih

end Heap

/-- The routine writes nothing to the heap; it may add fresh objects. -/
def Native.OnlyAdds (c : Catalog) (routine : Native) : Prop :=
  ∀ args (h : Heap), h.Grows c ((routine.run c.headers args).run.run h).2

theorem Native.onlyAdds_nothing (c : Catalog) (name : String) : (nothing name).OnlyAdds c :=
  fun _ _ => .refl

theorem Native.OnlyAdds.preserves {Q : Heap → Prop} {routine : Native} (h : routine.OnlyAdds c)
    (hQ : ∀ {h k : Heap}, h.Change c k → Q h → Q k) : routine.Preserves Q c.headers :=
  fun args _ => (h args _).keeps hQ

/-! ### What the host gets to -/

/-- Strings are as the core library lays them out. -/
theorem Catalog.Extends.hasStrings {P : Native → Prop} (h : withCorelib.Extends P c) :
    c.HasStrings := by
  have hlayout : withCorelib.instanceFields .string = .ok [(textField, .string)] := by
    decide +kernel
  exact h.instanceFields hlayout

namespace Host

variable {ctx : Context} {s : Machine}

/-- What every change preserves holds wherever the host gets to, if the native routines that come
with the program write nothing. -/
theorem Occurs.holds {Q : Heap → Prop}
    (hcatalog : Catalog.withCorelib.Extends (Native.OnlyAdds ctx.catalog) ctx.catalog)
    (hchange : ∀ {h k : Heap}, h.Change ctx.catalog k → Q h → Q k) (hempty : Q {})
    (h : Occurs ctx s) : Q s.heap := by
  have hinvariant : Heap.Invariant ctx (Native.Preserves Q ctx.catalog.headers) Q :=
    ⟨hchange, fun hroutine => hroutine⟩
  have hruns := hcatalog.runs (fun _ hroutine => hroutine.preserves hchange)
    (Machine.corelib_preserves hchange ctx.catalog.headers)
  exact (h.keeps hinvariant hempty hruns).heap

theorem Occurs.typed
    (hcatalog : Catalog.withCorelib.Extends (Native.OnlyAdds ctx.catalog) ctx.catalog)
    (hvoid : ctx.catalog.NoVoidFields) (h : Occurs ctx s) : s.heap.Typed ctx.catalog :=
  h.holds hcatalog (fun hchange => hchange.typed hvoid hcatalog.hasStrings) (Heap.typed_empty _)

/-- **Fields hold what is declared under their names.**  Wherever the host gets to, an object has
the fields of its type's layout.  Each holds a value that fits a declared field of its name, or a
text in a field of texts; where all fields of the name are declared with one flavor, the value fits
the field's own flavor or is such a text. -/
theorem occurs_typed
    (hcatalog : Catalog.withCorelib.Extends (Native.OnlyAdds ctx.catalog) ctx.catalog)
    (hvoid : ctx.catalog.NoVoidFields) (h : Occurs ctx s) {r : Handle} {type : TypeRef}
    {fields : Fields} (hget : s.heap.get? r = some (.record type fields)) :
    ∃ layout, ctx.catalog.instanceFields type = .ok layout ∧ fields.names = layout.names ∧
      ∀ name v, fields.get? name = some v → ∃ flavor, layout.get? name = some flavor ∧
        ctx.catalog.Admits name v ∧ (ctx.catalog.Unambiguous name →
          v.fits flavor ∨ name = textField ∧ ∃ text, v = .text text) := by
  have htyped := h.typed hcatalog hvoid
  cases htyped r _ hget with
  | @record _ _ layout hlayout hnames _ =>
      refine ⟨layout, hlayout, hnames, fun name v hname => ?_⟩
      have hadmits := htyped.admits_get? hget hname
      -- the layout has the name, because it has the names of the fields
      have hmem : (layout.get? name).isSome := by
        rw [Named.isSome_get?, ← hnames, ← Named.isSome_get?, hname]
        rfl
      obtain ⟨flavor, hflavor⟩ := Option.isSome_iff_exists.1 hmem
      have hdeclares := Catalog.instanceFields_mem hlayout _ (Named.mem_of_get? hflavor)
      exact ⟨flavor, hflavor, hadmits, fun hone => hadmits.fits_or_text hone hdeclares⟩

end Host

/-! ### A program that mixes fields up -/

/-- Every field holds a value that fits its own flavor.  The text field of a string object is apart:
it holds a text or null. -/
def Heap.FieldsFit (c : Catalog) (h : Heap) : Prop :=
  ∀ r type fields layout name v flavor, h.get? r = some (.record type fields) →
    c.instanceFields type = .ok layout → fields.get? name = some v →
    layout.get? name = some flavor →
    if type = .string ∧ name = textField then v = .null ∨ ∃ s, v = .text s else v.fits flavor

namespace Sample

/-- A type whose field is an integer. -/
def left : TypeDecl :=
  (TypeDecl.ofRef ⟨"Sample", "Left"⟩).withField "Content" (.corelib "System.Int32")

/-- A type whose field of that name is a reference. -/
def right : TypeDecl :=
  (((TypeDecl.ofRef ⟨"Sample", "Right"⟩).withField "Content" .object).withField "Link" .object)
    |>.withDefaultConstructor

/-- Creates an instance of `right`, links it to itself, and stores 5 in its other field as if it
were an instance of `left`. -/
def mixing : MethodDecl where
  name := "Run"
  modifiers := { isStatic := true }
  returns := some .object
  code := some ⟨#[⟨0, 5, "newobj", .call, .method (.constructor right.ref 0)⟩,
    ⟨5, 1, "dup", .sequential, .none⟩, ⟨6, 1, "dup", .sequential, .none⟩,
    ⟨7, 1, "dup", .sequential, .none⟩, ⟨8, 5, "stfld", .sequential, .field ⟨right.ref, "Link"⟩⟩,
    ⟨13, 1, "ldc.i4.5", .sequential, .none⟩,
    ⟨14, 5, "stfld", .sequential, .field ⟨left.ref, "Content"⟩⟩,
    ⟨19, 1, "ret", .ret, .none⟩], by simp⟩

def mixer : TypeDecl := (TypeDecl.ofRef ⟨"Sample", "Mixer"⟩).withMethod mixing

def mixed : Context where
  catalog := (Catalog.add mixer (Catalog.add right (Catalog.add left Catalog.withCorelib).2).2).2

/-- The one native routine that the program brings along does nothing. -/
theorem mixed_extends {P : Native → Prop} (hP : ∀ name, P (.nothing name)) :
    Catalog.withCorelib.Extends P mixed.catalog := by
  have hleft : Catalog.withCorelib.Extends P (Catalog.add left Catalog.withCorelib).2 :=
    .add .refl fun m hm => by cases hm
  have hright := hleft.add (d := right) fun m hm routine hroutine => by
    obtain rfl := List.mem_singleton.1 hm
    cases hroutine
    exact hP _
  have hmixer := hright.add (d := mixer) fun m hm routine hroutine => by
    obtain rfl := List.mem_singleton.1 hm
    cases hroutine
  simpa only [mixed] using hmixer

theorem mixed_noVoidFields : mixed.catalog.NoVoidFields := by decide +kernel

/-- The machine gets to have the integer in the field of the flavor of objects. -/
theorem mixed_occurs :
    ∃ s, Host.Occurs mixed s ∧
      s.heap.get? ⟨1⟩ =
        some (.record right.ref [("Content", .int32 5), ("Link", .object ⟨1⟩)]) := by
  have hrun : (Host.invoke mixed 9 ⟨mixer.ref, "Run", 0⟩ [] (.ofConfig {})).map
      (fun p => p.2.heap.get? ⟨1⟩) =
      some (some (.record right.ref [("Content", .int32 5), ("Link", .object ⟨1⟩)])) := by
    decide +kernel
  obtain ⟨⟨r, s⟩, hs, hobject⟩ := Option.map_eq_some_iff.1 hrun
  exact ⟨s, .reached (.invoke (.start {}) hs), hobject⟩

end Sample

namespace Host

/-- In the program the one field name is declared with one flavor, and what the field holds fits;
the other is not, and holds an integer that fits another type's field of that name. -/
theorem occurs_typed_mixed :
    ∃ s, Occurs Sample.mixed s ∧
      s.heap.getField ⟨1⟩ "Link" = .ok (.object ⟨1⟩) ∧ (Value.object ⟨1⟩).fits .object ∧
      s.heap.getField ⟨1⟩ "Content" = .ok (.int32 5) ∧
      Sample.mixed.catalog.Admits "Content" (.int32 5) := by
  obtain ⟨s, hs, hobject⟩ := Sample.mixed_occurs
  have hcatalog := Sample.mixed_extends (Native.onlyAdds_nothing Sample.mixed.catalog)
  obtain ⟨layout, hlayout, -, hfields⟩ :=
    occurs_typed hcatalog Sample.mixed_noVoidFields hs hobject
  have hright : Sample.mixed.catalog.instanceFields Sample.right.ref =
      .ok [("Content", .object), ("Link", .object)] := by decide +kernel
  have hlink : Sample.mixed.catalog.Unambiguous "Link" := by decide +kernel
  obtain rfl := Except.ok.inj (hlayout.symm.trans hright)
  obtain ⟨_, hflavor, -, hfits⟩ := hfields "Link" _ rfl
  cases hflavor
  obtain ⟨_, -, hadmits, -⟩ := hfields "Content" _ rfl
  refine ⟨s, hs, Heap.getField_eq_ok.2 ⟨_, _, hobject, rfl⟩, ?_,
    Heap.getField_eq_ok.2 ⟨_, _, hobject, rfl⟩, hadmits⟩
  exact (hfits hlink).resolve_right fun h => absurd h.1 (by decide)

/-- It is not so that fields hold only what fits their own flavor: here an integer is in a field of
the flavor of objects. -/
theorem not_fieldsFit :
    ¬ ∀ (ctx : Context) (s : Machine),
      Catalog.withCorelib.Extends (Native.OnlyAdds ctx.catalog) ctx.catalog →
      ctx.catalog.NoVoidFields → Occurs ctx s → s.heap.FieldsFit ctx.catalog := by
  intro hclaim
  obtain ⟨s, hs, hobject⟩ := Sample.mixed_occurs
  have hcatalog := Sample.mixed_extends (Native.onlyAdds_nothing Sample.mixed.catalog)
  have hfit := hclaim _ s hcatalog Sample.mixed_noVoidFields hs
  have hright : Sample.mixed.catalog.instanceFields Sample.right.ref =
      .ok [("Content", .object), ("Link", .object)] := by decide +kernel
  have hfits := hfit ⟨1⟩ _ _ _ "Content" (.int32 5) .object hobject hright rfl rfl
  rw [if_neg (by decide)] at hfits
  cases hfits

end Host

end CilMachine
