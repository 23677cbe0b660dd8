/-
CilMachine/Proofs/FieldAccess.lean

Why a field that can be looked up is there.  An object that the machine adds has the layout that its
type has at that time (`Acts.laidOut`).  Its mold stays as it is, and so does the layout of its type
while the catalog grows; and from a base of the type no other fields are found than those with which
the layout begins.  So whatever has happened since, a field is there if it is found through a type
that the object's own type derives from (`fields_found`).
-/
import CilMachine.Proofs.Construction
import CilMachine.Proofs.FieldTypes
import CilMachine.Proofs.InstanceLayout
import CilMachine.Proofs.Sequel

namespace CilMachine

/-! ### Molds of new objects -/

namespace Heap

variable {c : Catalog} {h k l : Heap} {r : Handle} {o p : HeapObject} {M : Mold}

/-- The object has this mold. -/
def HasMold (h : Heap) (r : Handle) (M : Mold) : Prop := ∃ o, h.get? r = some o ∧ o.mold = M

theorem Retains.hasMold (hhk : h.Retains k) (hr : h.HasMold r M) : k.HasMold r M := by
  obtain ⟨o, ho, hmold⟩ := hr
  obtain ⟨o', ho', hmold'⟩ := hhk r o ho
  exact ⟨o', ho', hmold'.trans hmold⟩

/-- The heap has become `k` by additions and writes. -/
def Evolves (h k : Heap) : Prop := ∃ rs, h.History rs k

/-- What is in the heap `k` and was not in `h` has the mold of a fresh object. -/
def AddsFresh (c : Catalog) (h k : Heap) : Prop :=
  ∀ r o, k.get? r = some o →
    (h.get? r).isSome ∨ ∃ p : HeapObject, p.Fresh c ∧ o.mold = p.mold

theorem AddsFresh.refl (c : Catalog) (h : Heap) : h.AddsFresh c h :=
  fun _ _ ho => .inl (Option.isSome_of_eq_some ho)

theorem AddsFresh.recasts (hk : h.AddsFresh c k) (hl : k.Recasts l) : h.AddsFresh c l := by
  obtain ⟨hget, hmold⟩ := hl
  intro q o' ho'
  rcases get?_replace_eq_some hget ho' with ⟨rfl, rfl⟩ | ⟨-, ho'⟩
  · rw [hmold]
    exact hk _ _ hget
  · exact hk q o' ho'

theorem AddsFresh.alloc (hk : h.AddsFresh c k) (ho : o.Fresh c) : h.AddsFresh c (k.alloc o).2 := by
  intro q o' ho'
  rcases get?_alloc_eq_some ho' with ⟨-, rfl⟩ | ⟨-, ho'⟩
  · exact .inr ⟨_, ho, rfl⟩
  · exact hk q o' ho'

theorem AddsFresh.change (hk : h.AddsFresh c k) (hl : k.Change c l) : h.AddsFresh c l := by
  cases hl with
  | alloc ho => exact hk.alloc ho
  | setField hget hname _ =>
      exact hk.recasts (.intro hget (congrArg (Mold.record _) (Named.names_put _ hname)))
  | setElement n hget _ =>
      exact hk.recasts (.intro hget (congrArg (Mold.array _ _) Array.size_setIfInBounds))
  | setReference slot hget _ =>
      exact hk.recasts (.intro hget (congrArg (Mold.array _ _) Array.size_setIfInBounds))

end Heap

/-- A fresh record is laid out as its type is. -/
theorem HeapObject.Fresh.laidOut {c : Catalog} {p : HeapObject} {type : TypeRef}
    {names : List String} (hstrings : c.HasStrings) (hp : p.Fresh c)
    (hmold : .record type names = p.mold) :
    ∃ layout, c.instanceFields type = .ok layout ∧ names = layout.names := by
  cases hp with
  | @record _ layout hlayout =>
      cases hmold
      refine ⟨layout, hlayout, ?_⟩
      simp [Named.names, Function.comp_def]
  | string text =>
      cases hmold
      exact ⟨_, hstrings, rfl⟩
  | array _ _ => cases hmold

namespace Machine

variable {ctx ctx' : Context} {E : Instruction → Machine → Prop} {s t u : Machine} {r : Handle}
  {M : Mold} {f : FieldRef} {field : Field}

/-! ### Moves -/

theorem Moves.addsFresh (h : Moves ctx s u) : s.heap.AddsFresh ctx.catalog u.heap := by
  induction h with
  | refl => exact .refl _ _
  | tail _ hmove ih =>
      cases hmove with
      | frame _ => exact ih
      | write hwrite => exact ih.recasts hwrite.recasts
      | add ho _ => exact ih.alloc ho
      | ask _ => exact ih

theorem Moves.retains (h : Moves ctx s u) : s.heap.Retains u.heap := by
  induction h with
  | refl => exact fun r o ho => ⟨o, ho, rfl⟩
  | tail _ hmove ih =>
      cases hmove with
      | frame _ => exact ih
      | write hwrite => exact ih.trans hwrite.recasts.retains
      | add _ _ => exact ih.trans (Heap.retains_alloc _ _)
      | ask _ => exact ih

/-- Molds endure, whatever is executed. -/
theorem endures_hasMold (ctx : Context) (E : Instruction → Machine → Prop) (r : Handle)
    (M : Mold) : Endures ctx E Heap.Evolves (Heap.HasMold · r M) where
  add h o hr := (Heap.retains_alloc h o).hasMold hr
  instruction i s _ hr := (performInstruction_moves ctx i s).retains.hasMold hr
  routine _ _ hk hr := by
    obtain ⟨rs, hrs⟩ := hk
    exact hrs.retains.hasMold hr

/-! ### Objects of the machine -/

/-- What the machine does that may add objects: it performs an instruction, up to the call that it
may make; it creates an object, up to the call of its constructor; it adds a string for the host; or
it runs a native routine of the core library. -/
inductive Acts (ctx : Context) (s : Machine) : Machine → Prop
  | instruction (i : Instruction) : Acts ctx s (performInstruction ctx i s).2
  | construction (ctor : MethodRef) (args : List Value) :
      Acts ctx s (prepareConstruction ctx ctor args s).2
  | string (text : String) : Acts ctx s (Host.allocString ctx text s).2
  | library {m : Method} {routine : Native} (args : List Value) :
      Catalog.withCorelib.Declares m → m.body = .native routine →
      Acts ctx s { s with heap := ((routine.run ctx.catalog.headers args).run.run s.heap).2 }

theorem Acts.addsFresh (h : s.Acts ctx t) : s.heap.AddsFresh ctx.catalog t.heap := by
  cases h with
  | instruction i => exact (performInstruction_moves ctx i s).addsFresh
  | construction ctor args => exact (prepareConstruction_moves ctx ctor args s).addsFresh
  | string text =>
      rcases heap_allocString ctx text s with heq | heq <;> rw [heq]
      · exact .refl _ _
      · exact (Heap.AddsFresh.refl _ _).alloc (.string text)
  | library args hdeclares hbody =>
      have hpreserves := corelib_preserves (Q := s.heap.AddsFresh ctx.catalog)
        (fun hchange hk => hk.change hchange) ctx.catalog.headers
      exact hpreserves.methods _ hdeclares _ hbody args s.heap (.refl _ _)

/-- An instance that has been added has the layout of its type. -/
theorem Acts.laidOut (hstrings : ctx.catalog.HasStrings) (h : s.Acts ctx t)
    (hnew : s.heap.get? r = none) {type : TypeRef} {fields : Fields}
    (hr : t.heap.get? r = some (.record type fields)) :
    ∃ layout, ctx.catalog.instanceFields type = .ok layout ∧ fields.names = layout.names := by
  rcases h.addsFresh r _ hr with hold | ⟨p, hp, hmold⟩
  · rw [hnew] at hold
    cases hold
  · exact hp.laidOut hstrings hmold

/-! ### Access -/

theorem Sequel.extends {N : Heap → Heap → Prop} (h : Sequel E N ctx s ctx' u) :
    ctx.catalog.Extends (fun _ => True) ctx'.catalog := by
  induction h with
  | start => exact .refl
  | growth _ hgrowth ih => exact ih.trans hgrowth
  | _ => assumption

theorem loadField_apply {v : Value} {g : Frame} {F : List Frame} {S : OperandStack}
    (hf : ctx.catalog.resolveField f = .ok field) (hs : s.calls.frames = g :: F)
    (hg : g.stack = .object r :: S) (hv : s.heap.getField r f.name = .ok v) :
    loadField ctx f s = (.ok (.outcome .next), s.withStack (v :: S)) := by
  have hread : readHeap (·.getField r f.name) (s.withStack S) = (.ok v, s.withStack S) :=
    readHeap_apply hv
  conv_lhs => rw [← withStack_self hs hg]
  rw [loadField, op_bind_apply, op_discard_apply, lift_apply, hf]
  dsimp only [Except.mapError, Except.map]
  rw [op_bind_apply, popObject_withStack hs]
  dsimp only
  rw [op_bind_apply, hread]
  dsimp only
  rw [op_bind_apply, push_withStack hs]
  rfl

/-- An instance that has kept its mold has the fields that are found through a type that its own
derives from. -/
theorem getField_of_derives (hc : ctx.catalog.Grounded) (hdistinct : ctx.catalog.FieldsDistinct)
    {type : TypeRef} {layout : Named Flavor}
    (hlayout : ctx.catalog.instanceFields type = .ok layout) {h : Heap}
    (hr : h.HasMold r (.record type layout.names))
    (hderives : ctx.catalog.Derives type f.declaring)
    (hf : ctx.catalog.resolveField f = .ok field) : ∃ v, h.getField r f.name = .ok v := by
  obtain ⟨inherited, hinherited, hbegins⟩ := hc.inherits_layout hlayout hderives
  have hname : f.name ∈ layout.names :=
    hbegins.subset ((hdistinct.mem_names_iff hinherited).2 ⟨field, hf⟩)
  obtain ⟨o, ho, hmold⟩ := hr
  rcases o with ⟨type', fields⟩ | ⟨element, storage⟩
  · obtain ⟨rfl, hnames⟩ : type' = type ∧ fields.names = layout.names := by
      simpa [HeapObject.mold] using hmold
    rw [← hnames, ← Named.isSome_get?] at hname
    obtain ⟨v, hv⟩ := Option.isSome_iff_exists.1 hname
    exact ⟨v, Heap.getField_eq_ok.2 ⟨_, fields, ho, hv⟩⟩
  · cases hmold

/-- **Fields that are found are there.**  In whatever way a catalog has been put together, if a type
has an instance layout, then its names are distinct; it has just the fields that are found from the
type on, each with the flavor of the nearest one of its name; and it begins with the names of the
layout of every type that the type derives from.

So let the machine add an instance, over a catalog with the core library.  Whatever is executed from
then on, and however the catalog grows, `ldfld` on the instance succeeds for every field that is
found through a type that the instance's own derives from, and pushes what it holds. -/
theorem fields_found :
    (∀ (c : Catalog) (type : TypeRef) (layout : Named Flavor),
      Catalog.Extends (fun _ => True) {} c → c.instanceFields type = .ok layout →
        layout.names.Nodup ∧
        (∀ name flavor, (name, flavor) ∈ layout ↔
          ∃ field, c.resolveField ⟨type, name⟩ = .ok field ∧ c.flavorOf field.type = .ok flavor) ∧
        ∀ base, c.Derives type base →
          ∃ inherited, c.instanceFields base = .ok inherited ∧
            inherited.names <+: layout.names) ∧
    ∀ (ctx ctx' : Context) (s t u : Machine) (r : Handle) (type : TypeRef) (fields : Fields),
      Catalog.withCorelib.Extends (fun _ => True) ctx.catalog → s.Acts ctx t →
      s.heap.get? r = none → t.heap.get? r = some (.record type fields) →
      Sequel (fun _ _ => True) Heap.Evolves ctx t ctx' u →
      ∀ (i : Instruction) (f : FieldRef) (field : Field) (g : Frame) (F : List Frame)
        (S : OperandStack), i.action? = .ok (.loadField f) →
        ctx'.catalog.Derives type f.declaring → ctx'.catalog.resolveField f = .ok field →
        u.calls.frames = g :: F → g.stack = .object r :: S →
        ∃ v, u.heap.getField r f.name = .ok v ∧
          ∀ fuel, step ctx' fuel i u = some (.ok .next, u.withStack (v :: S)) := by
  constructor
  · intro c type layout hc hlayout
    have hdistinct : c.FieldsDistinct := hc.fieldsDistinct (List.forall_mem_nil _)
    refine ⟨Catalog.nodup_instanceFields hlayout, fun name flavor => ?_, fun base hderives => ?_⟩
    · exact hdistinct.mem_instanceFields_iff hlayout
    · exact (hc.grounded Catalog.grounded_empty).inherits_layout hlayout hderives
  · intro ctx ctx' s t u r type fields hcorelib hacts hnew hr hsequel i f field g F S hi hderives hf
      hframes hstack
    obtain ⟨layout, hlayout, hnames⟩ := hacts.laidOut hcorelib.hasStrings hnew hr
    -- the mold has endured, and the grown catalog has the same layout for it
    have hmold : u.heap.HasMold r (.record type layout.names) := by
      refine hsequel.holds (fun c => endures_hasMold c _ r _) ⟨_, hr, ?_⟩
      exact congrArg (Mold.record type) hnames
    have hgrown := hsequel.extends
    have hc' : Catalog.Extends (fun _ => True) {} ctx'.catalog :=
      (Catalog.extends_withCorelib.trans hcorelib).trans hgrown
    obtain ⟨v, hv⟩ := getField_of_derives (hc'.grounded Catalog.grounded_empty)
      (hc'.fieldsDistinct (List.forall_mem_nil _)) (hgrown.instanceFields hlayout) hmold hderives hf
    exact ⟨v, hv, step_of_outcome hi (loadField_apply hf hframes hstack hv)⟩

end Machine

namespace Sample

/-- A class with two integers. -/
def coordinates : TypeDecl :=
  ((TypeDecl.ofRef ⟨"app", "Coordinates"⟩).withField "x" (.corelib "System.Int32")).withField
    "y" (.corelib "System.Int32")

/-- A class that derives from it and declares one of the two again, as a reference. -/
def tagged : TypeDecl :=
  (((TypeDecl.ofRef ⟨"app", "Tagged"⟩).withBase coordinates.ref).withField
    "tag" (.corelib "System.Int32")).withField "x" .object |>.withDefaultConstructor

/-- A class that is registered later. -/
def tracked : TypeDecl :=
  ((TypeDecl.ofRef ⟨"app", "Tracked"⟩).withBase tagged.ref).withField "y" .object

def layered : Context where
  catalog := (Catalog.add tagged (Catalog.add coordinates .withCorelib).2).2

def widened : Context := { catalog := (Catalog.add tracked layered.catalog).2 }

/-- The one native routine that the program brings along does nothing. -/
theorem layered_extends {P : Native → Prop} (hP : ∀ name, P (.nothing name)) :
    Catalog.withCorelib.Extends P layered.catalog := by
  have hcoordinates : Catalog.withCorelib.Extends P (Catalog.add coordinates .withCorelib).2 :=
    .add .refl fun m hm => by cases hm
  have htagged := hcoordinates.add (d := tagged) fun m hm routine hroutine => by
    obtain rfl := List.mem_singleton.1 hm
    cases hroutine
    exact hP _
  simpa only [layered] using htagged

theorem widened_extends : layered.catalog.Extends (fun _ => True) widened.catalog := by
  have htracked : layered.catalog.Extends (fun _ => True) (Catalog.add tracked layered.catalog).2 :=
    .add .refl fun _ _ _ _ => trivial
  simpa only [widened] using htracked

/-- Creates an instance of the class that derives from the other. -/
def creation : Instruction := ⟨0, 5, "newobj", .call, .method (.constructor tagged.ref 0)⟩

/-- Loads the field that is declared twice, through the base. -/
def access : Instruction := ⟨5, 5, "ldfld", .sequential, .field ⟨coordinates.ref, "x"⟩⟩

/-- The machine in which the constructor is about to be called. -/
def created : Machine := (Machine.performInstruction layered creation (stacked [])).2

/-- The new instance. -/
def taggedObject : HeapObject :=
  .record tagged.ref [("x", .null), ("y", .int32 0), ("tag", .int32 0)]

/-- The constructor runs and leaves the instance as it is. -/
theorem created_runs :
    ∃ (v : Machine.Invocation) (r : Except Failure (Option Value)) (u : Machine),
      v.machine = created ∧ v.Conforms layered (fun _ _ => True) Heap.Evolves ∧
      v.run layered = some (r, u) ∧ u.heap.get? ⟨1⟩ = some taggedObject := by
  have hrun : (match (Machine.performInstruction layered creation (stacked [])).1 with
      | .ok (.call c) => (Machine.invoke layered 2 c.method c.arguments created).map
        fun p => p.2.heap.get? ⟨1⟩
      | .ok (.outcome _) => none
      | .error _ => none) = some (some taggedObject) := by decide +kernel
  rcases hp : Machine.performInstruction layered creation (stacked []) with ⟨e | o | c, t⟩ <;>
    rw [hp] at hrun
  · cases hrun
  · cases hrun
  have hcreated : created = t := congrArg Prod.snd hp
  rw [hcreated] at hrun
  obtain ⟨⟨r, u⟩, hu, hobject⟩ := Option.map_eq_some_iff.1 hrun
  -- the core library and the program keep histories, and so do the answers, since there are none
  have hcorelib : Catalog.withCorelib.Runs fun routine => ∀ types, routine.KeepsHistory types :=
    ⟨fun entry hentry types => (corelib_keepsHistory types).natives entry hentry,
      fun m hm routine hbody types => (corelib_keepsHistory types).methods m hm routine hbody⟩
  have hruns := (layered_extends fun _ _ _ _ => ⟨[], .start⟩).runs (fun _ h => h) hcorelib
  have hstarts : (stacked []).RunsOnly layered fun routine => ∀ types, routine.KeepsHistory types :=
    ⟨hruns.methods, fun _ hentry => by cases hentry⟩
  obtain ⟨hm, hkeeps⟩ := (Machine.Starts.step 2 hp).keeps
    (Machine.everything_invariant layered _) hstarts.keeps
  exact ⟨⟨2, c.method, c.arguments, t⟩, r, u, hcreated.symm,
    Machine.Invocation.conforms_of_runsOnly hkeeps.runsOnly hm (fun _ _ => trivial)
      fun routine hroutine args h => hroutine _ args h, hu, hobject⟩

end Sample

namespace Machine

/-- The field that is declared again keeps its place, and takes the new flavor.  After the
constructor has run and a class has been registered, it is loaded through the base. -/
theorem fields_found_layered :
    (∃ layout, Sample.layered.catalog.instanceFields Sample.tagged.ref = .ok layout ∧
      layout = [("x", .object), ("y", .i4), ("tag", .i4)] ∧ layout.names.Nodup ∧
      ∃ field, Sample.layered.catalog.resolveField ⟨Sample.tagged.ref, "x"⟩ = .ok field ∧
        Sample.layered.catalog.flavorOf field.type = .ok .object) ∧
    ∃ u, Sequel (fun _ _ => True) Heap.Evolves Sample.layered Sample.created Sample.widened u ∧
      step Sample.widened 1 Sample.access u = some (.ok .next, u.withStack [.null]) := by
  obtain ⟨hlayouts, haccess⟩ := fields_found
  have hextends := Sample.layered_extends (P := fun _ => True) fun _ => trivial
  constructor
  · have hlayout : Sample.layered.catalog.instanceFields Sample.tagged.ref =
        .ok [("x", .object), ("y", .i4), ("tag", .i4)] := by decide +kernel
    obtain ⟨hnodup, hfields, -⟩ :=
      hlayouts _ _ _ (Catalog.extends_withCorelib.trans hextends) hlayout
    exact ⟨_, hlayout, rfl, hnodup, (hfields "x" .object).1 (by simp)⟩
  · obtain ⟨v, r, w, hv, hconforms, hrun, hobject⟩ := Sample.created_runs
    have hsequel : Sequel (fun _ _ => True) Heap.Evolves Sample.layered Sample.created
        Sample.widened { w with calls := (Sample.stacked [.object ⟨1⟩]).calls } :=
      .elsewhere (.growth (.call (hv ▸ .start) hconforms (.ends .refl hrun))
        Sample.widened_extends) rfl
    have hderives : Sample.widened.catalog.Derives Sample.tagged.ref Sample.coordinates.ref := by
      rw [Catalog.Derives]
      decide +kernel
    have hfield : Sample.widened.catalog.resolveField ⟨Sample.coordinates.ref, "x"⟩ =
        .ok ⟨"x", .corelib "System.Int32"⟩ := by decide +kernel
    have hnew : Sample.created.heap.get? ⟨1⟩ = some Sample.taggedObject := by decide +kernel
    have hacts : (Sample.stacked []).Acts Sample.layered Sample.created := by
      rw [Sample.created]
      exact .instruction Sample.creation
    obtain ⟨value, hvalue, hstep⟩ := haccess _ _ _ _ _ _ _ _ hextends hacts rfl hnew hsequel
      Sample.access ⟨Sample.coordinates.ref, "x"⟩ _ _ _ _ (by decide +kernel) hderives hfield rfl
      rfl
    have hnull : w.heap.getField ⟨1⟩ "x" = .ok .null :=
      Heap.getField_eq_ok.2 ⟨_, _, hobject, rfl⟩
    cases hvalue.symm.trans hnull
    exact ⟨_, hsequel, hstep 1⟩

end Machine

end CilMachine
