/-
CilMachine/Proofs/Recoding.lean

Programs that differ in the code of their methods only.  A catalog is *recoded* as another if that
has the same types with the same members, and corresponding methods have the same body, or
interpreted bodies that a given relation relates.  Both catalogs then answer alike, with methods
that are recoded as each other; and of everything but methods they answer the same.

So what an action does is the same with both, apart from the method that it calls and that the
dispatcher keeps (`twins_perform`).  Not so a native routine: it is given the catalog and may look
into the code there, unless it ignores code (`Native.IgnoresCode`), as those of the core library do.
-/
import CilMachine.Proofs.Memoization
import CilMachine.Proofs.Parallel

namespace CilMachine

variable {B : Body → Body → Prop} {ε α β γ δ : Type}

/-! ### Methods, types and catalogs -/

/-- The same body, or code that is related. -/
inductive MethodBody.Rel (B : Body → Body → Prop) : MethodBody → MethodBody → Prop
  | same (body : MethodBody) : Rel B body body
  | interpreted {b b' : Body} : B b b' → Rel B (.interpreted b) (.interpreted b')

/-- The same method, but for related code. -/
inductive Method.Recoded (B : Body → Body → Prop) (m : Method) : Method → Prop
  | intro {body : MethodBody} : m.body.Rel B body → Recoded B m { m with body }

/-- The same type, but for the code of its methods. -/
inductive TypeDef.Recoded (B : Body → Body → Prop) (t : TypeDef) : TypeDef → Prop
  | intro {methods : List Method} : List.Forall₂ (Method.Recoded B) t.methods methods →
      Recoded B t { t with methods }

/-- The same catalog, but for the code of the methods. -/
structure Catalog.Recoded (B : Body → Body → Prop) (c c' : Catalog) : Prop where
  types : List.Forall₂ (TypeDef.Recoded B) c.types c'.types
  natives : c'.natives = c.natives

/-- The same to see of a body, or code that is related. -/
inductive BodyEntry.Rel (B : Body → Body → Prop) : BodyEntry → BodyEntry → Prop
  | same (body : BodyEntry) : Rel B body body
  | interpreted {b b' : Body} : B b b' → Rel B (.interpreted b) (.interpreted b')

/-- The same to see of a method, but for related code. -/
inductive MethodEntry.Recoded (B : Body → Body → Prop) (m : MethodEntry) : MethodEntry → Prop
  | intro {body : BodyEntry} : m.body.Rel B body → Recoded B m { m with body }

/-- The same to see of a type, but for the code of its methods. -/
inductive TypeEntry.Recoded (B : Body → Body → Prop) (t : TypeEntry) : TypeEntry → Prop
  | intro {methods : List MethodEntry} : List.Forall₂ (MethodEntry.Recoded B) t.methods methods →
      Recoded B t { t with methods }

/-- The same to see of a catalog, but for the code of the methods. -/
structure Headers.Recoded (B : Body → Body → Prop) (headers headers' : Headers) : Prop where
  types : List.Forall₂ (TypeEntry.Recoded B) headers.types headers'.types
  natives : headers'.natives = headers.natives

/-- The routine does not look into the code of methods: it does the same with all catalogs that
differ in nothing else. -/
def Native.IgnoresCode (B : Body → Body → Prop) (routine : Native) : Prop :=
  ∀ {headers headers' : Headers}, headers.Recoded B headers' →
    routine.run headers' = routine.run headers

/-- The same context, but for the code of the methods. -/
structure Context.Recoded (B : Body → Body → Prop) (ctx ctx' : Context) : Prop where
  catalog : ctx.catalog.Recoded B ctx'.catalog
  tracing : ctx'.tracing = ctx.tracing

namespace Method.Recoded

variable {m m' : Method}

theorem refl (m : Method) : m.Recoded B m := .intro (.same m.body)

theorem body (h : m.Recoded B m') : m.body.Rel B m'.body := by
  cases h with
  | intro h => exact h

theorem isAbstract_eq (h : m.Recoded B m') : m'.isAbstract = m.isAbstract := by
  have hbody := h.body
  unfold isAbstract
  generalize m.body = x, m'.body = y at hbody
  cases hbody <;> rfl

theorem name_eq (h : m.Recoded B m') : m'.name = m.name := by
  cases h
  rfl

theorem paramCount_eq (h : m.Recoded B m') : m'.paramCount = m.paramCount := by
  cases h
  rfl

theorem isStatic_eq (h : m.Recoded B m') : m'.isStatic = m.isStatic := by
  cases h
  rfl

theorem isVirtual_eq (h : m.Recoded B m') : m'.isVirtual = m.isVirtual := by
  cases h
  rfl

theorem isConstructor_eq (h : m.Recoded B m') : m'.isConstructor = m.isConstructor := by
  cases h
  rfl

theorem ref_eq (h : m.Recoded B m') : m'.ref = m.ref := by
  cases h
  rfl

end Method.Recoded

theorem Context.Recoded.refl (ctx : Context) : ctx.Recoded B ctx :=
  ⟨⟨List.forall₂_same.2 fun _ _ => .intro (List.forall₂_same.2 fun m _ => .refl m), rfl⟩, rfl⟩

theorem TypeDef.Recoded.header {t t' : TypeDef} (h : t.Recoded B t') :
    t'.toTypeHeader = t.toTypeHeader := by
  cases h
  rfl

theorem TypeDef.Recoded.methods {t t' : TypeDef} (h : t.Recoded B t') :
    List.Forall₂ (Method.Recoded B) t.methods t'.methods := by
  cases h with
  | intro h => exact h

theorem MethodBody.Rel.entry {x y : MethodBody} (h : x.Rel B y) : x.entry.Rel B y.entry := by
  cases h with
  | same => exact .same x.entry
  | interpreted hb => exact .interpreted hb

theorem Method.Recoded.entry {m m' : Method} (h : m.Recoded B m') :
    m.entry.Recoded B m'.entry := by
  cases h with
  | intro hbody => exact .intro hbody.entry

theorem TypeDef.Recoded.entry {t t' : TypeDef} (h : t.Recoded B t') :
    t.entry.Recoded B t'.entry := by
  cases h with
  | intro hmethods =>
      refine .intro ?_
      exact List.forall₂_map_left_iff.2 (List.forall₂_map_right_iff.2
        (hmethods.imp fun _ _ => Method.Recoded.entry))

theorem TypeDef.Recoded.map_header {ts ts' : List TypeDef}
    (h : List.Forall₂ (TypeDef.Recoded B) ts ts') :
    ts'.map TypeDef.toTypeHeader = ts.map TypeDef.toTypeHeader := by
  induction h with
  | nil => rfl
  | cons ht _ ih => rw [List.map_cons, List.map_cons, ht.header, ih]

/-! ### What catalogs answer -/

/-- What follows is the same if what it is given is alike. -/
theorem Alike.bind_eq {P : ε → Prop} {A : α → β → Prop} {x : Except ε α} {y : Except ε β}
    {f : α → Except ε γ} {g : β → Except ε γ} (h : Alike P A x y)
    (hfg : ∀ a b, A a b → g b = f a) : (y >>= g) = (x >>= f) := by
  cases h with
  | ok ha => exact hfg _ _ ha
  | error _ => rfl

section Forall₂

variable {R : α → β → Prop} {xs : List α} {ys : List β}

/-- A search by what the members have in common finds related members. -/
theorem forall₂_find? (h : List.Forall₂ R xs ys) {p : α → Bool} {q : β → Bool}
    (hpq : ∀ a b, R a b → q b = p a) : Option.Rel R (xs.find? p) (ys.find? q) := by
  induction h with
  | nil => exact .none
  | @cons a b _ _ hab _ ih =>
      rw [List.find?_cons, List.find?_cons, hpq a b hab]
      cases p a
      · exact ih
      · exact .some hab

theorem forall₂_findSome? (h : List.Forall₂ R xs ys) {S : γ → δ → Prop} {f : α → Option γ}
    {g : β → Option δ} (hfg : ∀ a b, R a b → Option.Rel S (f a) (g b)) :
    Option.Rel S (xs.findSome? f) (ys.findSome? g) := by
  induction h with
  | nil => exact .none
  | @cons a b _ _ hab _ ih =>
      have hab := hfg a b hab
      rw [List.findSome?_cons, List.findSome?_cons]
      generalize f a = x, g b = y at hab
      cases hab with
      | none => exact ih
      | some h => exact .some h

end Forall₂

theorem TypeDef.Recoded.method? {t t' : TypeDef} (h : t.Recoded B t') (name : String)
    (paramCount : Nat) :
    Option.Rel (Method.Recoded B) (t.method? name paramCount) (t'.method? name paramCount) :=
  forall₂_find? h.methods fun m m' hm => by rw [hm.name_eq, hm.paramCount_eq]

theorem TypeDef.Recoded.concrete? {t t' : TypeDef} (h : t.Recoded B t') (name : String) :
    Option.Rel (Method.Recoded B) (t.concrete? name) (t'.concrete? name) :=
  forall₂_find? h.methods fun m m' hm => by rw [hm.name_eq, hm.isAbstract_eq]

/-! ### What native routines see -/

theorem Headers.Recoded.contains_eq {headers headers' : Headers} (h : headers.Recoded B headers')
    (t : TypeRef) : headers'.contains t = headers.contains t := by
  have hfind := forall₂_find? h.types (p := fun d => d.ref == t) (q := fun d => d.ref == t)
    fun d d' hd => by cases hd; rfl
  rw [contains, contains, ← List.isSome_find?, ← List.isSome_find?]
  generalize headers.types.find? _ = x, headers'.types.find? _ = y at hfind
  cases hfind <;> rfl

namespace Catalog.Recoded

variable {c c' : Catalog}

theorem headers (h : c.Recoded B c') : c.headers.Recoded B c'.headers := by
  refine ⟨?_, by rw [Catalog.headers, Catalog.headers, h.natives]⟩
  exact List.forall₂_map_left_iff.2 (List.forall₂_map_right_iff.2
    (h.types.imp fun _ _ => TypeDef.Recoded.entry))

theorem resolveType_alike (h : c.Recoded B c') (t : TypeRef) :
    AlikeOrdinary (TypeDef.Recoded B) (c.resolveType t) (c'.resolveType t) := by
  have hget : Option.Rel (TypeDef.Recoded B) (c.get? t) (c'.get? t) :=
    forall₂_find? h.types fun d d' hd => by rw [hd.header]
  unfold resolveType
  generalize c.get? t = x, c'.get? t = y at hget
  cases hget with
  | none => exact .error rfl
  | some hd => exact .ok hd

theorem chain_alike {ts ts' : List TypeDef} (h : List.Forall₂ (TypeDef.Recoded B) ts ts')
    (r : TypeRef) :
    AlikeOrdinary (List.Forall₂ (TypeDef.Recoded B)) (chain ts r) (chain ts' r) := by
  induction h generalizing r with
  | nil => exact .error rfl
  | @cons t t' _ _ ht _ ih =>
      unfold chain
      rw [ht.header]
      split
      · rcases t.base with - | b
        · exact .ok (.cons ht .nil)
        · exact (ih b).map fun _ _ hts => .cons ht hts
      · exact ih r

theorem ancestry_alike (h : c.Recoded B c') (r : TypeRef) :
    AlikeOrdinary (List.Forall₂ (TypeDef.Recoded B)) (c.ancestry r) (c'.ancestry r) :=
  chain_alike h.types r

theorem resolveMethod_alike (h : c.Recoded B c') (m : MethodRef) :
    AlikeOrdinary (Method.Recoded B) (c.resolveMethod m) (c'.resolveMethod m) := by
  refine (h.ancestry_alike m.declaring).bind fun ts ts' hts => ?_
  have hfound := forall₂_findSome? hts fun t t' ht => ht.method? m.name m.paramCount
  generalize ts.findSome? _ = x, ts'.findSome? _ = y at hfound
  cases hfound with
  | none => exact .error rfl
  | some hm => exact .ok hm

theorem resolveConstructor_alike (h : c.Recoded B c') (m : MethodRef) :
    AlikeOrdinary (Method.Recoded B) (c.resolveConstructor m) (c'.resolveConstructor m) := by
  refine (h.resolveType_alike m.declaring).bind fun t t' ht => ?_
  have hfound := ht.method? m.name m.paramCount
  generalize t.method? _ _ = x, t'.method? _ _ = y at hfound
  cases hfound with
  | none => exact .error rfl
  | some hm =>
      dsimp only
      rw [hm.isConstructor_eq]
      split
      · exact .ok hm
      · exact .error rfl

theorem target_alike (h : c.Recoded B c') {declared declared' : Method}
    (hm : declared.Recoded B declared') (runtime : TypeRef) :
    AlikeOrdinary (Method.Recoded B) (Dispatch.target c declared runtime)
      (Dispatch.target c' declared' runtime) := by
  have hoverride : AlikeOrdinary (Option.Rel (Method.Recoded B))
      (c.findOverride runtime declared.name) (c'.findOverride runtime declared.name) :=
    (h.ancestry_alike runtime).bind fun ts ts' hts =>
      .ok (forall₂_findSome? hts fun t t' ht => ht.concrete? declared.name)
  unfold Dispatch.target
  rw [hm.name_eq]
  refine hoverride.bind fun x y hxy => ?_
  cases hxy with
  | none =>
      rw [hm.ref_eq]
      exact .error rfl
  | some hm => exact .ok hm

theorem flavorOf_eq (h : c.Recoded B c') (t : TypeRef) : c'.flavorOf t = c.flavorOf t :=
  (h.resolveType_alike t).bind_eq fun _ _ ht => by rw [ht.header]

theorem resolveField_eq (h : c.Recoded B c') (f : FieldRef) :
    c'.resolveField f = c.resolveField f := by
  -- a field is looked for in the headers of the chain, and these are the same
  refine (h.ancestry_alike f.declaring).bind_eq fun ts ts' hts => ?_
  have hfield (ts : List TypeDef) : ts.findSome? (·.field? f.name) =
      (ts.map TypeDef.toTypeHeader).findSome? (·.field? f.name) := by
    rw [List.findSome?_map]
    rfl
  rw [hfield ts', hfield ts, TypeDef.Recoded.map_header hts]

theorem isAssignable_eq (h : c.Recoded B c') (t target : TypeRef) :
    c'.isAssignable t target = c.isAssignable t target := by
  refine (h.ancestry_alike t).bind_eq fun ts ts' hts => ?_
  have hany (ts : List TypeDef) : ts.any (·.ref == target) =
      (ts.map TypeDef.toTypeHeader).any (·.ref == target) := by
    rw [List.any_map]
    rfl
  rw [hany ts', hany ts, TypeDef.Recoded.map_header hts]

theorem instanceFields_eq (h : c.Recoded B c') (t : TypeRef) :
    c'.instanceFields t = c.instanceFields t := by
  have hlayout : c'.extendLayout = c.extendLayout := by
    funext layout fields
    unfold Catalog.extendLayout
    simp only [h.flavorOf_eq]
  refine (h.ancestry_alike t).bind_eq fun ts ts' hts => ?_
  have hfold (ts : List TypeDef) : ts.reverse.foldlM (fun l d => c.extendLayout l d.fields) [] =
      (ts.map TypeDef.toTypeHeader).reverse.foldlM (fun l d => c.extendLayout l d.fields) [] := by
    rw [← List.map_reverse, List.foldlM_map]
  rw [hlayout, hfold ts', hfold ts, TypeDef.Recoded.map_header hts]

end Catalog.Recoded

/-! ### One machine, two catalogs -/

/-- The methods are recoded as each other, and the rest of the calls is the same. -/
structure Call.Recoded (B : Body → Body → Prop) (c c' : Call) : Prop where
  method : c.method.Recoded B c'.method
  arguments : c'.arguments = c.arguments
  created : c'.created = c.created

/-- The same outcome, or jumps to related targets. -/
inductive Outcome.Rel (P : Nat → Nat → Prop) : Outcome → Outcome → Prop
  | next : Rel P .next .next
  | jump {τ τ' : Nat} : P τ τ' → Rel P (.jump τ) (.jump τ')
  | leave : Rel P .leave .leave

/-- Related outcomes, or calls of methods that are recoded as each other. -/
inductive Effect.Recoded (B : Body → Body → Prop) (P : Nat → Nat → Prop) : Effect → Effect → Prop
  | outcome {o o' : Outcome} : o.Rel P o' → Recoded B P (.outcome o) (.outcome o')
  | call {c c' : Call} : c.Recoded B c' → Recoded B P (.call c) (.call c')

namespace Machine

variable {P : Nat → Nat → Prop} {A : α → β → Prop} {C : γ → δ → Prop} {ctx ctx' : Context}

theorem lift_bind_eq {Q : ExecError → Prop} {x : Except ExecError α} {y : Except ExecError β}
    (h : Alike Q A x y) {f : α → Op γ} {g : β → Op γ} (hfg : ∀ a b, A a b → g b = f a) :
    (liftM y >>= g) = (liftM x >>= f) := by
  funext s
  rw [op_bind_apply, op_bind_apply, lift_apply, lift_apply]
  cases h with
  | error _ => rfl
  | ok ha => exact congrFun (hfg _ _ ha) s

/-- On every machine the operations come out alike, and do the same to it, but for the answers that
it keeps. -/
def Twins (A : α → β → Prop) (x : Op α) (y : Op β) : Prop :=
  ∀ s, Alike (fun _ => True) A (x s).1 (y s).1 ∧
    (y s).2 = (x s).2.withAnswers (y s).2.dispatch

namespace Twins

theorem pure {a : α} {b : β} (h : A a b) : Twins A (pure a) (pure b) :=
  fun _ => ⟨.ok h, rfl⟩

theorem same (x : Op α) : Twins Eq x x := by
  intro s
  refine ⟨?_, rfl⟩
  rcases (x s).1 with e | a
  · exact .error trivial
  · exact .ok rfl

theorem throw (e : Failure) : Twins A (throw e : Op α) (throw e : Op β) :=
  fun _ => ⟨.error trivial, rfl⟩

theorem bind (x : Op α) {f : α → Op γ} {g : α → Op δ} (h : ∀ a, Twins C (f a) (g a)) :
    Twins C (x >>= f) (x >>= g) := by
  intro s
  rw [op_bind_apply, op_bind_apply]
  rcases x s with ⟨e | a, u⟩
  · exact ⟨.error trivial, rfl⟩
  · exact h a u

theorem lift_bind {Q : ExecError → Prop} {x : Except ExecError α} {y : Except ExecError β}
    (h : Alike Q A x y) {f : α → Op γ} {g : β → Op δ} (hfg : ∀ a b, A a b → Twins C (f a) (g b)) :
    Twins C (liftM x >>= f) (liftM y >>= g) := by
  intro s
  rw [op_bind_apply, op_bind_apply, lift_apply, lift_apply]
  cases h with
  | error _ => exact ⟨.error trivial, rfl⟩
  | ok ha => exact hfg _ _ ha s

theorem discard_bind {Q : ExecError → Prop} {x : Except ExecError α} {y : Except ExecError β}
    (h : Alike Q A x y) {f : Unit → Op γ} {g : Unit → Op δ} (hfg : Twins C (f ()) (g ())) :
    Twins C (discard (liftM x : Op α) >>= f) (discard (liftM y : Op β) >>= g) := by
  intro s
  rw [op_bind_apply, op_bind_apply, op_discard_apply, op_discard_apply, lift_apply, lift_apply]
  cases h with
  | error _ => exact ⟨.error trivial, rfl⟩
  | ok _ => exact hfg s

theorem map {x : Op α} {y : Op β} (h : Twins A x y) {f : α → γ} {g : β → δ}
    (hfg : ∀ a b, A a b → C (f a) (g b)) :
    Twins C (x >>= fun a => Pure.pure (f a)) (y >>= fun b => Pure.pure (g b)) := by
  intro s
  obtain ⟨hxy, hs⟩ := h s
  rw [op_bind_apply, op_bind_apply]
  generalize x s = p, y s = q at hxy hs
  obtain ⟨r, u⟩ := p
  obtain ⟨r', v⟩ := q
  cases hxy with
  | error _ => exact ⟨.error trivial, hs⟩
  | ok ha => exact ⟨.ok (hfg _ _ ha), hs⟩

theorem proceed : Twins (Effect.Recoded B P) proceed proceed :=
  .pure (.outcome .next)

/-- What is done for its effect on the machine, before the next instruction. -/
theorem thenProceed (x : Op α) :
    Twins (Effect.Recoded B P) (x >>= fun _ => Machine.proceed) (x >>= fun _ => Machine.proceed) :=
  .bind x fun _ => proceed

end Twins

/-! ### Actions -/

section Actions

variable (hctx : ctx.Recoded B ctx')

include hctx

theorem twins_dispatchTo {declared declared' : Method} (hm : declared.Recoded B declared')
    (runtime : TypeRef) :
    Twins (Method.Recoded B) (dispatchTo ctx declared runtime)
      (dispatchTo ctx' declared' runtime) := by
  intro s
  have hanswer : AlikeOrdinary (fun p q => p.1.Recoded B q.1)
      (s.dispatch.resolve ctx.catalog declared runtime)
      (s.dispatch.resolve ctx'.catalog declared' runtime) := by
    unfold Dispatch.resolve
    rw [hm.name_eq]
    -- the answers that are kept are those of one machine, and then there is nothing to compare
    rcases s.dispatch.known.lookup (runtime, declared.name) with - | m
    · exact (hctx.catalog.target_alike hm runtime).map fun _ _ h => h
    · exact .ok (.refl m)
  rw [Correspondence.dispatchTo_apply, Correspondence.dispatchTo_apply]
  generalize s.dispatch.resolve ctx.catalog declared runtime = x,
    s.dispatch.resolve ctx'.catalog declared' runtime = y at hanswer
  cases hanswer with
  | error _ => exact ⟨.error trivial, rfl⟩
  | ok hm => exact ⟨.ok hm, rfl⟩

theorem allocateObject_eq (type : TypeRef) :
    allocateObject ctx' type = allocateObject ctx type := by
  unfold allocateObject
  rw [hctx.catalog.instanceFields_eq, hctx.tracing]

theorem runtimeType_eq (r : Handle) : runtimeType ctx' r = runtimeType ctx r := by
  unfold runtimeType
  refine bind_congr fun o => ?_
  cases o with
  | record => rfl
  | array => exact lift_bind_eq (hctx.catalog.resolveType_alike _) fun _ _ ht => by rw [ht.header]

theorem isInstance_eq (target : TypeRef) (o : HeapObject) :
    isInstance ctx' target o = isInstance ctx target o := by
  cases o with
  | record type _ => exact hctx.catalog.isAssignable_eq type target
  | array => rfl

theorem materialize_eq (r : Handle) (index : Int) :
    materialize ctx' r index = materialize ctx r index := by
  unfold materialize
  simp only [allocateObject_eq hctx]

theorem twins_loadString (s : String) :
    Twins (Effect.Recoded B P) (loadString ctx s) (loadString ctx' s) := by
  unfold loadString
  refine .lift_bind (hctx.catalog.resolveType_alike _) fun t t' ht => ?_
  rw [ht.header, hctx.tracing]
  exact .bind _ fun r => .bind _ fun _ => .thenProceed _

theorem twins_typeTest (target : TypeRef) :
    Twins (Effect.Recoded B P) (typeTest ctx target) (typeTest ctx' target) := by
  unfold typeTest
  refine .bind _ fun v => ?_
  cases v with
  | null => exact .thenProceed _
  | object r =>
      refine .discard_bind (hctx.catalog.resolveType_alike target) (.bind _ fun o => ?_)
      rw [isInstance_eq hctx]
      exact .bind _ fun b => .thenProceed _
  | _ => exact .thenProceed _

theorem twins_loadField (f : FieldRef) :
    Twins (Effect.Recoded B P) (loadField ctx f) (loadField ctx' f) := by
  unfold loadField
  rw [hctx.catalog.resolveField_eq]
  exact .bind _ fun _ => .bind _ fun r => .bind _ fun v => .thenProceed _

theorem twins_storeField (f : FieldRef) :
    Twins (Effect.Recoded B P) (storeField ctx f) (storeField ctx' f) := by
  unfold storeField
  rw [hctx.catalog.resolveField_eq]
  simp only [hctx.catalog.flavorOf_eq]
  refine .bind _ fun declared => .bind _ fun flavor => .bind _ fun v => .bind _ fun r => ?_
  split
  · exact .thenProceed _
  · exact .bind _ fun _ => .thenProceed _

theorem twins_newArray (element : TypeRef) :
    Twins (Effect.Recoded B P) (newArray ctx element) (newArray ctx' element) := by
  unfold newArray
  refine .lift_bind (hctx.catalog.resolveType_alike _) fun t t' ht => ?_
  rw [ht.header, hctx.tracing]
  refine .bind _ fun n => ?_
  dsimp only
  split
  · exact .bind _ fun _ => .bind _ fun r => .bind _ fun _ => .thenProceed _
  · exact .bind _ fun r => .bind _ fun _ => .thenProceed _

theorem twins_loadElementRef :
    Twins (Effect.Recoded B P) (loadElementRef ctx) (loadElementRef ctx') := by
  unfold loadElementRef
  simp only [materialize_eq hctx]
  exact .bind _ fun index => .bind _ fun r => .bind _ fun h => .thenProceed _

/-! ### Calls -/

theorem twins_resolveVirtual {declared declared' : Method} (hm : declared.Recoded B declared')
    (receiver : Value) :
    Twins (Method.Recoded B) (resolveVirtual ctx declared receiver)
      (resolveVirtual ctx' declared' receiver) := by
  unfold resolveVirtual
  cases receiver with
  | object r =>
      dsimp only
      rw [hm.isVirtual_eq, runtimeType_eq hctx]
      split
      · exact .bind _ fun runtime => twins_dispatchTo hctx hm runtime
      · exact .pure hm
  | _ => exact .throw _

theorem twins_prepareCall (m : MethodRef) (throughReceiver : Bool) :
    Twins (Call.Recoded B) (prepareCall ctx m throughReceiver)
      (prepareCall ctx' m throughReceiver) := by
  unfold prepareCall
  refine .lift_bind (hctx.catalog.resolveMethod_alike m) fun declared declared' hm => ?_
  rw [hm.paramCount_eq, hm.isStatic_eq]
  refine .bind _ fun args => ?_
  split
  · exact .pure ⟨hm, rfl, rfl⟩
  · refine .bind _ fun receiver => ?_
    cases throughReceiver with
    | true => exact .map (twins_resolveVirtual hctx hm receiver) fun _ _ hm => ⟨hm, rfl, rfl⟩
    | false => exact .pure ⟨hm, rfl, rfl⟩

theorem twins_prepareConstruction (ctor : MethodRef) (args : List Value) :
    Twins (fun p q => Call.Recoded B p.2 q.2) (prepareConstruction ctx ctor args)
      (prepareConstruction ctx' ctor args) := by
  unfold prepareConstruction
  refine .lift_bind (hctx.catalog.resolveConstructor_alike ctor) fun m m' hm => ?_
  rw [hm.paramCount_eq, allocateObject_eq hctx]
  split
  · exact .bind _ fun _ => .bind _ fun r => .pure ⟨hm, rfl, rfl⟩
  · exact .bind _ fun r => .pure ⟨hm, rfl, rfl⟩

/-- Actions that correspond do the same, apart from the methods that are called and kept. -/
theorem twins_perform {a a' : Action} (ha : a.Rel P a') :
    Twins (Effect.Recoded B P) (perform ctx a) (perform ctx' a') := by
  cases ha with
  | jump hP => exact .pure (.outcome (.jump hP))
  | branch onTrue hP =>
      refine .bind _ fun v => ?_
      rcases v.condition? with - | b
      · exact .throw _
      · by_cases hb : b = onTrue
        · simp only [hb, if_true]
          exact .pure (.outcome (.jump hP))
        · simp only [hb, if_false]
          exact .pure (.outcome .next)
  | same hjump =>
      -- what asks the catalog for nothing is one operation on both sides
      cases a with
      | nop => exact .proceed
      | pop => exact .thenProceed _
      | dup => exact .thenProceed _
      | loadConstant => exact .thenProceed _
      | loadString s => exact twins_loadString hctx s
      | loadArgument => exact .bind _ fun f => .bind _ fun v => .thenProceed _
      | loadLocal => exact .bind _ fun f => .bind _ fun v => .thenProceed _
      | storeLocal => exact .bind _ fun v => .thenProceed _
      | arithmetic => exact .bind _ fun right => .bind _ fun left => .bind _ fun v => .thenProceed _
      | compare => exact .bind _ fun right => .bind _ fun left => .bind _ fun v => .thenProceed _
      | convert => exact .bind _ fun v => .bind _ fun u => .thenProceed _
      | typeTest target => exact twins_typeTest hctx target
      | loadField f => exact twins_loadField hctx f
      | storeField f => exact twins_storeField hctx f
      | storeIndirect => exact .bind _ fun r => .bind _ fun q => .bind _ fun v => .thenProceed _
      | newArray element => exact twins_newArray hctx element
      | arrayLength => exact .bind _ fun r => .bind _ fun n => .thenProceed _
      | loadElement =>
          refine .bind _ fun index => .bind _ fun r => .bind _ fun v => ?_
          rcases v.int32? with - | n
          · exact .thenProceed _
          · exact .thenProceed _
      | storeElement =>
          refine .bind _ fun v => .bind _ fun index => .bind _ fun r => ?_
          rcases v.integer? with - | n
          · exact .thenProceed _
          · exact .thenProceed _
      | loadElementRef => exact twins_loadElementRef hctx
      | storeElementRef =>
          exact .bind _ fun slot => .bind _ fun index => .bind _ fun r => .thenProceed _
      | jump => cases hjump
      | branch => cases hjump
      | leave => exact .pure (.outcome .leave)
      | call m => exact .map (twins_prepareCall hctx m false) fun _ _ hc => .call hc
      | callVirtual m => exact .map (twins_prepareCall hctx m true) fun _ _ hc => .call hc
      | newObject ctor =>
          exact .bind _ fun args => .map (twins_prepareConstruction hctx ctor args)
            fun _ _ hc => .call hc

end Actions

end Machine

end CilMachine
