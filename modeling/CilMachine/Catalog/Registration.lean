/-
CilMachine/Catalog/Registration.lean

Registration of types.  A type is registered once, after its base; its fields have distinct names
and its methods distinct names and parameter counts; and a method without a body of its own is bound
to the native routine that is registered for it.  A failing registration leaves the catalog as it
was.
-/
import CilMachine.Catalog.Basic

namespace CilMachine

/-- The declaration of a type. -/
structure TypeDecl where
  ref : TypeRef
  flavor : Flavor := .classType
  base : Option TypeRef := none
  fields : List Field := []
  methods : List MethodDecl := []
deriving Inhabited

namespace TypeDecl

/-- The declaration of a class.  Its base is the root of the hierarchy, unless it is the root. -/
def ofRef (t : TypeRef) : TypeDecl where
  ref := t
  base := if t = .object then none else some .object

/-- Gives the type a flavor.  A value type has no base. -/
def withFlavor (d : TypeDecl) (f : Flavor) : TypeDecl :=
  { d with flavor := f, base := if f.isValueType then none else d.base }

/-- Gives the type a base. -/
def withBase (d : TypeDecl) (base : TypeRef) : TypeDecl := { d with base := some base }

/-- Adds a field. -/
def withField (d : TypeDecl) (name : String) (type : TypeRef) : TypeDecl :=
  { d with fields := d.fields ++ [⟨name, type⟩] }

/-- Adds a method. -/
def withMethod (d : TypeDecl) (m : MethodDecl) : TypeDecl := { d with methods := d.methods ++ [m] }

/-- Adds a constructor without parameters that does nothing. -/
def withDefaultConstructor (d : TypeDecl) : TypeDecl :=
  d.withMethod { MethodDecl.constructor [] with native := some (.nothing constructorName) }

end TypeDecl

namespace Catalog

/-- The method with a body to run: an unbound method gets the native routine registered for it. -/
def bind (natives : NativeRegistry) (m : Method) : Except Failure Method :=
  if m.isUnbound then
    match natives.get? m.ref with
    | some routine => .ok { m with body := .native routine }
    | none => .error (.unsupported (.builtIn m.ref))
  else .ok m

/-- Builds and binds the declared methods of a type, given the signatures that are taken. -/
def bindAll (natives : NativeRegistry) (t : TypeRef) (taken : List (String × Nat)) :
    List MethodDecl → Except Failure (List Method)
  | [] => .ok []
  | d :: rest => do
    let m := d.build t
    if m.signature ∈ taken then throw (.malformed (.methodDeclaredTwice m.ref))
    let bound ← bind natives m
    return bound :: (← bindAll natives t (m.signature :: taken) rest)

/-- Computations that change the catalog and may fail. -/
abbrev Op (α : Type) := ExceptT Failure (StateM Catalog) α

/-- Registers a type in place, once it has been checked and its methods are bound; yields it. -/
def add (d : TypeDecl) : Op TypeDef := do
  let c ← get
  if c.contains d.ref then throw (.malformed (.typeRegistered d.ref))
  if let some base := d.base then discard (c.resolveType base)
  if let some name := firstRepeated [] (d.fields.map Field.name) then
    throw (.malformed (.fieldDeclaredTwice ⟨d.ref, name⟩))
  let methods ← bindAll c.natives d.ref [] d.methods
  let t : TypeDef :=
    { ref := d.ref, flavor := d.flavor, base := d.base, fields := d.fields, methods }
  modify fun c => { c with types := t :: c.types }
  return t

/-- Registers a type; yields it and the catalog that contains it. -/
def register (c : Catalog) (d : TypeDecl) : Except Failure (TypeDef × Catalog) :=
  match (add d).run.run c with
  | (.ok t, c') => .ok (t, c')
  | (.error e, _) => .error e

end Catalog

end CilMachine
