/-
CilMachine/Catalog/Basic.lean

The catalog: the registered types, newest first, and the native routines that built-in methods are
bound to.  It is the machine's only source of type information.
-/
import CilMachine.Catalog.Method

namespace CilMachine

/-- A registered type. -/
structure TypeDef extends TypeHeader where
  methods : List Method
deriving Inhabited

namespace TypeDef

/-- The method of a name and a number of parameters. -/
def method? (t : TypeDef) (name : String) (paramCount : Nat) : Option Method :=
  t.methods.find? fun m => m.name == name && m.paramCount == paramCount

/-- The first method of a name. -/
def methodNamed? (t : TypeDef) (name : String) : Option Method :=
  t.methods.find? (·.name == name)

/-- The first method of a name that has a body. -/
def concrete? (t : TypeDef) (name : String) : Option Method :=
  t.methods.find? fun m => m.name == name && !m.isAbstract

/-- The type as native routines see it. -/
def entry (t : TypeDef) : TypeEntry :=
  { t.toTypeHeader with methods := t.methods.map Method.entry }

/-- The constructors. -/
def constructors (t : TypeDef) : List Method := t.methods.filter Method.isConstructor

end TypeDef

/-- Native routines by the method they implement, each method once. -/
abbrev NativeRegistry := List (MethodRef × Native)

namespace NativeRegistry

/-- The routine of a method. -/
def get? (r : NativeRegistry) (m : MethodRef) : Option Native := r.lookup m

/-- Whether a method has a routine. -/
def contains (r : NativeRegistry) (m : MethodRef) : Bool := (r.get? m).isSome

/-- Gives a method a routine, in place of the one it may have. -/
def put (r : NativeRegistry) (m : MethodRef) (routine : Native) : NativeRegistry :=
  (m, routine) :: r.filter (·.1 != m)

end NativeRegistry

/-- The known types, newest first, and the known native routines. -/
structure Catalog where
  types : List TypeDef := []
  natives : NativeRegistry := []
deriving Inhabited

namespace Catalog

/-- The type of a name. -/
def get? (c : Catalog) (t : TypeRef) : Option TypeDef := c.types.find? (·.ref == t)

/-- Whether a type is registered. -/
def contains (c : Catalog) (t : TypeRef) : Bool := (c.get? t).isSome

/-- The number of types. -/
def size (c : Catalog) : Nat := c.types.length

/-- The catalog as native routines see it. -/
def headers (c : Catalog) : Headers where
  types := c.types.map TypeDef.entry
  natives := c.natives.map fun (m, routine) => (m, routine.name)

theorem contains_headers (c : Catalog) (t : TypeRef) : c.headers.contains t = c.contains t := by
  simp only [Headers.contains, headers, List.any_map, contains, get?, List.isSome_find?]
  rfl

/-- The type of a name, or the error that there is none. -/
def resolveType (c : Catalog) (t : TypeRef) : Except ExecError TypeDef :=
  match c.get? t with
  | some d => .ok d
  | none => .error (.unresolved (.type t))

/-- The flavor of a type. -/
def flavorOf (c : Catalog) (t : TypeRef) : Except ExecError Flavor :=
  return (← c.resolveType t).flavor

/-- Registers a native routine. -/
def registerNative (c : Catalog) (m : MethodRef) (routine : Native) : Catalog :=
  { c with natives := c.natives.put m routine }

end Catalog

end CilMachine
