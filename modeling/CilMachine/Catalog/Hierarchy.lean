/-
CilMachine/Catalog/Hierarchy.lean

The class hierarchy.  A base is registered before the types that derive from it, so the chain of
bases of a type is found by going through the older types once.  Members are looked up along that
chain, nearest type first; instance layouts are built along it from the other end.
-/
import CilMachine.Catalog.Basic
import CilMachine.Named

namespace CilMachine

namespace Catalog

/-- The chain of bases of a type among `types`, which are listed newest first: the type itself, its
base, and so on. -/
def chain : List TypeDef → TypeRef → Except ExecError (List TypeDef)
  | [], r => .error (.unresolved (.type r))
  | t :: older, r =>
    if t.ref = r then
      match t.base with
      | none => .ok [t]
      | some b => (chain older b).map (t :: ·)
    else chain older r

/-- The type of a name and its bases, nearest first. -/
def ancestry (c : Catalog) (r : TypeRef) : Except ExecError (List TypeDef) :=
  chain c.types r

/-- The method that a reference means: the nearest along the chain of bases. -/
def resolveMethod (c : Catalog) (m : MethodRef) : Except ExecError Method := do
  match (← c.ancestry m.declaring).findSome? (·.method? m.name m.paramCount) with
  | some method => .ok method
  | none => .error (.unresolved (.method m))

/-- The constructor that a reference means.  Constructors are not inherited. -/
def resolveConstructor (c : Catalog) (m : MethodRef) : Except ExecError Method := do
  match (← c.resolveType m.declaring).method? m.name m.paramCount with
  | some method =>
    if method.isConstructor then .ok method else .error (.unresolved (.constructor m))
  | none => .error (.unresolved (.constructor m))

/-- The field that a reference means: the nearest along the chain of bases. -/
def resolveField (c : Catalog) (f : FieldRef) : Except ExecError Field := do
  match (← c.ancestry f.declaring).findSome? (·.field? f.name) with
  | some field => .ok field
  | none => .error (.unresolved (.field f))

/-- The method of a name that a virtual call reaches on objects of a type: the nearest with a body
along the chain of bases, whatever its parameters. -/
def findOverride (c : Catalog) (runtime : TypeRef) (name : String) :
    Except ExecError (Option Method) :=
  return (← c.ancestry runtime).findSome? (·.concrete? name)

/-- Whether a type is another or derives from it. -/
def isAssignable (c : Catalog) (t target : TypeRef) : Except ExecError Bool :=
  return (← c.ancestry t).any (·.ref == target)

/-- Adds the declared fields of a type to a layout.  A name that is there keeps its place and takes
the new flavor. -/
def extendLayout (c : Catalog) (layout : Named Flavor) (fields : List Field) :
    Except ExecError (Named Flavor) :=
  fields.foldlM (fun l f => return l.put f.name (← c.flavorOf f.type)) layout

/-- The fields of the instances of a type with their flavors, inherited fields first. -/
def instanceFields (c : Catalog) (t : TypeRef) : Except ExecError (Named Flavor) := do
  (← c.ancestry t).reverse.foldlM (fun l d => c.extendLayout l d.fields) []

end Catalog

end CilMachine
