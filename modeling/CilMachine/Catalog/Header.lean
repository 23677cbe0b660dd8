/-
CilMachine/Catalog/Header.lean

What a type is apart from its methods, and a method apart from its body.  With code, and with the
mere names of native routines, headers make up the `Headers` of a catalog, which is what native
routines see of it: they can read the instructions of a method, but get at no other routine.
-/
import CilMachine.Flavor
import CilMachine.Instruction.Body
import CilMachine.Reference

namespace CilMachine

/-! ### Types -/

/-- A declared field. -/
structure Field where
  name : String
  type : TypeRef
deriving DecidableEq, Inhabited

/-- A type without its methods. -/
structure TypeHeader where
  ref : TypeRef
  flavor : Flavor
  base : Option TypeRef
  fields : List Field
deriving DecidableEq, Inhabited

/-- The declared field of a name. -/
def TypeHeader.field? (t : TypeHeader) (name : String) : Option Field :=
  t.fields.find? (·.name == name)

/-! ### Methods -/

/-- The modifiers of a method.  An abstract method is virtual too. -/
structure Modifiers where
  isStatic : Bool := false
  isVirtual : Bool := false
  isAbstract : Bool := false
deriving DecidableEq, Inhabited

/-- The modifiers as a bit set. -/
def Modifiers.bits (m : Modifiers) : Nat :=
  (if m.isStatic then 0x10 else 0) + (if m.isVirtual then 0x40 else 0) +
    (if m.isAbstract then 0x400 else 0)

/-- A method without its body. -/
structure MethodHeader where
  declaring : TypeRef
  name : String
  modifiers : Modifiers
  params : List TypeRef
  returns : Option TypeRef
  locals : List Flavor
deriving DecidableEq, Inhabited

/-! ### What native routines see -/

/-- What there is to see of a method's body: code as it is, and the name of a routine. -/
inductive BodyEntry
  | interpreted (body : Body)
  | native (name : String)
  | abstract
deriving Inhabited

/-- A method as native routines see it. -/
structure MethodEntry extends MethodHeader where
  body : BodyEntry
deriving Inhabited

/-- A type as native routines see it. -/
structure TypeEntry extends TypeHeader where
  methods : List MethodEntry
deriving Inhabited

/-- A catalog as native routines see it. -/
structure Headers where
  types : List TypeEntry := []
  natives : List (MethodRef × String) := []
deriving Inhabited

/-- Whether there is a type of the name. -/
def Headers.contains (headers : Headers) (t : TypeRef) : Bool := headers.types.any (·.ref == t)

end CilMachine
