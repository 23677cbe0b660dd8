/-
CilMachine/Reference.lean

Symbolic references to types, methods and fields.  Code holds only these names; a catalog says what
they stand for.  A type is named by its module and its full name, a member relative to the type it
is looked up through.
-/

namespace CilMachine

/-- The module of the core library. -/
def corelibModule : String := "System.Private.CoreLib"

/-- The name that all constructors have. -/
def constructorName : String := ".ctor"

/-- The field that holds the text of a string object. -/
def textField : String := "value"

/-- The name of a type. -/
structure TypeRef where
  module : String
  name : String
deriving DecidableEq, Inhabited

namespace TypeRef

/-- A type of the core library. -/
def corelib (name : String) : TypeRef := ⟨corelibModule, name⟩

/-- The root of the class hierarchy. -/
def object : TypeRef := corelib "System.Object"

/-- The type of string objects. -/
def string : TypeRef := corelib "System.String"

/-- The written form `[module]name`. -/
def text (t : TypeRef) : String := "[" ++ t.module ++ "]" ++ t.name

end TypeRef

/-- The name of a method, with the number of its declared parameters. -/
structure MethodRef where
  declaring : TypeRef
  name : String
  paramCount : Nat
deriving DecidableEq, Inhabited

namespace MethodRef

/-- The constructor of a type with so many parameters. -/
def constructor (declaring : TypeRef) (paramCount : Nat) : MethodRef :=
  ⟨declaring, constructorName, paramCount⟩

/-- Whether the name is that of a constructor. -/
def isConstructor (m : MethodRef) : Bool := m.name == constructorName

/-- The written form `[module]type::name/count`. -/
def text (m : MethodRef) : String :=
  m.declaring.text ++ "::" ++ m.name ++ "/" ++ toString m.paramCount

end MethodRef

/-- The name of a field. -/
structure FieldRef where
  declaring : TypeRef
  name : String
deriving DecidableEq, Inhabited

/-- The written form `[module]type::name`. -/
def FieldRef.text (f : FieldRef) : String :=
  f.declaring.text ++ "::" ++ f.name

end CilMachine
