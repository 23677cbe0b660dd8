/-
CilMachine/Catalog/Method.lean

Methods, and how they are declared.  A method's body is code, a native routine, or absent because
the method is abstract.  A declaration becomes a method when its type is registered.
-/
import CilMachine.Native.Basic

namespace CilMachine

/-- What running a method means. -/
inductive MethodBody
  | interpreted (body : Body)
  | native (routine : Native)
  | abstract
deriving Inhabited

/-- The body as native routines see it. -/
def MethodBody.entry : MethodBody → BodyEntry
  | interpreted body => .interpreted body
  | native routine => .native routine.name
  | abstract => .abstract

/-- A method of a registered type. -/
structure Method extends MethodHeader where
  body : MethodBody
deriving Inhabited

namespace Method

/-- Whether the method has no receiver. -/
def isStatic (m : Method) : Bool := m.modifiers.isStatic

/-- Whether a virtual call may reach an override. -/
def isVirtual (m : Method) : Bool := m.modifiers.isVirtual

/-- Whether the method has no body. -/
def isAbstract (m : Method) : Bool :=
  match m.body with
  | .abstract => true
  | _ => false

/-- Whether the host does the method's work. -/
def isNative (m : Method) : Bool :=
  match m.body with
  | .native _ => true
  | _ => false

/-- Whether the method is a constructor. -/
def isConstructor (m : Method) : Bool := m.name == constructorName

/-- The number of declared parameters. -/
def paramCount (m : Method) : Nat := m.params.length

/-- The number of arguments of a call: the receiver counts, if there is one. -/
def argCount (m : Method) : Nat := if m.isStatic then m.paramCount else m.paramCount + 1

/-- Whether a call yields a value. -/
def returnsValue (m : Method) : Bool := m.returns.isSome

/-- The name of the method. -/
def ref (m : Method) : MethodRef := ⟨m.declaring, m.name, m.paramCount⟩

/-- The method as native routines see it. -/
def entry (m : Method) : MethodEntry := { m.toMethodHeader with body := m.body.entry }

/-- What tells the methods of a type apart. -/
def signature (m : Method) : String × Nat := (m.name, m.paramCount)

/-- The full name, as errors and the log show it. -/
def fullName (m : Method) : String := m.declaring.name ++ "::" ++ m.name

/-- Whether the method is to be bound to a native routine: it has code, but none at all. -/
def isUnbound (m : Method) : Bool :=
  match m.body with
  | .interpreted body => body.isEmpty
  | _ => false

end Method

/-- The declaration of a method. -/
structure MethodDecl where
  name : String
  modifiers : Modifiers := {}
  params : List TypeRef := []
  returns : Option TypeRef := none
  locals : List Flavor := []
  code : Option Body := none
  native : Option Native := none
deriving Inhabited

namespace MethodDecl

/-- The declaration of a constructor. -/
def constructor (params : List TypeRef) : MethodDecl := { name := constructorName, params }

/-- Marks the method as static. -/
def asStatic (d : MethodDecl) : MethodDecl :=
  { d with modifiers := { d.modifiers with isStatic := true } }

/-- Marks the method as virtual. -/
def asVirtual (d : MethodDecl) : MethodDecl :=
  { d with modifiers := { d.modifiers with isVirtual := true } }

/-- Marks the method as abstract, and with it as virtual. -/
def asAbstract (d : MethodDecl) : MethodDecl :=
  { d with modifiers := { d.modifiers with isVirtual := true, isAbstract := true } }

/-- The body that the declaration gives.  A native routine wins over code, and an abstract method
has neither. -/
def body (d : MethodDecl) : MethodBody :=
  match d.native with
  | some routine => .native routine
  | none =>
    if d.modifiers.isAbstract then .abstract
    else .interpreted (d.code.getD .empty)

/-- The method of a type that the declaration describes. -/
def build (d : MethodDecl) (declaring : TypeRef) : Method where
  declaring := declaring
  name := d.name
  modifiers := d.modifiers
  params := d.params
  returns := d.returns
  locals := d.locals
  body := d.body

end MethodDecl

end CilMachine
