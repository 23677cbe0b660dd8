/-
CilMachine/Flavor.lean

Storage flavors: what a field, a local or an array element of a type holds.  Every flavor but `void`
is a value type or a reference type, and none is both.
-/

namespace CilMachine

/-- The storage flavor of a type. -/
inductive Flavor
  | void | boolean | char
  | i1 | u1 | i2 | u2 | i4 | u4 | i8 | u8
  | r4 | r8
  | object | string | classType | valueType | array
deriving DecidableEq, Inhabited

namespace Flavor

/-- All flavors, in their customary order. -/
def all : List Flavor :=
  [void, boolean, char, i1, u1, i2, u2, i4, u4, i8, u8, r4, r8, object, string, classType,
    valueType, array]

/-- The written form. -/
def text : Flavor → String
  | void => "Void"
  | boolean => "Boolean"
  | char => "Char"
  | i1 => "I1"
  | u1 => "U1"
  | i2 => "I2"
  | u2 => "U2"
  | i4 => "I4"
  | u4 => "U4"
  | i8 => "I8"
  | u8 => "U8"
  | r4 => "R4"
  | r8 => "R8"
  | object => "Object"
  | string => "String"
  | classType => "Class"
  | valueType => "ValueType"
  | array => "Array"

/-- Reads the written form. -/
def ofText? (s : String) : Option Flavor :=
  all.find? (·.text == s)

/-- Whether values of this flavor are stored in place. -/
def isValueType : Flavor → Bool
  | boolean | char | i1 | u1 | i2 | u2 | i4 | u4 | i8 | u8 | r4 | r8 | valueType => true
  | _ => false

/-- Whether values of this flavor are handles or null. -/
def isReferenceType : Flavor → Bool
  | object | string | classType | array => true
  | _ => false

/-- Whether the flavor names one type and not a category of types. -/
def isPrimitive : Flavor → Bool
  | classType | valueType | array => false
  | _ => true

/-- Whether values of this flavor are 64-bit integers. -/
def isInt64 : Flavor → Bool
  | i8 | u8 => true
  | _ => false

/-- Whether values of this flavor are floating-point numbers. -/
def isFloat : Flavor → Bool
  | r4 | r8 => true
  | _ => false

end Flavor

end CilMachine
