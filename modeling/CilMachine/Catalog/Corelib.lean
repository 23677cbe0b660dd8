/-
CilMachine/Catalog/Corelib.lean

The core library: the root of the hierarchy, strings with their native routines, and the primitive
value types.  Its parts are registered one after the other; where one fails, the parts before it
stay.
-/
import CilMachine.Catalog.Registration
import CilMachine.Native.Strings

namespace CilMachine

namespace Catalog

/-- Registers a native routine in place. -/
def addNative (m : MethodRef) (routine : Native) : Op Unit :=
  modify (·.registerNative m routine)

/-- The primitive value types and their flavors. -/
def primitives : List (String × Flavor) :=
  [("System.Boolean", .boolean),
    ("System.Char", .char),
    ("System.SByte", .i1),
    ("System.Byte", .u1),
    ("System.Int16", .i2),
    ("System.UInt16", .u2),
    ("System.Int32", .i4),
    ("System.UInt32", .u4),
    ("System.Int64", .i8),
    ("System.UInt64", .u8),
    ("System.Single", .r4),
    ("System.Double", .r8)]

/-- The root of the hierarchy, with a constructor that does nothing. -/
def objectDecl : TypeDecl :=
  ((TypeDecl.ofRef .object).withFlavor .object).withMethod (.constructor [])

/-- String objects: a text in one field, and three built-in methods. -/
def stringDecl : TypeDecl :=
  ((TypeDecl.ofRef .string).withFlavor .string).withField textField .string
    |>.withMethod (.constructor [.corelib "System.Char[]"])
    |>.withMethod
      { name := "Concat", modifiers := { isStatic := true }
        params := [.string, .string], returns := some .string }
    |>.withMethod { name := "get_Length", returns := some (.corelib "System.Int32") }

/-- Registers the core library. -/
def addCorelib : Op Unit := do
  addNative (.constructor .object 0) (.nothing "System.Object::.ctor")
  discard (add objectDecl)
  addNative (.constructor .string 1) .stringConstructor
  addNative ⟨.string, "Concat", 2⟩ .stringConcat
  addNative ⟨.string, "get_Length", 0⟩ .stringLength
  discard (add stringDecl)
  primitives.forM fun p =>
    discard (add ((TypeDecl.ofRef (.corelib p.1)).withFlavor p.2))

/-- The catalog that holds the core library and nothing else. -/
def withCorelib : Catalog := (addCorelib.run.run {}).2

end Catalog

end CilMachine
