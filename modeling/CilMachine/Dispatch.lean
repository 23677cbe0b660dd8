/-
CilMachine/Dispatch.lean

Virtual dispatch.  Which method a virtual call reaches depends on the runtime type of the receiver
and on the name of the declared method.  An answer is kept, and given again without asking the
catalog.
-/
import CilMachine.Catalog.Hierarchy

namespace CilMachine

/-- The answers given so far, by runtime type and method name. -/
structure Dispatch where
  known : List ((TypeRef × String) × Method) := []
deriving Inhabited

namespace Dispatch

/-- The number of answers kept. -/
def size (d : Dispatch) : Nat := d.known.length

/-- The method that a virtual call reaches according to the catalog alone. -/
def target (c : Catalog) (declared : Method) (runtime : TypeRef) : Except ExecError Method := do
  match ← c.findOverride runtime declared.name with
  | some m => .ok m
  | none => .error (.unresolved (.virtualOverride declared.ref runtime))

/-- The method that a virtual call reaches, and the answers kept afterwards. -/
def resolve (d : Dispatch) (c : Catalog) (declared : Method) (runtime : TypeRef) :
    Except ExecError (Method × Dispatch) :=
  match d.known.lookup (runtime, declared.name) with
  | some m => .ok (m, d)
  | none =>
    (target c declared runtime).map fun m => (m, ⟨((runtime, declared.name), m) :: d.known⟩)

end Dispatch

end CilMachine
