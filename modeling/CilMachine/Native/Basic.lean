/-
CilMachine/Native/Basic.lean

Native routines: methods whose work the host does.  A routine sees the catalog, its arguments (for
an instance method the receiver first) and the heap, which it may read and change; it yields at most
one value, or fails.  A failing routine leaves the heap as it found it at that point, not as it was
at the start.
-/
import CilMachine.Catalog.Header
import CilMachine.Heap.Basic

namespace CilMachine

instance : MonadLift (Except ExecError) (Except Failure) where
  monadLift x := x.mapError .execution

instance {m : Type → Type} [Monad m] : MonadLift (Except ExecError) (ExceptT Failure m) where
  monadLift
    | .ok a => pure a
    | .error e => throw (.execution e)

/-- Computations that read and change the heap and may fail. -/
abbrev Heap.Op (α : Type) := ExceptT Failure (StateM Heap) α

/-- A routine of the host, with the name it is known by. -/
structure Native where
  name : String
  run : Headers → List Value → Heap.Op (Option Value)

instance : Inhabited Native := ⟨"", fun _ _ => pure none⟩

namespace Native

/-- Does nothing. -/
def nothing (name : String) : Native := ⟨name, fun _ _ => pure none⟩

/-- Adds a string object; the type of strings has to be there. -/
def allocString (headers : Headers) (s : String) : Heap.Op Handle := do
  if headers.contains .string then
    modifyGet fun h => h.allocString .string s
  else throw (.unresolved (.type .string))

end Native

/-- The text of a value that has to be a string object. -/
def Heap.readString (h : Heap) : Value → Except ExecError String
  | .object r => h.getString r
  | .null => .error .nullReference
  | v => .error (.heapTypeMismatch .string (.value v.kind))

/-- The receiver among the arguments of an instance method. -/
def receiver : List Value → Except ExecError Handle
  | .object r :: _ => .ok r
  | .null :: _ => .error .nullReference
  | v :: _ => .error (.heapTypeMismatch .objectReference (.value v.kind))
  | [] => .error (.argumentOutOfBounds 0 0)

end CilMachine
