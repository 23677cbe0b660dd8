/-
CilMachine/Heap/Object.lean

What the heap holds.  A record is an object of a class with its fields by name, an array holds
either values or slots for handles.  Objects name their type; what the type is like is for the
catalog to say.
-/
import CilMachine.Error
import CilMachine.Named

namespace CilMachine

/-- The fields of a record. -/
abbrev Fields := Named Value

/-- The storage of an array. -/
inductive Storage
  | values (items : Array Value)
  | references (slots : Array (Option Handle))
deriving DecidableEq, Inhabited

namespace Storage

/-- The number of elements. -/
def size : Storage → Nat
  | values items => items.size
  | references slots => slots.size

/-- The shape of the array. -/
def shape : Storage → Shape
  | values _ => .valueArray
  | references _ => .referenceArray

end Storage

/-- An object on the heap. -/
inductive HeapObject
  | record (type : TypeRef) (fields : Fields)
  | array (element : TypeRef) (storage : Storage)
deriving DecidableEq, Inhabited

namespace HeapObject

/-- The shape of an object. -/
def shape : HeapObject → Shape
  | record _ _ => .record
  | array _ storage => storage.shape

/-- The type of a record. -/
def type? : HeapObject → Option TypeRef
  | record type _ => some type
  | array _ _ => none

/-- The written form: the type's name and the number of fields or elements. -/
def text : HeapObject → String
  | record type fields => type.name ++ "\x7b" ++ toString fields.length ++ " fields\x7d"
  | array element storage => element.name ++ "[" ++ toString storage.size ++ "]"

/-- The error of an access that expects another shape. -/
def mismatch (o : HeapObject) (expected : Shape) : ExecError :=
  .heapTypeMismatch expected o.shape

end HeapObject

end CilMachine
