/-
CilMachine/Config.lean

Limits and tracing switches.
-/

namespace CilMachine

/-- Which events are logged. -/
structure Tracing where
  instructions : Bool := false
  calls : Bool := false
  heap : Bool := false
deriving DecidableEq, Inhabited

namespace Tracing

/-- Everything is logged. -/
def all : Tracing := ⟨true, true, true⟩

/-- Whether anything is logged. -/
def isEnabled (t : Tracing) : Bool := t.instructions || t.calls || t.heap

end Tracing

/-- The greatest call depth unless another is asked for. -/
def defaultMaxCallDepth : Nat := 25

/-- The settings of a process. -/
structure Config where
  maxCallDepth : Nat := defaultMaxCallDepth
  tracing : Tracing := {}
deriving DecidableEq, Inhabited

namespace Config

/-- The usual depth and no tracing. -/
def minimal : Config := {}

/-- The usual depth and full tracing. -/
def debug : Config := { tracing := .all }

end Config

end CilMachine
