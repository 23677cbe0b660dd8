/-
CilMachine/Event.lean

Log events.  The machine records what happened as data; the line that a log shows for it is made
from the event.
-/
import CilMachine.Error

namespace CilMachine

/-- The levels of log lines. -/
inductive Level
  | trace | debug | warn
deriving DecidableEq, Inhabited

/-- The written form. -/
def Level.text : Level → String
  | trace => "TRACE"
  | debug => "DEBUG"
  | warn => "WARN"

/-- What can be logged.  Methods are given by their full names. -/
inductive Event
  | corelibRegistered (types : Nat)
  | executing (method : String) (offset : Nat) (mnemonic : String) (stackDepth : Nat)
  | called (method : String) (depth : Nat)
  | returned (method : String) (value : Option Value)
  | allocated (type : String) (handle : Handle)
  | stringLoaded (s : String) (handle : Handle)
  | arrayAllocated (element : TypeRef) (length : Nat) (handle : Handle)
  | failed (what : String) (failure : Failure)
deriving DecidableEq, Inhabited

namespace Event

/-- The level of an event. -/
def level : Event → Level
  | corelibRegistered _ | called _ _ | returned _ _ => .debug
  | executing _ _ _ _ | allocated _ _ | stringLoaded _ _ | arrayAllocated _ _ _ => .trace
  | failed _ _ => .warn

/-- The text of an event. -/
def message : Event → String
  | corelibRegistered types => "registered " ++ toString types ++ " corelib types"
  | executing method offset mnemonic stackDepth =>
    method ++ " " ++ Text.offsetLabel offset ++ ": " ++ mnemonic ++ " [stack " ++
      toString stackDepth ++ "]"
  | called method depth => "-> " ++ method ++ " (depth " ++ toString depth ++ ")"
  | returned method none => "<- " ++ method
  | returned method (some v) => "<- " ++ method ++ " = " ++ v.render
  | allocated type handle => "alloc " ++ type ++ " -> " ++ handle.text
  | stringLoaded s handle => "ldstr " ++ Text.quoted s ++ " -> " ++ handle.text
  | arrayAllocated element length handle =>
    "newarr " ++ element.text ++ "[" ++ toString length ++ "] -> " ++ handle.text
  | failed what failure => what ++ " failed: " ++ failure.message

/-- The log line of an event. -/
def line (e : Event) : String := e.level.text ++ " " ++ e.message

end Event

end CilMachine
