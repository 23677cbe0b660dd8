/-
CilMachine/Stats.lean

Counters of what the machine has done.
-/

namespace CilMachine

/-- Counters of executed instructions, calls, native calls and allocations, and the greatest call
depth.  The numbers are exact, where counters of 64 bits would show them modulo 2 ^ 64; the machine
reads none of them, so nothing but the number that is shown depends on that. -/
structure Stats where
  instructions : Nat := 0
  calls : Nat := 0
  nativeCalls : Nat := 0
  allocations : Nat := 0
  maxDepth : Nat := 0
deriving DecidableEq, Inhabited

/-- The written form. -/
def Stats.text (s : Stats) : String :=
  toString s.instructions ++ " instructions, " ++ toString s.calls ++ " calls (" ++
    toString s.nativeCalls ++ " native), " ++ toString s.allocations ++
    " allocations, max depth " ++ toString s.maxDepth

end CilMachine
