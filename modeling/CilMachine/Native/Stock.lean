/-
CilMachine/Native/Stock.lean

Simple routines that a host can hang on a method: fixed answers, questions about the arguments, and
routines that allocate or fail on purpose.
-/
import CilMachine.Native.Basic

namespace CilMachine

namespace Native

/-- Always yields the same value. -/
def constant (name : String) (v : Value) : Native := ⟨name, fun _ _ => pure (some v)⟩

/-- Yields the number of arguments. -/
def argumentCount (name : String) : Native :=
  ⟨name, fun _ args => pure (some (.int32 (Int32.ofNat args.length)))⟩

/-- Yields one of the arguments. -/
def argument (name : String) (index : Nat) : Native where
  name := name
  run _ args :=
    match args[index]? with
    | some v => pure (some v)
    | none => throw (.execution (.argumentOutOfBounds index args.length))

/-- Adds the string objects `s0`, `s1`, ... and yields the last; fails if there is to be none. -/
def allocStrings (name : String) (count : Nat) : Native where
  name := name
  run headers _ := do
    let rs ← (List.range count).mapM fun i => allocString headers ("s" ++ toString i)
    match rs.getLast? with
    | some r => return some (.object r)
    | none => throw (.execution .nullReference)

/-- Adds a string object and then fails. -/
def allocThenFail (name : String) : Native where
  name := name
  run headers _ := do
    let _ ← allocString headers "lost"
    throw (.execution .nullReference)

/-- Yields a field of the receiver. -/
def receiverField (name : String) (field : String) : Native where
  name := name
  run _ args := do
    let this ← receiver args
    let v ← (← get).getField this field
    return some v

end Native

end CilMachine
