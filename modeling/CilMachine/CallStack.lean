/-
CilMachine/CallStack.lean

The call stack.  A call pushes a frame and, when it is done, unwinds exactly that frame, which moves
the one value that the method returns to the frame below.  The number of method frames is bounded;
entry frames do not count.
-/
import CilMachine.Frame

namespace CilMachine

/-- The frames, top first, with the number of entry frames among them and the bound on the
others. -/
structure CallStack where
  frames : List Frame := []
  entries : Nat := 0
  limit : Nat
deriving Inhabited

namespace CallStack

/-- The stack without frames. -/
def ofLimit (limit : Nat) : CallStack := { limit }

/-- The number of frames. -/
def size (s : CallStack) : Nat := s.frames.length

/-- The number of method frames. -/
def depth (s : CallStack) : Nat := s.frames.length - s.entries

/-- Whether there are no frames. -/
def isEmpty (s : CallStack) : Bool := s.frames.isEmpty

/-- The top frame. -/
def current (s : CallStack) : Except ExecError Frame :=
  match s.frames with
  | f :: _ => .ok f
  | [] => .error .noActiveFrame

/-- Puts a frame in the place of the top frame. -/
def setCurrent (s : CallStack) (f : Frame) : CallStack :=
  match s.frames with
  | _ :: rest => { s with frames := f :: rest }
  | [] => s

/-- Pushes a value on the operand stack of the top frame, if there is one. -/
def deliver (s : CallStack) (v : Value) : CallStack :=
  match s.frames with
  | f :: rest => { s with frames := f.push v :: rest }
  | [] => s

/-- Pushes a fresh frame for a method, unless the bound is reached. -/
def push (s : CallStack) (m : Method) (arguments : List Value) : Except ExecError CallStack :=
  if s.depth < s.limit then
    let caller := s.frames.head?.bind Frame.method
    .ok { s with frames := .ofMethod caller m arguments :: s.frames }
  else .error (.stackDepthExceeded (s.depth + 1) s.limit)

/-- Pushes a fresh entry frame. -/
def pushEntry (s : CallStack) : CallStack :=
  { s with frames := .entry :: s.frames, entries := s.entries + 1 }

/-- Takes the top frame off, whatever it holds. -/
def discard (s : CallStack) : Option Frame × CallStack :=
  match s.frames with
  | [] => (none, s)
  | f :: rest =>
    (some f, { s with frames := rest, entries := if f.isEntry then s.entries - 1 else s.entries })

/-- The value that a finished frame of a method returns: exactly the one on its operand stack, or
none if the method returns none. -/
def returned (m : Method) (stack : OperandStack) : Except ExecError (Option Value) :=
  if m.returnsValue then
    match stack with
    | [] => .error (.inconsistentReturn m.fullName .noValue)
    | [v] => .ok (some v)
    | _ :: rest => .error (.inconsistentReturn m.fullName (.leftOver rest.length))
  else
    match stack with
    | [] => .ok none
    | rest => .error (.inconsistentReturn m.fullName (.leftOver rest.length))

/-- Takes the top frame off and hands its value to the frame below.  An entry frame has none.  The
frame is gone even if what it holds is not what its method returns. -/
def unwind (s : CallStack) : Except ExecError (Option Value) × CallStack :=
  match s.discard with
  | (none, s) => (.error .noActiveFrame, s)
  | (some f, s) =>
    match f.method with
    | none => (.ok none, s)
    | some m =>
      match returned m f.stack with
      | .error e => (.error e, s)
      | .ok none => (.ok none, s)
      | .ok (some v) => (.ok (some v), s.deliver v)

/-- Takes frames off until at most `size` are left. -/
def truncate (s : CallStack) (size : Nat) : CallStack :=
  go (s.size - size) s
where
  /-- Takes so many frames off. -/
  go : Nat → CallStack → CallStack
    | 0, s => s
    | n + 1, s => go n s.discard.2

end CallStack

end CilMachine
