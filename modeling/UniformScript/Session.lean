import UniformScript.Failure
import UniformScript.Eval.Evaluate

/-!
# Sessions

A session runs one source after the other; what one of them binds in the global frame, the next
ones find there.  The answer to a source is the list of the values of its statements, or the
failure that stopped it; what was bound and written before the failure stays.  A source of blanks
is not run.

After every run the frames that nothing reaches are freed, where the values of the answer still
count as reaching theirs, and so do the values of earlier answers that someone has kept.
-/

namespace UniformScript

/-- The names that are bound before the first program runs. -/
def globals : Bindings :=
  [("null", .null), ("false", .truth false), ("true", .truth true), ("pi", .pi)] ++
    Builtin.all.map fun b => (b.name, .builtin b)

/-- Frames and world between runs, and how many programs have been run. -/
structure Session where
  /-- The frames and the world. -/
  machine : Eval.Machine
  /-- The number of programs run so far. -/
  runs : Nat

/-- What a session answers to a source. -/
inductive Answer where
  /-- The source holds nothing but blanks. -/
  | blank
  /-- The values of the statements. -/
  | values (vs : List Value)
  /-- What stopped the program. -/
  | failed (failure : Failure)

/-- Why a session gives no answer. -/
inductive Stop where
  /-- The bound on the depth of evaluation was met. -/
  | exhausted
  /-- The arena was misused. -/
  | faulted (fault : Fault)
  deriving DecidableEq, Repr, Inhabited

/-- The values that an answer keeps. -/
def Answer.held : Answer → List Value
  | .values vs => vs
  | _ => []

namespace Session

/-- A session in a world, with the global names only. -/
def start (reclaiming : Bool) (host : Host) : Session :=
  ⟨⟨Arena.start reclaiming globals, host⟩, 0⟩

/-- The session with other frames. -/
def withArena (s : Session) (arena : Arena) : Session := ⟨⟨arena, s.machine.host⟩, s.runs⟩

/-- Frees the frames that neither the global frame nor the given values reach. -/
def collect (s : Session) (held : List Value) : Except Stop Session :=
  match s.machine.arena.collect (Value.handlesAll held) with
  | .ok arena => .ok (s.withArena arena)
  | .error fault => .error (.faulted fault)

/-- Evaluates a program's statements in the global frame, while values of earlier answers are kept.
-/
def evaluateKeeping (s : Session) (kept : List Value) (fuel : Nat) (p : Program) :
    Except Stop (Answer × Session) :=
  match Eval.evalAll fuel ((Eval.Context.root s.runs).holdingAll kept) p.statements s.machine with
  | .value vs m => .ok (.values vs, ⟨m, s.runs + 1⟩)
  | .raised failure m => .ok (.failed (.runtime failure), ⟨m, s.runs + 1⟩)
  | .faulted fault => .error (.faulted fault)
  | .exhausted => .error .exhausted

/-- Runs a source, while values of earlier answers are kept. -/
def runKeeping (s : Session) (kept : List Value) (fuel : Nat) (source : Source) :
    Except Stop (Answer × Session) :=
  if Text.isBlankText source.text then .ok (.blank, s)
  else
    match Program.read source with
    | .error failure => .ok (.failed failure, s)
    | .ok p => do
      let (answer, s) ← s.evaluateKeeping kept fuel p
      let s ← s.collect (answer.held ++ kept)
      return (answer, s)

/-- Evaluates a program's statements in the global frame. -/
def evaluate (s : Session) (fuel : Nat) (p : Program) : Except Stop (Answer × Session) :=
  s.evaluateKeeping [] fuel p

/-- Runs a source. -/
def run (s : Session) (fuel : Nat) (source : Source) : Except Stop (Answer × Session) :=
  s.runKeeping [] fuel source

/-- The value of a global name. -/
def get (s : Session) (name : String) : Option Value :=
  match s.machine.arena.get 0 name with
  | .ok found => found
  | .error _ => none

/-- Whether two global names have equal values, or are both unbound. -/
def sameBinding (s : Session) (name other : String) : Bool :=
  match s.get name, s.get other with
  | some v, some w => v.same w
  | none, none => true
  | _, _ => false

/-- How many frames there are. -/
def liveFrames (s : Session) : Nat := s.machine.arena.liveCount

/-- What has been written and shown so far. -/
def log (s : Session) : List Event := s.machine.host.log.toList

end Session

end UniformScript
