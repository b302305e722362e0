import UniformScript.Source.Excerpt

/-!
# Reports of errors

A report says what kind of error happened, in what words, and on which part of which source.  A
report of an error at run time also knows the calls that were active, and lists them from the
outermost to the innermost (`Report.traceback`).  The location of a line of that list is where the
next inner call was entered; on the last line it is where the error is.
-/

namespace UniformScript

/-- What can go wrong while a program runs. -/
inductive RuntimeKind where
  /-- A name without a binding. -/
  | undefinedVariable
  /-- An operation on values it is not made for. -/
  | illegalOperation
  /-- A division by zero. -/
  | divisionByZero
  /-- A call with too many or too few arguments. -/
  | arityMismatch
  /-- A call of a value that is no function. -/
  | notCallable
  /-- No more input. -/
  | input
  deriving DecidableEq, Repr

/-- What can go wrong. -/
inductive ErrorKind where
  /-- A character that begins no token. -/
  | illegalCharacter
  /-- A token that is begun and not finished. -/
  | expectedCharacter
  /-- Tokens that make no program. -/
  | invalidSyntax
  /-- An error while the program runs. -/
  | runtime (kind : RuntimeKind)
  deriving DecidableEq, Repr

/-- The name of the kind at the head of a report. -/
def ErrorKind.name : ErrorKind → String
  | illegalCharacter => "Illegal Character"
  | expectedCharacter => "Expected Character"
  | invalidSyntax => "Invalid Syntax"
  | runtime _ => "Runtime Error"

/-- Whether the error happened while the program ran. -/
def ErrorKind.isRuntime : ErrorKind → Bool
  | runtime _ => true
  | _ => false

/-- A call that is active: the function's name and where the call was entered, if that is known. -/
structure Activation where
  /-- The name of the called function. -/
  name : String
  /-- The place of the call in its caller. -/
  entry : Option Position
  deriving DecidableEq, Repr

/-- What is told about an error. -/
structure Report where
  /-- What went wrong. -/
  kind : ErrorKind
  /-- The message. -/
  details : String
  /-- The part of the source the error is about. -/
  span : Span
  /-- The calls active at the time, the innermost first. -/
  calls : List Activation

namespace Report

/-- The name of the program itself among the active calls. -/
def programName : String := "<program>"

/-- A line of the list of calls. -/
def callLine (name : String) (place : Option Position) : String :=
  match place with
  | some p =>
    "  File " ++ p.source.name ++ ", line " ++ toString (p.line + 1) ++ ", in " ++ name ++ "\n"
  | none => "  File <unknown>, in " ++ name ++ "\n"

/-- The lines for the given calls and the program around them, the innermost first, when the
innermost has got to `place`. -/
def callLines (place : Option Position) : List Activation → List String
  | [] => [callLine programName place]
  | call :: outer => callLine call.name place :: callLines call.entry outer

/-- The list of the active calls, the outermost first; empty unless the program was running. -/
def traceback (r : Report) : String :=
  if r.kind.isRuntime then
    "Traceback (most recent call last):\n" ++
      String.join (callLines (some r.span.start) r.calls).reverse
  else ""

/-- The kind and the message. -/
def header (r : Report) : String := r.kind.name ++ ": " ++ r.details

/-- The report as plain text: for an error at run time the active calls and the header, for any
other the header and its place; then the excerpt. -/
def plain (r : Report) : String :=
  let head :=
    if r.kind.isRuntime then r.traceback ++ r.header ++ "\n"
    else
      r.header ++ "\n" ++ "File " ++ r.span.start.source.name ++ ", line " ++
        toString (r.span.start.line + 1) ++ "\n"
  head ++ "\n" ++ Excerpt.ofSpan r.span

end Report

end UniformScript
