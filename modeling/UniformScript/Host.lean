import UniformScript.Text.Blank

/-!
# The world around a program

A program writes lines, shows prompts, reads lines and draws random numbers.  A `Host` keeps what
has been written and shown, in order, the lines that are still to be read, and how many random
numbers have been drawn.  The lines come from a script, as they are, or from a console, where the
characters that end a line are still on it.
-/

namespace UniformScript

/-- What a program has done to the world. -/
inductive Event where
  /-- A line was written. -/
  | printed (text : String)
  /-- A prompt was shown. -/
  | prompted (text : String)
  deriving DecidableEq, Repr

/-- Where lines of input come from. -/
inductive Feed where
  /-- Lines given beforehand. -/
  | script
  /-- Lines read from a console, each with the characters that end it. -/
  | console
  deriving DecidableEq, Repr

/-- What is said when no line is left. -/
def Feed.exhausted : Feed → String
  | script => "no scripted input left"
  | console => "end of input"

/-- The text of a line: from a console, without all the line breaks at its end. -/
def Feed.text (feed : Feed) (line : String) : String :=
  match feed with
  | script => line
  | console =>
    String.ofList ((line.toList.reverse.dropWhile fun c => c == '\n' || c == '\r').reverse)

/-- The world around a program. -/
structure Host where
  /-- What has been written and shown. -/
  log : Array Event
  /-- Where the lines of input come from. -/
  feed : Feed
  /-- The lines still to be read. -/
  input : List String
  /-- How many random numbers have been drawn. -/
  drawn : Nat
  /-- The random numbers, by the order in which they are drawn. -/
  randoms : Nat → Float

namespace Host

/-- A world in which nothing has happened. -/
def start (feed : Feed) (input : List String) (randoms : Nat → Float) : Host :=
  ⟨#[], feed, input, 0, randoms⟩

/-- Random numbers given beforehand, and one half when none is left. -/
def listed (numbers : List Float) (k : Nat) : Float := numbers.getD k 0.5

/-- Writes a line. -/
def print (h : Host) (text : String) : Host := { h with log := h.log.push (.printed text) }

/-- Shows a prompt and reads a line, if one is left. -/
def capture (h : Host) (prompt : String) : Option String × Host :=
  let shown := { h with log := h.log.push (.prompted prompt) }
  match h.input with
  | [] => (none, shown)
  | line :: rest => (some (h.feed.text line), { shown with input := rest })

/-- Draws a random number. -/
def random (h : Host) : Float × Host := (h.randoms h.drawn, { h with drawn := h.drawn + 1 })

/-- The lines among some events. -/
def printed (events : List Event) : List String :=
  events.filterMap fun
    | .printed text => some text
    | .prompted _ => none

/-- The prompts among some events. -/
def prompted (events : List Event) : List String :=
  events.filterMap fun
    | .prompted text => some text
    | .printed _ => none

end Host

end UniformScript
