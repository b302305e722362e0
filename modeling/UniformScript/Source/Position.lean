/-!
# Positions and spans in a source text

A `Source` is a text together with the name it is reported under.  A `Position`
points between two characters of a source and keeps three counts at once: the
characters before it, the line breaks before it, and the characters since the
last line break.  All three start at zero; a reader is shown lines and columns
starting at one (`Position.label`).

A `Span` is what a token, a node of a tree or an error covers: from one position
to another.

* `advanceOver_append`: passing one run of characters and then another is passing both together.
* `index_advance` and `source_advance`: every step counts one character and stays in the source.
-/

namespace UniformScript

/-- A text and the name under which reports mention it. -/
structure Source where
  /-- The name shown in reports: a file name, or a tag such as `<stdin>`. -/
  name : String
  /-- The whole text. -/
  text : String
  deriving DecidableEq, Repr, Inhabited

/-- A place in a source: the number of characters, and of lines and columns, before it. -/
structure Position where
  /-- The source pointed into. -/
  source : Source
  /-- Characters before this place. -/
  index : Nat
  /-- Line breaks before this place. -/
  line : Nat
  /-- Characters between the last line break and this place. -/
  column : Nat
  deriving DecidableEq, Repr, Inhabited

namespace Position

/-- The place before the first character. -/
def start (source : Source) : Position := ⟨source, 0, 0, 0⟩

/-- The place one step on, after the given character; a step with no character is a step past
the end of the text, and stays on the line. -/
def advance (p : Position) (passed : Option Char) : Position :=
  if passed = some '\n' then ⟨p.source, p.index + 1, p.line + 1, 0⟩
  else ⟨p.source, p.index + 1, p.line, p.column + 1⟩

/-- The place after a run of characters. -/
def advanceOver (p : Position) (passed : List Char) : Position :=
  passed.foldl (fun q c => q.advance (some c)) p

/-- How a report writes the place: name, line and column, the last two counted from one. -/
def label (p : Position) : String :=
  p.source.name ++ ":" ++ toString (p.line + 1) ++ ":" ++ toString (p.column + 1)

theorem advanceOver_cons (p : Position) (c : Char) (cs : List Char) :
    p.advanceOver (c :: cs) = (p.advance (some c)).advanceOver cs := rfl

theorem advanceOver_append (p : Position) (cs ds : List Char) :
    p.advanceOver (cs ++ ds) = (p.advanceOver cs).advanceOver ds :=
  List.foldl_append

theorem index_advance (p : Position) (c : Option Char) : (p.advance c).index = p.index + 1 := by
  unfold advance; split <;> rfl

theorem index_advanceOver (p : Position) (cs : List Char) :
    (p.advanceOver cs).index = p.index + cs.length := by
  induction cs generalizing p with
  | nil => rfl
  | cons c cs ih => rw [advanceOver_cons, ih, index_advance, List.length_cons]; omega

theorem source_advance (p : Position) (c : Option Char) : (p.advance c).source = p.source := by
  unfold advance; split <;> rfl

end Position

/-- The part of a source between two positions. -/
structure Span where
  /-- Where the part begins. -/
  start : Position
  /-- Where the part ends: the place after its last character. -/
  stop : Position
  deriving DecidableEq, Repr, Inhabited

namespace Span

/-- From the start of one span to the end of another. -/
def through (a b : Span) : Span := ⟨a.start, b.stop⟩

/-- One column at a position, as reported for a place that holds no character. -/
def column (p : Position) : Span := ⟨p, p.advance none⟩

end Span

/-- A cause of failure and the part of the source it is about. -/
structure Located (Cause : Type) where
  /-- Why. -/
  cause : Cause
  /-- Where. -/
  span : Span

end UniformScript
