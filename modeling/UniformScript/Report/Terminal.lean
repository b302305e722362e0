import UniformScript.Report
import UniformScript.Text.Blank

/-!
# Reports for a terminal

The report of an error as a terminal shows it: the list of active calls dimmed, the kind of error
in red, an arrow in blue before the place, and the excerpt indented with its carets in red.
Without colour the text is the same with the control sequences left out.
-/

namespace UniformScript.Report

/-- How a piece of text is made to stand out. -/
inductive Style where
  /-- Dimmed. -/
  | dim
  /-- Red and bold. -/
  | red
  /-- Blue and bold. -/
  | blue

/-- The control sequence that switches a style on. -/
def Style.on : Style → String
  | dim => "\x1b[2m"
  | red => "\x1b[1;31m"
  | blue => "\x1b[1;34m"

/-- The control sequence that switches every style off. -/
def styleOff : String := "\x1b[0m"

/-- The text in a style.  Where the text itself switches styles off, the style is switched on
again, so that it holds to the end. -/
def paint (color : Bool) (style : Style) (text : String) : String :=
  if color then style.on ++ text.replace styleOff (styleOff ++ style.on) ++ styleOff else text

/-- Whether a line of an excerpt holds carets only, apart from blanks in front. -/
def isCaretRow (line : List Char) : Bool :=
  !line.isEmpty && (Text.trimStart line).all (· == '^')

/-- A line of the excerpt, indented. -/
def excerptLine (color : Bool) (line : List Char) : String :=
  let text := String.ofList line
  "  " ++ (if isCaretRow line then paint color .red text else text) ++ "\n"

/-- The report as a terminal shows it. -/
def terminal (r : Report) (color : Bool) : String :=
  let calls := if r.kind.isRuntime then paint color .dim r.traceback else ""
  calls ++ paint color .red r.kind.name ++ ": " ++ r.details ++ "\n" ++
    "  " ++ paint color .blue "-->" ++ " " ++ r.span.start.label ++ "\n" ++
    String.join ((Text.lines (Excerpt.ofSpan r.span).toList).map (excerptLine color))

end UniformScript.Report
