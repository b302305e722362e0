import UniformScript.Source.Position

/-!
# Excerpts with carets

An excerpt repeats every source line that a span touches and draws carets under the part that
is covered.  A line on which nothing is covered still gets one caret, so that a span of no width
stays visible.  Tab characters are left out of the finished excerpt.
-/

namespace UniformScript.Excerpt

/-! ## Lines -/

/-- The lines of a text: its pieces between line breaks, at least one. -/
def rows : List Char → List (List Char)
  | [] => [[]]
  | c :: cs =>
    if c = '\n' then [] :: rows cs
    else match rows cs with
      | [] => [[c]]
      | row :: rest => (c :: row) :: rest

theorem rows_ne_nil (cs : List Char) : rows cs ≠ [] := by
  cases cs with
  | nil => simp [rows]
  | cons c cs =>
    rw [rows]
    split
    · simp
    · split <;> simp

/-! ## Carets -/

/-- The caret row under a line of which the columns from `first` to `last` are covered. -/
def caretRow (first last : Nat) : List Char :=
  List.replicate first ' ' ++ List.replicate (max 1 (last - first)) '^'

/-- The covered columns of the row numbered `line` and `width` characters long: from the start's
column on the first row, up to the end's column on the last one, and all between. -/
def covered (start stop : Position) (line width : Nat) : Nat × Nat :=
  (if line = start.line then start.column else 0,
   if line = max stop.line start.line then stop.column else width)

/-- A source row and its caret row. -/
def annotate (start stop : Position) (line : Nat) (row : List Char) : List (List Char) :=
  let (first, last) := covered start stop line row.length
  [row, caretRow first last]

/-- The annotated rows from row `line` on, for as many rows as `count` allows and `rows` holds. -/
def annotateFrom (start stop : Position) (line count : Nat) (rows : List (List Char)) :
    List (List Char) :=
  match count, rows with
  | count + 1, row :: rest =>
    annotate start stop line row ++ annotateFrom start stop (line + 1) count rest
  | _, _ => []

/-- The rows of `text` from the start's line to the end's line, each followed by its carets and
without tab characters. -/
def lines (text : List Char) (start stop : Position) : List (List Char) :=
  let count := max stop.line start.line + 1 - start.line
  (annotateFrom start stop start.line count ((rows text).drop start.line)).map
    (·.filter (· ≠ '\t'))

/-- The excerpt of `text` between two positions. -/
def draw (text : String) (start stop : Position) : String :=
  String.intercalate "\n" ((lines text.toList start stop).map String.ofList)

/-- The excerpt that shows a span in its own source. -/
def ofSpan (span : Span) : String := draw span.start.source.text span.start span.stop

end UniformScript.Excerpt
