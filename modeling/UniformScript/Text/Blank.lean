/-!
# Blank characters

The characters with the Unicode property White_Space, and the trimming and line splitting that
go by them.  There are twenty-five such characters.
-/

namespace UniformScript.Text

/-! ## Blanks and trimming -/

/-- The characters with the Unicode property White_Space: five controls and the space, then the
next-line control, and the blanks outside Latin script. -/
def isBlank (c : Char) : Bool :=
  let n := c.toNat
  (9 ≤ n && n ≤ 13) || n == 0x20 || n == 0x85 || n == 0xA0 || n == 0x1680 ||
    (0x2000 ≤ n && n ≤ 0x200A) || n == 0x2028 || n == 0x2029 || n == 0x202F || n == 0x205F ||
    n == 0x3000

/-- The text without the blanks in front. -/
def trimStart (cs : List Char) : List Char := cs.dropWhile isBlank

/-- The text without the blanks behind. -/
def trimEnd (cs : List Char) : List Char := (cs.reverse.dropWhile isBlank).reverse

/-- The text without the blanks at both ends. -/
def trim (cs : List Char) : List Char := trimEnd (trimStart cs)

/-- Whether a text holds nothing but blanks. -/
def isBlankText (text : String) : Bool := text.toList.all isBlank

/-! ## Lines -/

/-- The lines of a text with their line breaks kept; the last one may lack it. -/
def linesWithBreaks : List Char → List (List Char)
  | [] => []
  | c :: cs =>
    if c = '\n' then ['\n'] :: linesWithBreaks cs
    else match linesWithBreaks cs with
      | [] => [[c]]
      | line :: rest => (c :: line) :: rest

/-- A line without the break that ends it: a line feed, or a carriage return and a line feed. -/
def withoutBreak (line : List Char) : List Char :=
  match line.reverse with
  | '\n' :: '\r' :: rest => rest.reverse
  | '\n' :: rest => rest.reverse
  | _ => line

/-- The lines of a text, without their breaks. -/
def lines (cs : List Char) : List (List Char) := (linesWithBreaks cs).map withoutBreak

end UniformScript.Text
