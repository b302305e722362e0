import UniformScript.Token

/-!
# The longest lexeme at the start of a text

`munch` takes the longest piece at the start of a text that is a blank, a separator, an operator or
delimiter, a word, a number or a quoted text, and says what it is.  A number has at most one point,
and the point needs no digits behind it.  Where no piece begins, the answer is the cause.

* `lexeme_append_rest_of_munch`: a piece and the text behind it make up the whole text, so that no
  character is lost or counted twice.
* `lexeme_ne_nil_of_munch`: a piece has at least one character, so that taking pieces comes to an
  end.
-/

namespace UniformScript.Token

/-! ## Causes -/

/-- Why no piece begins at a place. -/
inductive LexicalCause where
  /-- A character that begins no piece. -/
  | illegalCharacter (c : Char)
  /-- A lone equals sign. -/
  | loneEqual
  /-- A lone exclamation mark. -/
  | loneBang
  /-- A quote that is never closed. -/
  | unclosedQuote
  deriving DecidableEq, Repr

/-- What the message says about the cause: the character met, or those expected. -/
def LexicalCause.message : LexicalCause → String
  | illegalCharacter c => "'" ++ c.toString ++ "'"
  | loneEqual => "'>' or '=' (after '=')"
  | loneBang => "'=' (after '!')"
  | unclosedQuote => "'\"'"

/-! ## Pieces -/

/-- A piece at the start of a text. -/
structure Munch where
  /-- What the piece is; a blank is no token. -/
  kind : Option Kind
  /-- The characters of the piece. -/
  lexeme : List Char
  /-- The text behind the piece. -/
  rest : List Char

/-- The blanks between tokens. -/
def isBlank (c : Char) : Bool := c == ' ' || c == '\r' || c == '\t'

/-- What a word is: a keyword if it is written like one. -/
def wordKind (word : List Char) : Kind :=
  match Keyword.ofText? (String.ofList word) with
  | some k => .keyword k
  | none => .identifier

/-- The longest word: letters and digits. -/
def munchWord (cs : List Char) : Munch :=
  let word := cs.takeWhile Char.isAlphanum
  ⟨some (wordKind word), word, cs.dropWhile Char.isAlphanum⟩

/-- A number without a point: a whole number if it is small enough. -/
def wholeLiteral (digits : List Char) : Literal :=
  let n := Decimal.digitsValue digits
  if n < Decimal.twoTo 63 then .whole n else .decimal (Decimal.ofDigits digits [])

/-- The longest number: digits, and if a point follows, that point and the digits behind it. -/
def munchNumber (cs : List Char) : Munch :=
  let whole := cs.takeWhile Char.isDigit
  match cs.dropWhile Char.isDigit with
  | '.' :: behind =>
    let fraction := behind.takeWhile Char.isDigit
    ⟨some (.literal (.decimal (Decimal.ofDigits whole fraction))), whole ++ '.' :: fraction,
      behind.dropWhile Char.isDigit⟩
  | rest => ⟨some (.literal (wholeLiteral whole)), whole, rest⟩

/-! ## Quoted texts -/

/-- The character that a backslash and `c` stand for. -/
def unescape (c : Char) : Char :=
  if c = 'n' then '\n' else if c = 't' then '\t' else c

/-- What follows an opening quote. -/
structure Quoted where
  /-- The text up to the closing quote, with its escapes resolved. -/
  value : List Char
  /-- The characters up to the closing quote and the quote itself. -/
  lexeme : List Char
  /-- The text behind the closing quote. -/
  rest : List Char

/-- The same with one more character in front, written as `lexeme`. -/
def Quoted.behind (c : Char) (lexeme : List Char) (q : Quoted) : Quoted :=
  ⟨c :: q.value, lexeme ++ q.lexeme, q.rest⟩

/-- Reads up to the closing quote; a backslash takes the next character along. -/
def Quoted.read : List Char → Option Quoted
  | [] => none
  | '"' :: rest => some ⟨[], ['"'], rest⟩
  | '\\' :: [] => none
  | '\\' :: c :: cs => (Quoted.read cs).map (Quoted.behind (unescape c) ['\\', c])
  | c :: cs => (Quoted.read cs).map (Quoted.behind c [c])

/-- A quoted text, behind its opening quote. -/
def munchQuoted (cs : List Char) : Except LexicalCause Munch :=
  match Quoted.read cs with
  | some q => .ok ⟨some (.literal (.text (String.ofList q.value))), '"' :: q.lexeme, q.rest⟩
  | none => .error .unclosedQuote

/-! ## Signs -/

/-- The separators, operators and delimiters with their lexemes, the longer ones first. -/
def signs : List (List Char × Kind) :=
  [(['=', '>'], .symbol .arrow), (['=', '='], .symbol .equal), (['!', '='], .symbol .unequal),
    (['<', '='], .symbol .lessEqual), (['>', '='], .symbol .greaterEqual),
    (['\n'], .separator), ([';'], .separator), (['+'], .symbol .plus), (['-'], .symbol .minus),
    (['*'], .symbol .times), (['/'], .symbol .divide), (['^'], .symbol .power),
    (['<'], .symbol .less), (['>'], .symbol .greater), (['('], .symbol .leftParen),
    ([')'], .symbol .rightParen), (['['], .symbol .leftBracket), ([']'], .symbol .rightBracket),
    ([','], .symbol .comma), ([':'], .keyword .negation), (['&'], .keyword .conjunction),
    (['|'], .keyword .disjunction)]

/-- Why no sign begins with the given character. -/
def signCause (c : Char) : LexicalCause :=
  if c = '=' then .loneEqual else if c = '!' then .loneBang else .illegalCharacter c

/-- A separator, operator or delimiter; where two fit, the longer. -/
def munchSign (c : Char) (cs : List Char) : Except LexicalCause Munch :=
  match signs.find? fun sign => sign.1.isPrefixOf (c :: cs) with
  | some (lexeme, kind) => .ok ⟨some kind, lexeme, (c :: cs).drop lexeme.length⟩
  | none => .error (signCause c)

/-- The longest piece at the start of the text `c :: cs`. -/
def munch (c : Char) (cs : List Char) : Except LexicalCause Munch :=
  if isBlank c then .ok ⟨none, [c], cs⟩
  else if c.isAlpha then .ok (munchWord (c :: cs))
  else if c.isDigit then .ok (munchNumber (c :: cs))
  else if c = '"' then munchQuoted cs
  else munchSign c cs

/-! ## Nothing is lost -/

theorem lexeme_append_rest_munchWord (cs : List Char) :
    (munchWord cs).lexeme ++ (munchWord cs).rest = cs :=
  List.takeWhile_append_dropWhile

theorem lexeme_append_rest_munchNumber (cs : List Char) :
    (munchNumber cs).lexeme ++ (munchNumber cs).rest = cs := by
  have whole := List.takeWhile_append_dropWhile (p := Char.isDigit) (l := cs)
  unfold munchNumber
  split
  · rename_i behind h
    have fraction := List.takeWhile_append_dropWhile (p := Char.isDigit) (l := behind)
    rw [h] at whole
    simpa [List.append_assoc, fraction] using whole
  · exact whole

theorem Quoted.lexeme_append_rest_of_read {cs : List Char} {q : Quoted}
    (h : Quoted.read cs = some q) : q.lexeme ++ q.rest = cs := by
  induction cs using Quoted.read.induct generalizing q with
  | case1 => simp [Quoted.read] at h
  | case2 rest =>
    simp only [Quoted.read, Option.some.injEq] at h
    subst h
    rfl
  | case3 => simp [Quoted.read] at h
  | case4 c cs ih =>
    simp only [Quoted.read, Option.map_eq_some_iff] at h
    obtain ⟨r, hr, rfl⟩ := h
    simp [Quoted.behind, ih hr]
  | case5 c cs h₁ h₂ h₃ ih =>
    rw [Quoted.read] at h
    · simp only [Option.map_eq_some_iff] at h
      obtain ⟨r, hr, rfl⟩ := h
      simp [Quoted.behind, ih hr]
    all_goals assumption

theorem lexeme_append_rest_of_munchQuoted {cs : List Char} {p : Munch}
    (h : munchQuoted cs = .ok p) : p.lexeme ++ p.rest = '"' :: cs := by
  unfold munchQuoted at h
  split at h
  · rename_i q hq
    simp only [Except.ok.injEq] at h
    subst h
    simp [Quoted.lexeme_append_rest_of_read hq]
  · cases h

theorem lexeme_append_rest_of_munchSign {c : Char} {cs : List Char} {p : Munch}
    (h : munchSign c cs = .ok p) : p.lexeme ++ p.rest = c :: cs := by
  unfold munchSign at h
  split at h
  · rename_i lexeme kind hfind
    cases h
    have found := List.find?_some hfind
    obtain ⟨rest, hrest⟩ := List.isPrefixOf_iff_prefix.1 found
    rw [← hrest, List.drop_left]
  · cases h

/-- A piece and the text behind it make up the whole text. -/
theorem lexeme_append_rest_of_munch {c : Char} {cs : List Char} {p : Munch}
    (h : munch c cs = .ok p) : p.lexeme ++ p.rest = c :: cs := by
  unfold munch at h
  split at h
  · cases h; rfl
  split at h
  · cases h; exact lexeme_append_rest_munchWord _
  split at h
  · cases h; exact lexeme_append_rest_munchNumber _
  split at h
  · rename_i hc
    subst hc
    exact lexeme_append_rest_of_munchQuoted h
  · exact lexeme_append_rest_of_munchSign h

/-! ## No piece is empty -/

theorem lexeme_ne_nil_of_munchSign {c : Char} {cs : List Char} {p : Munch}
    (h : munchSign c cs = .ok p) : p.lexeme ≠ [] := by
  unfold munchSign at h
  split at h
  · rename_i lexeme kind hfind
    cases h
    have hall : ∀ sign ∈ signs, sign.1 ≠ [] := by decide
    exact hall _ (List.mem_of_find?_eq_some hfind)
  · cases h

/-- A piece has at least one character. -/
theorem lexeme_ne_nil_of_munch {c : Char} {cs : List Char} {p : Munch}
    (h : munch c cs = .ok p) : p.lexeme ≠ [] := by
  unfold munch at h
  split at h
  · cases h; simp
  split at h
  · rename_i hc
    cases h
    simp [munchWord, Char.isAlphanum, hc]
  split at h
  · rename_i hc
    cases h
    unfold munchNumber
    split <;> simp [hc]
  split at h
  · unfold munchQuoted at h
    split at h
    · cases h; simp
    · cases h
  · exact lexeme_ne_nil_of_munchSign h

end UniformScript.Token
