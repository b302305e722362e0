import UniformScript.Source.Position
import UniformScript.Decimal.Layout

/-!
# Tokens

What a program text is made of: literals, identifiers, keywords, symbols, separators of statements,
and one token that marks the end of the text.  A token keeps its lexeme, the characters as they
were written, and the span they cover.

Keywords are case sensitive, and three of them are written as signs: `:` for negation, `&` and `|`
for conjunction and disjunction.
-/

namespace UniformScript

/-- Words and signs with a fixed meaning. -/
inductive Keyword where
  /-- Begins the binding of a new name. -/
  | push
  /-- Begins a choice. -/
  | ifWord
  /-- Stands between a head and its body. -/
  | doWord
  /-- Begins a further case of a choice. -/
  | elif
  /-- Begins the last case of a choice. -/
  | elseWord
  /-- Ends a block. -/
  | fin
  /-- Begins a counting loop. -/
  | forWord
  /-- Begins a conditional loop. -/
  | whileWord
  /-- Stands before the bound of a counting loop. -/
  | untilWord
  /-- Stands before the step of a counting loop. -/
  | inc
  /-- Begins a function. -/
  | define
  /-- The sign of negation. -/
  | negation
  /-- The sign of conjunction. -/
  | conjunction
  /-- The sign of disjunction. -/
  | disjunction
  deriving DecidableEq, Repr

namespace Keyword

/-- How the keyword is written. -/
def text : Keyword → String
  | push => "push"
  | ifWord => "if"
  | doWord => "do"
  | elif => "elif"
  | elseWord => "else"
  | fin => "fin"
  | forWord => "for"
  | whileWord => "while"
  | untilWord => "until"
  | inc => "inc"
  | define => "define"
  | negation => ":"
  | conjunction => "&"
  | disjunction => "|"

/-- The keywords written as words. -/
def words : List Keyword :=
  [push, ifWord, doWord, elif, elseWord, fin, forWord, whileWord, untilWord, inc, define]

/-- All keywords: the words and the signs. -/
def all : List Keyword := words ++ [negation, conjunction, disjunction]

/-- The keyword written as the given text. -/
def ofText? (text : String) : Option Keyword := all.find? (·.text == text)

theorem mem_all (k : Keyword) : k ∈ all := by cases k <;> decide

end Keyword

/-- Operators and delimiters. -/
inductive Symbol where
  | plus | minus | times | divide | power
  | equal | unequal | less | greater | lessEqual | greaterEqual
  | leftParen | rightParen | leftBracket | rightBracket | comma | arrow
  deriving DecidableEq, Repr

namespace Symbol

/-- How the symbol is written. -/
def text : Symbol → String
  | plus => "+"
  | minus => "-"
  | times => "*"
  | divide => "/"
  | power => "^"
  | equal => "=="
  | unequal => "!="
  | less => "<"
  | greater => ">"
  | lessEqual => "<="
  | greaterEqual => ">="
  | leftParen => "("
  | rightParen => ")"
  | leftBracket => "["
  | rightBracket => "]"
  | comma => ","
  | arrow => "=>"

/-- The name of the symbol in a listing of tokens. -/
def name : Symbol → String
  | plus => "PLUS"
  | minus => "MINUS"
  | times => "MUL"
  | divide => "DIV"
  | power => "POW"
  | equal => "EE"
  | unequal => "NE"
  | less => "LT"
  | greater => "GT"
  | lessEqual => "LTE"
  | greaterEqual => "GTE"
  | leftParen => "LPAREN"
  | rightParen => "RPAREN"
  | leftBracket => "LSQUARE"
  | rightBracket => "RSQUARE"
  | comma => "COMMA"
  | arrow => "ARROW"

end Symbol

/-- A value written down in a program. -/
inductive Literal where
  /-- A whole number below `2 ^ 63`, written without a point. -/
  | whole (n : Nat)
  /-- Any other number. -/
  | decimal (x : Float)
  /-- A text, with its escapes resolved. -/
  | text (s : String)

namespace Literal

/-- The name of the kind of literal in a listing of tokens. -/
def name : Literal → String
  | whole _ => "INT"
  | decimal _ => "FLOAT"
  | text _ => "STRING"

/-- The value in a listing of tokens: numbers without an exponent, texts as they are. -/
def written : Literal → String
  | whole n => toString n
  | decimal x => Decimal.literal.write x
  | text s => s

end Literal

/-- What a token is. -/
inductive Kind where
  /-- A literal value. -/
  | literal (l : Literal)
  /-- A name that is not a keyword. -/
  | identifier
  /-- A keyword. -/
  | keyword (k : Keyword)
  /-- An operator or a delimiter. -/
  | symbol (s : Symbol)
  /-- A line break or a semicolon, which separate statements. -/
  | separator
  /-- The end of the text. -/
  | finish

namespace Kind

/-- The name of the kind in a listing of tokens. -/
def name : Kind → String
  | literal l => l.name
  | identifier => "IDENTIFIER"
  | keyword _ => "KEYWORD"
  | symbol s => s.name
  | separator => "NEWLINE"
  | finish => "EOF"

/-- The kind as a message names it: what is fixed stands in single quotes. -/
def describe : Kind → String
  | literal l => l.name
  | identifier => "identifier"
  | keyword k => "'" ++ k.text ++ "'"
  | symbol s => "'" ++ s.text ++ "'"
  | separator => "NEWLINE"
  | finish => "EOF"

end Kind

/-- A piece of a program text. -/
structure Token where
  /-- What it is. -/
  kind : Kind
  /-- The characters as they were written. -/
  lexeme : String
  /-- The part of the text it covers. -/
  span : Span

namespace Token

/-- The line for the token in a listing: its kind, and what tells it from others of that kind. -/
def listed (t : Token) : String :=
  match t.kind with
  | .literal l => l.name ++ ":" ++ l.written
  | .identifier => "IDENTIFIER:" ++ t.lexeme
  | .keyword k => "KEYWORD:" ++ k.text
  | other => other.name

/-- The token that marks the end of a text. -/
def finishAt (p : Position) : Token := ⟨.finish, "", Span.column p⟩

end Token

end UniformScript
