import UniformScript.Token

/-!
# Expressions

The tree of a program.  Everything in the language is an expression and has a value; a program is a
sequence of them.  Every node carries the span of the tokens it was made from, which only reports
look at.

A body stands behind the head of a choice, a loop or a function.  It is either one expression on
the same line, or a block of statements on lines of their own.
-/

namespace UniformScript

/-- Signs in front of one operand. -/
inductive UnaryOp where
  | plus | minus | negation
  deriving DecidableEq, Repr

/-- How the operator is written. -/
def UnaryOp.text : UnaryOp → String
  | plus => "+"
  | minus => "-"
  | negation => ":"

/-- Operators between two operands. -/
inductive BinaryOp where
  | add | subtract | multiply | divide | power
  | equal | unequal | less | greater | lessEqual | greaterEqual
  | conjunction | disjunction
  deriving DecidableEq, Repr

namespace BinaryOp

/-- How the operator is written. -/
def text : BinaryOp → String
  | add => "+"
  | subtract => "-"
  | multiply => "*"
  | divide => "/"
  | power => "^"
  | equal => "=="
  | unequal => "!="
  | less => "<"
  | greater => ">"
  | lessEqual => "<="
  | greaterEqual => ">="
  | conjunction => "&"
  | disjunction => "|"

/-- The operator that a kind of token stands for. -/
def ofKind? : Kind → Option BinaryOp
  | .symbol .plus => some add
  | .symbol .minus => some subtract
  | .symbol .times => some multiply
  | .symbol .divide => some divide
  | .symbol .power => some power
  | .symbol .equal => some equal
  | .symbol .unequal => some unequal
  | .symbol .less => some less
  | .symbol .greater => some greater
  | .symbol .lessEqual => some lessEqual
  | .symbol .greaterEqual => some greaterEqual
  | .keyword .conjunction => some conjunction
  | .keyword .disjunction => some disjunction
  | _ => none

end BinaryOp

mutual

/-- An expression. -/
inductive Expr where
  /-- A number, with the characters it was written in. -/
  | number (span : Span) (lexeme : String) (value : Float)
  /-- A text. -/
  | text (span : Span) (value : String)
  /-- A list of the values of its elements. -/
  | list (span : Span) (elements : List Expr)
  /-- The value bound to a name. -/
  | access (span : Span) (name : String)
  /-- Binds a name in the running frame. -/
  | bind (span : Span) (name : String) (value : Expr)
  /-- Gives a bound name another value. -/
  | rebind (span : Span) (name : String) (value : Expr)
  /-- An operator in front of an operand. -/
  | unary (span : Span) (op : UnaryOp) (operand : Expr)
  /-- An operator between two operands. -/
  | binary (span : Span) (op : BinaryOp) (left right : Expr)
  /-- A choice: a first case and the branches behind it. -/
  | choice (span : Span) (condition : Expr) (body : Body) (rest : Branches)
  /-- A counting loop over `name`, from `first` up or down to `bound`, by `step` or one. -/
  | forLoop (span : Span) (name : String) (first bound : Expr) (step : Option Expr) (body : Body)
  /-- A loop that runs as long as its condition holds. -/
  | whileLoop (span : Span) (condition : Expr) (body : Body)
  /-- A function, which need not have a name. -/
  | function (span : Span) (name : Option String) (params : List String) (body : Body)
  /-- A call. -/
  | call (span : Span) (callee : Expr) (args : List Expr)

/-- What stands behind the head of a choice, a loop or a function. -/
inductive Body where
  /-- One expression. -/
  | inline (value : Expr)
  /-- Statements on lines of their own. -/
  | block (span : Span) (statements : List Expr)

/-- The branches of a choice behind its first case. -/
inductive Branches where
  /-- No further branch. -/
  | nothing
  /-- A further case. -/
  | elif (condition : Expr) (body : Body) (rest : Branches)
  /-- The branch for when no case applies. -/
  | otherwise (body : Body)

end

/-- The statements of a program. -/
structure Program where
  /-- The part of the source they cover. -/
  span : Span
  /-- The statements. -/
  statements : List Expr

/-- The part of the source an expression covers. -/
def Expr.span : Expr → Span
  | number span _ _ => span
  | text span _ => span
  | list span _ => span
  | access span _ => span
  | bind span _ _ => span
  | rebind span _ _ => span
  | unary span _ _ => span
  | binary span _ _ _ => span
  | choice span _ _ _ => span
  | forLoop span _ _ _ _ _ => span
  | whileLoop span _ _ => span
  | function span _ _ _ => span
  | call span _ _ => span

/-- Whether the body is a block. -/
def Body.isBlock : Body → Bool
  | inline _ => false
  | block _ _ => true

/-- The block made of a program's statements. -/
def Program.toBody (p : Program) : Body := .block p.span p.statements

end UniformScript
