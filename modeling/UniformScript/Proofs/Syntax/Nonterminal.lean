import UniformScript.Syntax.Grammar

/-!
# The nonterminals of the grammar

The reading functions of the grammar call each other in many ways, so whatever is said about one of
them is said about all of them at once.  A `Nonterminal` names one of them; its index is the type
of what is read.  `Nonterminal.read` is the reading function itself.
-/

namespace UniformScript.Syntax

/-- The mutually recursive reading functions, by the type of what they read. -/
inductive Nonterminal : Type → Type where
  | expression : Nonterminal Expr
  | comparison : Nonterminal Expr
  | chain (level : Level) : Nonterminal Expr
  | links (level : Level) (left : Expr) : Nonterminal Expr
  | operand (level : Level) : Nonterminal Expr
  | rightOperand (level : Level) : Nonterminal Expr
  | factor : Nonterminal Expr
  | call : Nonterminal Expr
  | items (close : Symbol) (e : Expectation) : Nonterminal (List Expr)
  | moreItems : Nonterminal (List Expr)
  | atom : Nonterminal Expr
  | case : Nonterminal (Expr × Body × Branches)
  | branches : Nonterminal Branches
  | forLoop : Nonterminal Expr
  | step : Nonterminal (Option Expr)
  | closedBody : Nonterminal Body
  | function : Nonterminal Expr
  | functionBody : Nonterminal Body
  | statements : Nonterminal Program
  | moreStatements : Nonterminal (List Expr)

/-- The reading function of a nonterminal, within a bound on its depth. -/
def Nonterminal.read {α : Type} : Nonterminal α → Nat → Parse α
  | expression, n => Syntax.expression n
  | comparison, n => Syntax.comparison n
  | chain level, n => Syntax.chain n level
  | links level left, n => Syntax.links n level left
  | operand level, n => Syntax.operand n level
  | rightOperand level, n => Syntax.rightOperand n level
  | factor, n => Syntax.factor n
  | call, n => Syntax.call n
  | items close e, n => Syntax.items n close e
  | moreItems, n => Syntax.moreItems n
  | atom, n => Syntax.atom n
  | case, n => Syntax.case n
  | branches, n => Syntax.branches n
  | forLoop, n => Syntax.forLoop n
  | step, n => Syntax.step n
  | closedBody, n => Syntax.closedBody n
  | function, n => Syntax.function n
  | functionBody, n => Syntax.functionBody n
  | statements, n => Syntax.statements n
  | moreStatements, n => Syntax.moreStatements n

/-- Without any depth nothing is read. -/
theorem Nonterminal.read_zero {α : Type} (r : Nonterminal α) : r.read 0 = Parse.exhausted := by
  cases r <;> rfl

end UniformScript.Syntax
