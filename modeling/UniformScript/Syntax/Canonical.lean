import UniformScript.Syntax.Expr

/-!
# Canonical text

Every tree has a canonical text.  Operations, bindings, choices, loops and functions stand in
parentheses of their own, so that the text needs no rules of precedence; numbers keep the
characters they were written in.  Blocks stand on lines of their own, and everything else on one
line.
-/

namespace UniformScript

/-- How a character stands in a quoted text. -/
def escape (c : Char) : List Char :=
  if c = '\n' then ['\\', 'n']
  else if c = '\t' then ['\\', 't']
  else if c = '\\' then ['\\', '\\']
  else if c = '"' then ['\\', '"']
  else [c]

/-- A text in quotes. -/
def quote (text : String) : List Char := '"' :: text.toList.flatMap escape ++ ['"']

mutual

/-- The canonical text of an expression. -/
def Expr.canonical : Expr → List Char
  | .number _ lexeme _ => lexeme.toList
  | .text _ value => quote value
  | .list _ elements => '[' :: canonicalAll [',', ' '] elements ++ [']']
  | .access _ name => name.toList
  | .bind _ name value =>
    "(push ".toList ++ name.toList ++ " => ".toList ++ value.canonical ++ [')']
  | .rebind _ name value => '(' :: name.toList ++ " => ".toList ++ value.canonical ++ [')']
  | .unary _ op operand => '(' :: op.text.toList ++ operand.canonical ++ [')']
  | .binary _ op left right =>
    '(' :: left.canonical ++ ' ' :: op.text.toList ++ ' ' :: right.canonical ++ [')']
  | .choice _ condition body rest =>
    "(if ".toList ++ condition.canonical ++ " do".toList ++ body.canonical ++
      rest.canonical body.isBlock ++ [')']
  | .forLoop _ name first bound step body =>
    "(for ".toList ++ name.toList ++ " => ".toList ++ first.canonical ++ " until ".toList ++
      bound.canonical ++ canonicalStep step ++ " do".toList ++ body.canonical ++
      (if body.isBlock then "fin)".toList else " )".toList)
  | .whileLoop _ condition body =>
    "(while ".toList ++ condition.canonical ++ " do".toList ++ body.canonical ++
      (if body.isBlock then "fin)".toList else " )".toList)
  | .function _ name params body =>
    "(define ".toList ++ (name.getD "").toList ++ '(' :: (", ".intercalate params).toList ++
      [')'] ++
      (if body.isBlock then body.canonical ++ "fin)".toList
       else " =>".toList ++ body.canonical ++ [')'])
  | .call _ callee args => callee.canonical ++ '(' :: canonicalAll [',', ' '] args ++ [')']

/-- The canonical text of a body: an expression behind a space, a block between line breaks. -/
def Body.canonical : Body → List Char
  | .inline value => ' ' :: value.canonical
  | .block _ statements => '\n' :: canonicalAll ['\n'] statements ++ ['\n']

/-- The canonical text of the branches behind a case.  Behind an expression a space comes first;
behind a block, which has ended its line, a missing branch is made up for by the closing word. -/
def Branches.canonical : Branches → Bool → List Char
  | .nothing, afterBlock => if afterBlock then "fin".toList else [' ']
  | .elif condition body rest, afterBlock =>
    (if afterBlock then [] else [' ']) ++ "elif ".toList ++ condition.canonical ++ " do".toList ++
      body.canonical ++ rest.canonical body.isBlock
  | .otherwise body, afterBlock =>
    (if afterBlock then [] else [' ']) ++ "else".toList ++ body.canonical ++
      (if body.isBlock then "fin".toList else [])

/-- The canonical text of the step of a counting loop. -/
def canonicalStep : Option Expr → List Char
  | none => []
  | some step => " inc ".toList ++ step.canonical

/-- The canonical texts of a list of expressions, with a separator between them. -/
def canonicalAll (separator : List Char) : List Expr → List Char
  | [] => []
  | [e] => e.canonical
  | e :: rest => e.canonical ++ separator ++ canonicalAll separator rest

end

/-- The canonical text of a program: its statements on lines of their own. -/
def Program.canonical (p : Program) : String := String.ofList (canonicalAll ['\n'] p.statements)

end UniformScript
