import UniformScript.Syntax.Outcome
import UniformScript.Syntax.Expr

/-!
# The grammar

Reading tokens into a tree.  The operators stand on levels, the loosest first: conjunction and
disjunction; comparisons; sums; products; signs; powers; calls.  All levels but powers group to the
left; the right operand of a power may bear a sign.  An atom takes at most one list of arguments.

A separator behind a statement may be followed by another statement.  If what follows does not read
as one, the tokens behind the separators are left to whatever stands around the statements.

Every reading function is given a bound on its depth.  `parse` chooses it so large that it is never
met: each token is passed after a bounded number of steps that pass none.
-/

namespace UniformScript

/-! ## Kinds of tokens -/

/-- Whether a token is the given symbol. -/
def Kind.isSymbol (s : Symbol) : Kind → Bool
  | symbol t => s == t
  | _ => false

/-- Whether a token is the given keyword. -/
def Kind.isKeyword (k : Keyword) : Kind → Bool
  | keyword l => k == l
  | _ => false

/-- Whether a token is an identifier. -/
def Kind.isIdentifier : Kind → Bool
  | identifier => true
  | _ => false

/-- Whether a token is a separator. -/
def Kind.isSeparator : Kind → Bool
  | separator => true
  | _ => false

/-- The sign that a token stands for in front of an operand. -/
def UnaryOp.sign? : Kind → Option UnaryOp
  | .symbol .plus => some plus
  | .symbol .minus => some minus
  | _ => none

namespace Syntax

/-! ## Levels -/

/-- The levels of operators between operands, the loosest first. -/
inductive Level where
  /-- Conjunction and disjunction. -/
  | junction
  /-- Comparisons. -/
  | comparison
  /-- Sums and differences. -/
  | sum
  /-- Products and quotients. -/
  | product
  /-- Powers. -/
  | power
  deriving DecidableEq, Repr

/-- The operators of a level. -/
def Level.operators : Level → List BinaryOp
  | junction => [.conjunction, .disjunction]
  | comparison => [.equal, .unequal, .less, .greater, .lessEqual, .greaterEqual]
  | sum => [.add, .subtract]
  | product => [.multiply, .divide]
  | power => [.power]

/-- The operator of a level that a token stands for. -/
def Level.operator? (level : Level) (kind : Kind) : Option BinaryOp :=
  (BinaryOp.ofKind? kind).filter (level.operators.contains ·)

open Parse

/-! ## Reading functions -/

/-- Further names of a list, each behind a comma. -/
def moreNames (fuel : Nat) : Parse (List String) :=
  match fuel with
  | 0 => exhausted
  | n + 1 => do
    if ← accept (Kind.isSymbol .comma) then
      let name ← expect Kind.isIdentifier .name
      let names ← moreNames n
      return name.lexeme :: names
    else return []

/-- The names of parameters and the parenthesis behind them. -/
def parameters (fuel : Nat) : Parse (List String) := do
  if (← look).isIdentifier then
    let name ← next
    let names ← moreNames fuel
    let _ ← expect (Kind.isSymbol .rightParen) .commaOrParen
    return name.lexeme :: names
  else
    let _ ← expect (Kind.isSymbol .rightParen) .nameOrClosingParen
    return []

/-- The name of a function, if it has one, and the parenthesis in front of its parameters. -/
def functionName : Parse (Option String) := do
  if (← look).isIdentifier then
    let name ← next
    let _ ← expect (Kind.isSymbol .leftParen) .openingParen
    return some name.lexeme
  else
    let _ ← expect (Kind.isSymbol .leftParen) .nameOrParen
    return none

mutual

/-- An expression: a new binding, or operands joined by the loosest operators. -/
def expression (fuel : Nat) : Parse Expr :=
  match fuel with
  | 0 => exhausted
  | n + 1 => do
    if ← accept (Kind.isKeyword .push) then
      let start ← lastSpan
      let name ← expect Kind.isIdentifier .name
      let _ ← expect (Kind.isSymbol .arrow) .arrow
      let value ← expression n
      return .bind (start.through value.span) name.lexeme value
    else expecting .expression (chain n .junction)

/-- A comparison, or the negation of one. -/
def comparison (fuel : Nat) : Parse Expr :=
  match fuel with
  | 0 => exhausted
  | n + 1 => do
    if ← accept (Kind.isKeyword .negation) then
      let start ← lastSpan
      let operand ← comparison n
      return .unary (start.through operand.span) .negation operand
    else expecting .comparison (chain n .comparison)

/-- Operands joined by the operators of a level. -/
def chain (fuel : Nat) (level : Level) : Parse Expr :=
  match fuel with
  | 0 => exhausted
  | n + 1 => do
    let left ← operand n level
    links n level left

/-- Further operands of a level behind `left`, each behind an operator. -/
def links (fuel : Nat) (level : Level) (left : Expr) : Parse Expr :=
  match fuel with
  | 0 => exhausted
  | n + 1 => do
    match level.operator? (← look) with
    | none => return left
    | some op =>
      let _ ← next
      let right ← rightOperand n level
      links n level (.binary (left.span.through right.span) op left right)

/-- The first operand of a level: what the next tighter level reads. -/
def operand (fuel : Nat) (level : Level) : Parse Expr :=
  match fuel with
  | 0 => exhausted
  | n + 1 =>
    match level with
    | .junction => comparison n
    | .comparison => chain n .sum
    | .sum => chain n .product
    | .product => factor n
    | .power => call n

/-- An operand behind an operator: like the first one, but in a power it may bear a sign. -/
def rightOperand (fuel : Nat) (level : Level) : Parse Expr :=
  match fuel with
  | 0 => exhausted
  | n + 1 =>
    match level with
    | .power => factor n
    | level => operand n level

/-- A power, with any number of signs in front. -/
def factor (fuel : Nat) : Parse Expr :=
  match fuel with
  | 0 => exhausted
  | n + 1 => do
    match UnaryOp.sign? (← look) with
    | none => chain n .power
    | some op =>
      let sign ← next
      let operand ← factor n
      return .unary (sign.span.through operand.span) op operand

/-- An atom, with at most one list of arguments behind it. -/
def call (fuel : Nat) : Parse Expr :=
  match fuel with
  | 0 => exhausted
  | n + 1 => do
    let callee ← atom n
    if ← accept (Kind.isSymbol .leftParen) then
      let args ← items n .rightParen .commaOrParen
      return .call (callee.span.through (← lastSpan)) callee args
    else return callee

/-- Expressions between commas, and the symbol that closes them. -/
def items (fuel : Nat) (close : Symbol) (e : Expectation) : Parse (List Expr) :=
  match fuel with
  | 0 => exhausted
  | n + 1 => do
    if ← accept (Kind.isSymbol close) then return []
    else
      let first ← expression n
      let rest ← moreItems n
      let _ ← expect (Kind.isSymbol close) e
      return first :: rest

/-- Further expressions, each behind a comma. -/
def moreItems (fuel : Nat) : Parse (List Expr) :=
  match fuel with
  | 0 => exhausted
  | n + 1 => do
    if ← accept (Kind.isSymbol .comma) then
      let first ← expression n
      let rest ← moreItems n
      return first :: rest
    else return []

/-- An expression that its first token tells apart. -/
def atom (fuel : Nat) : Parse Expr :=
  match fuel with
  | 0 => exhausted
  | n + 1 => do
    match ← look with
    | .literal (.whole m) =>
      let token ← next
      return .number token.span token.lexeme (Decimal.nearest m 1)
    | .literal (.decimal x) =>
      let token ← next
      return .number token.span token.lexeme x
    | .literal (.text s) =>
      let token ← next
      return .text token.span s
    | .identifier =>
      let token ← next
      if ← accept (Kind.isSymbol .arrow) then
        let value ← expression n
        return .rebind (token.span.through value.span) token.lexeme value
      else return .access token.span token.lexeme
    | .symbol .leftParen =>
      let _ ← next
      let inner ← expression n
      let _ ← expect (Kind.isSymbol .rightParen) .closingParen
      return inner
    | .symbol .leftBracket =>
      let start ← next
      let elements ← items n .rightBracket .commaOrBracket
      return .list (start.span.through (← lastSpan)) elements
    | .keyword .ifWord =>
      let start ← next
      let (condition, body, rest) ← case n
      return .choice (start.span.through (← lastSpan)) condition body rest
    | .keyword .forWord => forLoop n
    | .keyword .whileWord =>
      let start ← next
      let condition ← expression n
      let _ ← expect (Kind.isKeyword .doWord) .doWord
      let body ← closedBody n
      return .whileLoop (start.span.through (← lastSpan)) condition body
    | .keyword .define => function n
    | _ => fail .atom

/-- A case of a choice, behind its first word, and the branches behind the case. -/
def case (fuel : Nat) : Parse (Expr × Body × Branches) :=
  match fuel with
  | 0 => exhausted
  | n + 1 => do
    let condition ← expression n
    let _ ← expect (Kind.isKeyword .doWord) .doWord
    if ← accept Kind.isSeparator then
      let block ← statements n
      if ← accept (Kind.isKeyword .fin) then return (condition, block.toBody, .nothing)
      else if (← look).isKeyword .elif || (← look).isKeyword .elseWord then
        let rest ← branches n
        return (condition, block.toBody, rest)
      else fail .finOrBranch
    else
      let value ← expression n
      let rest ← branches n
      return (condition, .inline value, rest)

/-- The branches behind a case. -/
def branches (fuel : Nat) : Parse Branches :=
  match fuel with
  | 0 => exhausted
  | n + 1 => do
    if ← accept (Kind.isKeyword .elif) then
      let (condition, body, rest) ← case n
      return .elif condition body rest
    else if ← accept (Kind.isKeyword .elseWord) then
      let body ← closedBody n
      return .otherwise body
    else return .nothing

/-- A counting loop. -/
def forLoop (fuel : Nat) : Parse Expr :=
  match fuel with
  | 0 => exhausted
  | n + 1 => do
    let start ← next
    let name ← expect Kind.isIdentifier .name
    let _ ← expect (Kind.isSymbol .arrow) .arrow
    let first ← expression n
    let _ ← expect (Kind.isKeyword .untilWord) .untilWord
    let bound ← expression n
    let step ← step n
    let _ ← expect (Kind.isKeyword .doWord) .doWord
    let body ← closedBody n
    return .forLoop (start.span.through (← lastSpan)) name.lexeme first bound step body

/-- The step of a counting loop, which may be left out. -/
def step (fuel : Nat) : Parse (Option Expr) :=
  match fuel with
  | 0 => exhausted
  | n + 1 => do
    if ← accept (Kind.isKeyword .inc) then
      let value ← expression n
      return some value
    else return none

/-- A body that ends by itself: an expression, or a block with the word that ends it. -/
def closedBody (fuel : Nat) : Parse Body :=
  match fuel with
  | 0 => exhausted
  | n + 1 => do
    if ← accept Kind.isSeparator then
      let block ← statements n
      let _ ← expect (Kind.isKeyword .fin) .fin
      return block.toBody
    else
      let value ← expression n
      return .inline value

/-- A function. -/
def function (fuel : Nat) : Parse Expr :=
  match fuel with
  | 0 => exhausted
  | n + 1 => do
    let start ← next
    let name ← functionName
    let params ← parameters n
    let body ← functionBody n
    return .function (start.span.through (← lastSpan)) name params body

/-- The body of a function: an expression behind an arrow, or a block. -/
def functionBody (fuel : Nat) : Parse Body :=
  match fuel with
  | 0 => exhausted
  | n + 1 => do
    if ← accept (Kind.isSymbol .arrow) then
      let value ← expression n
      return .inline value
    else
      let _ ← expect Kind.isSeparator .arrowOrSeparator
      let block ← statements n
      let _ ← expect (Kind.isKeyword .fin) .fin
      return block.toBody

/-- Statements, with separators around and between them. -/
def statements (fuel : Nat) : Parse Program :=
  match fuel with
  | 0 => exhausted
  | n + 1 => do
    skipSeparators
    let first ← expression n
    let rest ← moreStatements n
    return ⟨first.span.through (← lastSpan), first :: rest⟩

/-- Further statements, each behind separators; what does not read as one is left. -/
def moreStatements (fuel : Nat) : Parse (List Expr) :=
  match fuel with
  | 0 => exhausted
  | n + 1 => do
    if ← accept Kind.isSeparator then
      skipSeparators
      match ← attempt (expression n) with
      | none => return []
      | some first =>
        let rest ← moreStatements n
        return first :: rest
    else return []

end

/-! ## Programs -/

/-- A whole program: statements and nothing behind them. -/
def program (fuel : Nat) : Parse Program := do
  let root ← statements fuel
  match ← look with
  | .finish => return root
  | _ => fail .operator

/-- A depth that reading so many tokens does not reach. -/
def depthFor (tokens : List Token) : Nat := 24 * (tokens.length + 1)

/-- The tree that tokens make up, or what was expected at the token where reading stops. -/
def parse (tokens : List Token) : Except (Located Expectation) Program :=
  match program (depthFor tokens) (Cursor.start tokens) with
  | .parsed root _ => .ok root
  | .failed e c => .error ⟨e, c.span⟩
  | .exhausted => .error ⟨.lessNesting, (Cursor.start tokens).span⟩

end Syntax

end UniformScript
