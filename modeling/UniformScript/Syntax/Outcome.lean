import UniformScript.Token

/-!
# Reading steps

A reading step takes the tokens that are left and answers with a value and the tokens then left, or
with what it expected and the place where it stopped.  The third answer, `exhausted`, belongs to
steps that are given a bound on their own depth and meet it.

The end of the text is never passed.

* `bind_eq_parsed_iff` and `bind_eq_failed_iff`: one step after the other reads if both read, and
  fails where the first of them does.
-/

namespace UniformScript.Syntax

/-! ## Expectations -/

/-- What was expected where reading stops. -/
inductive Expectation where
  /-- An operator that continues the statement. -/
  | operator
  /-- An expression of any kind. -/
  | expression
  /-- An expression that may begin with a negation. -/
  | comparison
  /-- An expression that begins with no sign. -/
  | atom
  /-- A name. -/
  | name
  /-- The arrow behind a name. -/
  | arrow
  /-- The end of a parenthesis. -/
  | closingParen
  /-- More in a parenthesised list, or its end. -/
  | commaOrParen
  /-- More in a bracketed list, or its end. -/
  | commaOrBracket
  /-- The word in front of a body. -/
  | doWord
  /-- The word in front of a loop's bound. -/
  | untilWord
  /-- The end of a block. -/
  | fin
  /-- The end of a case's block, or a further branch. -/
  | finOrBranch
  /-- The parenthesis behind a function's name. -/
  | openingParen
  /-- A function's name or parameters. -/
  | nameOrParen
  /-- A parameter, or the end of the parameters. -/
  | nameOrClosingParen
  /-- The body of a function. -/
  | arrowOrSeparator
  /-- Less nesting than there is. -/
  | lessNesting
  deriving DecidableEq, Repr

/-- The message of an unmet expectation. -/
def Expectation.message : Expectation → String
  | operator => "Expected '+', '-', '*', '/', '^', '==', '!=', '<', '>', '<=', '>=', '&', or '|'"
  | expression => "Expected 'push', int, float, identifier, '+', '-', '(' or ':'"
  | comparison => "Expected int, float, identifier, '+', '-', '(', or ':'"
  | atom => "Expected int or float, identifier, '+', '-', '(', 'if', 'for', 'while' or 'define'"
  | name => "Expected identifier"
  | arrow => "Expected '=>'"
  | closingParen => "Expected ')'"
  | commaOrParen => "Expected ',' or ')'"
  | commaOrBracket => "Expected ',' or ']'"
  | doWord => "Expected 'do'"
  | untilWord => "Expected 'until'"
  | fin => "Expected 'fin'"
  | finOrBranch => "Expected 'fin', 'elif' or 'else'"
  | openingParen => "Expected '('"
  | nameOrParen => "Expected identifier or '('"
  | nameOrClosingParen => "Expected identifier or ')'"
  | arrowOrSeparator => "Expected '=>' or NEWLINE"
  | lessNesting => "Expected less nesting"

/-! ## Places between tokens -/

/-- A place between tokens: the token passed last and the tokens ahead. -/
structure Cursor where
  /-- The token passed last; at the very start, the first token. -/
  previous : Token
  /-- The tokens ahead. -/
  rest : List Token

namespace Cursor

/-- The place before the first token. -/
def start : List Token → Cursor
  | [] => ⟨Token.finishAt (Position.start ⟨"", ""⟩), []⟩
  | t :: ts => ⟨t, t :: ts⟩

/-- The kind of the next token; where there is none, the text has ended. -/
def kind (c : Cursor) : Kind :=
  match c.rest with
  | t :: _ => t.kind
  | [] => .finish

/-- The part of the source the next token covers. -/
def span (c : Cursor) : Span :=
  match c.rest with
  | t :: _ => t.span
  | [] => c.previous.span

/-- The place behind the next token; the end of the text is not passed. -/
def advance (c : Cursor) : Cursor :=
  match c.rest with
  | [] => c
  | t :: ts =>
    match t.kind with
    | .finish => c
    | _ => ⟨t, ts⟩

/-- The place behind a run of separators that begins here, with `previous` passed last. -/
def behindSeparators (previous : Token) : List Token → Cursor
  | [] => ⟨previous, []⟩
  | t :: ts =>
    match t.kind with
    | .separator => behindSeparators t ts
    | _ => ⟨previous, t :: ts⟩

end Cursor

/-! ## Steps -/

/-- The answer of a reading step. -/
inductive Outcome (α : Type) where
  /-- A value, and the place behind the tokens it was read from. -/
  | parsed (value : α) (cursor : Cursor)
  /-- What was expected, and the place where. -/
  | failed (expected : Expectation) (cursor : Cursor)
  /-- The bound on the depth was met. -/
  | exhausted

/-- A reading step. -/
def Parse (α : Type) : Type := Cursor → Outcome α

namespace Parse

/-- The step that reads nothing. -/
@[inline] def pure {α : Type} (a : α) : Parse α := fun c => .parsed a c

/-- One step after the other. -/
@[inline] def bind {α β : Type} (p : Parse α) (f : α → Parse β) : Parse β := fun c =>
  match p c with
  | .parsed a c' => f a c'
  | .failed e c' => .failed e c'
  | .exhausted => .exhausted

instance : Monad Parse where
  pure := Parse.pure
  bind := Parse.bind

/-- The step that meets the bound on the depth. -/
def exhausted {α : Type} : Parse α := fun _ => .exhausted

/-- The step that fails where it is. -/
def fail {α : Type} (e : Expectation) : Parse α := fun c => .failed e c

/-- The kind of the next token. -/
def look : Parse Kind := fun c => .parsed c.kind c

/-- The part of the source that the token passed last covers. -/
def lastSpan : Parse Span := fun c => .parsed c.previous.span c

/-- Passes the next token and answers with it. -/
def next : Parse Token := fun c => .parsed c.advance.previous c.advance

/-- Passes the next token if it is of the given kind, and says whether. -/
def accept (is : Kind → Bool) : Parse Bool := fun c =>
  if is c.kind then .parsed true c.advance else .parsed false c

/-- Passes the next token, which has to be of the given kind. -/
def expect (is : Kind → Bool) (e : Expectation) : Parse Token := fun c =>
  if is c.kind then .parsed c.advance.previous c.advance else .failed e c

/-- Passes all separators ahead. -/
def skipSeparators : Parse Unit := fun c => .parsed () (Cursor.behindSeparators c.previous c.rest)

/-- Tries a step; where it fails, nothing has been read. -/
def attempt {α : Type} (p : Parse α) : Parse (Option α) := fun c =>
  match p c with
  | .parsed a c' => .parsed (some a) c'
  | .failed _ _ => .parsed none c
  | .exhausted => .exhausted

/-- Replaces the expectation of a step that fails without having passed a token. -/
def expecting {α : Type} (e : Expectation) (p : Parse α) : Parse α := fun c =>
  match p c with
  | .failed e' c' => if c'.rest.length = c.rest.length then .failed e c else .failed e' c'
  | other => other

/-! ### Steps in a row -/

theorem bind_eq_parsed_iff {α β : Type} {p : Parse α} {f : α → Parse β} {c c' : Cursor} {b : β} :
    (p >>= f) c = .parsed b c' ↔ ∃ a c₁, p c = .parsed a c₁ ∧ f a c₁ = .parsed b c' := by
  show Parse.bind p f c = _ ↔ _
  unfold Parse.bind
  cases h : p c with
  | parsed a c₁ =>
    refine ⟨fun h' => ⟨a, c₁, rfl, h'⟩, ?_⟩
    rintro ⟨_, _, h', h''⟩
    cases h'
    exact h''
  | failed e c₁ => simp
  | exhausted => simp

theorem bind_eq_failed_iff {α β : Type} {p : Parse α} {f : α → Parse β} {c c' : Cursor}
    {e : Expectation} :
    (p >>= f) c = .failed e c' ↔
      p c = .failed e c' ∨ ∃ a c₁, p c = .parsed a c₁ ∧ f a c₁ = .failed e c' := by
  show Parse.bind p f c = _ ↔ _
  unfold Parse.bind
  cases h : p c with
  | parsed a c₁ =>
    refine ⟨fun h' => .inr ⟨a, c₁, rfl, h'⟩, ?_⟩
    rintro (h' | ⟨_, _, h', h''⟩)
    · cases h'
    · cases h'
      exact h''
  | failed e c₁ => simp
  | exhausted => simp

@[simp] theorem lastSpan_apply (c : Cursor) : lastSpan c = .parsed c.previous.span c := rfl

@[simp] theorem next_apply (c : Cursor) : next c = .parsed c.advance.previous c.advance := rfl

theorem accept_apply (is : Kind → Bool) (c : Cursor) :
    accept is c = if is c.kind then .parsed true c.advance else .parsed false c := rfl

theorem expect_apply (is : Kind → Bool) (e : Expectation) (c : Cursor) :
    expect is e c = if is c.kind then .parsed c.advance.previous c.advance else .failed e c := rfl

theorem expecting_eq_parsed_iff {α : Type} {e : Expectation} {p : Parse α} {c c' : Cursor}
    {a : α} : expecting e p c = .parsed a c' ↔ p c = .parsed a c' := by
  unfold expecting
  cases p c with
  | parsed b c₁ => simp
  | failed e' c₁ => simp only [reduceCtorEq, iff_false]; split <;> simp
  | exhausted => simp

theorem eq_or_failed_of_expecting {α : Type} {e x : Expectation} {p : Parse α} {c c' : Cursor}
    (h : expecting e p c = .failed x c') : c' = c ∨ p c = .failed x c' := by
  unfold expecting at h
  split at h
  · split at h
    · cases h
      exact .inl rfl
    · rename_i hp _
      exact .inr (hp.trans h)
  · exact .inr h

/-- Where no token was passed, the failure is the one that was asked for. -/
theorem exists_failed_of_expecting {α : Type} {e x : Expectation} {p : Parse α} {c c' : Cursor}
    (h : expecting e p c = .failed x c') : ∃ y c₁, p c = .failed y c₁ ∧
      if c₁.rest.length = c.rest.length then x = e ∧ c' = c else x = y ∧ c' = c₁ := by
  unfold expecting at h
  split at h
  · rename_i y c₁ hp
    refine ⟨y, c₁, hp, ?_⟩
    split at h <;> cases h
    · rw [if_pos ‹_›]
      exact ⟨rfl, rfl⟩
    · rw [if_neg ‹_›]
      exact ⟨rfl, rfl⟩
  · rename_i hne
    exact absurd h (hne x c')

theorem attempt_ne_failed {α : Type} (p : Parse α) (x : Expectation) (c c' : Cursor) :
    attempt p c ≠ .failed x c' := by
  unfold attempt
  cases p c <;> simp

theorem attempt_eq_some_iff {α : Type} {p : Parse α} {c c' : Cursor} {a : α} :
    attempt p c = .parsed (some a) c' ↔ p c = .parsed a c' := by
  unfold attempt
  cases p c with
  | parsed b c₁ => simp
  | failed e c₁ => simp
  | exhausted => simp

theorem attempt_eq_none_iff {α : Type} {p : Parse α} {c c' : Cursor} :
    attempt p c = .parsed none c' ↔ c' = c ∧ ∃ e c₁, p c = .failed e c₁ := by
  unfold attempt
  cases p c with
  | parsed b c₁ => simp
  | failed e c₁ => simp [eq_comm]
  | exhausted => simp

end Parse

end UniformScript.Syntax
