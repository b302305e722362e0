import UniformScript.Proofs.Syntax.Nonterminal
import UniformScript.Proofs.Syntax.Passing

/-!
# What the reading functions do, step by step

A reading function looks at the next token, passes it or not, calls other reading functions, and
goes on with what they have read.  A `Script` is a list of such steps, as data; which step comes
next may depend on what the ones before have found.  Every reading function has its script.  So
what holds of reading functions because of the steps they are made of is shown for each kind of
step once, and not for each of the functions.

* `Routine`: the reading functions.
* `Script.run`: doing the steps of a script, with calls that are bounded in depth.
* `Routine.read_succ`: a reading function does the steps of its script.
* `Routine.read_below`: an answer within a bound on the depth is the answer within every larger
  one.
-/

namespace UniformScript.Syntax

open Parse

/-! ## Routines and scripts -/

/-- The reading functions: those of the nonterminals, and those that pass separators, read further
names, and read a whole program. -/
inductive Routine : Type → Type 1 where
  | reading {α : Type} (r : Nonterminal α) : Routine α
  | separators : Routine Unit
  | names : Routine (List String)
  | program : Routine Program

/-- The steps of a reading function. -/
inductive Script (α : Type) : Type 1 where
  /-- Nothing is left to be done. -/
  | done (a : α) : Script α
  /-- What is expected is not there. -/
  | fail (e : Expectation) : Script α
  /-- Looks at the kind of the next token. -/
  | look (next : Kind → Script α) : Script α
  /-- Looks at the span of the token passed last. -/
  | lastSpan (next : Span → Script α) : Script α
  /-- Passes the next token. -/
  | pass (next : Token → Script α) : Script α
  /-- Passes the next token if it is of the given kind. -/
  | accept (is : Kind → Bool) (yes no : Script α) : Script α
  /-- Passes the next token, which has to be of the given kind. -/
  | expect (is : Kind → Bool) (e : Expectation) (next : Token → Script α) : Script α
  /-- Calls a reading function. -/
  | call {β : Type} (s : Routine β) (next : β → Script α) : Script α
  /-- Calls a reading function, and comes back to where it was called if it fails. -/
  | attempt {β : Type} (s : Routine β) (next : Option β → Script α) : Script α
  /-- Calls a reading function, with another expectation if it fails where it was called. -/
  | expecting {β : Type} (e : Expectation) (s : Routine β) (next : β → Script α) : Script α

/-- Calls the reading function of a nonterminal. -/
abbrev Script.read {α β : Type} (r : Nonterminal β) (next : β → Script α) : Script α :=
  .call (.reading r) next

/-- A reading function, within a bound on its depth.  Separators are passed whatever the bound is;
reading a program goes one level down to its statements. -/
def Routine.read {α : Type} : Routine α → Nat → Parse α
  | reading r, n => r.read n
  | separators, _ => skipSeparators
  | names, n => moreNames n
  | program, n => Syntax.program (n - 1)

/-- Does the steps of a script.  The reading functions it calls have the bound `n`. -/
def Script.run {α : Type} (n : Nat) : Script α → Parse α
  | done a => Pure.pure a
  | fail e => Parse.fail e
  | look next => Parse.look >>= fun kind => (next kind).run n
  | lastSpan next => Parse.lastSpan >>= fun span => (next span).run n
  | pass next => Parse.next >>= fun token => (next token).run n
  | accept is yes no => Parse.accept is >>= fun b => if b = true then yes.run n else no.run n
  | expect is e next => Parse.expect is e >>= fun token => (next token).run n
  | call s next => s.read n >>= fun b => (next b).run n
  | attempt s next => Parse.attempt (s.read n) >>= fun found => (next found).run n
  | expecting e s next => Parse.expecting e (s.read n) >>= fun b => (next b).run n

/-! ## The scripts of the reading functions -/

namespace Script

variable {α : Type}

/-- The name of a function, if it has one, and the parenthesis in front of its parameters. -/
def functionName (next : Option String → Script α) : Script α :=
  .look fun kind =>
    if kind.isIdentifier = true then
      .pass fun name => .expect (Kind.isSymbol .leftParen) .openingParen fun _ =>
        next (some name.lexeme)
    else .expect (Kind.isSymbol .leftParen) .nameOrParen fun _ => next none

/-- The names of parameters and the parenthesis behind them. -/
def parameters (next : List String → Script α) : Script α :=
  .look fun kind =>
    if kind.isIdentifier = true then
      .pass fun name => .call .names fun names =>
        .expect (Kind.isSymbol .rightParen) .commaOrParen fun _ => next (name.lexeme :: names)
    else .expect (Kind.isSymbol .rightParen) .nameOrClosingParen fun _ => next []

end Script

/-- The script of a nonterminal. -/
def Nonterminal.script : {α : Type} → Nonterminal α → Script α
  | _, expression =>
    .accept (Kind.isKeyword .push)
      (.lastSpan fun start => .expect Kind.isIdentifier .name fun name =>
        .expect (Kind.isSymbol .arrow) .arrow fun _ => .read expression fun value =>
          .done (.bind (start.through value.span) name.lexeme value))
      (.expecting .expression (.reading (chain .junction)) .done)
  | _, comparison =>
    .accept (Kind.isKeyword .negation)
      (.lastSpan fun start => .read comparison fun operand =>
        .done (.unary (start.through operand.span) .negation operand))
      (.expecting .comparison (.reading (chain .comparison)) .done)
  | _, chain level => .read (operand level) fun left => .read (links level left) .done
  | _, links level left => .look fun kind =>
    match level.operator? kind with
    | none => .done left
    | some op => .pass fun _ => .read (rightOperand level) fun right =>
      .read (links level (.binary (left.span.through right.span) op left right)) .done
  | _, operand .junction => .read comparison .done
  | _, operand .comparison => .read (chain .sum) .done
  | _, operand .sum => .read (chain .product) .done
  | _, operand .product => .read factor .done
  | _, operand .power => .read call .done
  | _, rightOperand .power => .read factor .done
  | _, rightOperand level => .read (operand level) .done
  | _, factor => .look fun kind =>
    match UnaryOp.sign? kind with
    | none => .read (chain .power) .done
    | some op => .pass fun sign => .read factor fun operand =>
      .done (.unary (sign.span.through operand.span) op operand)
  | _, call => .read atom fun callee =>
    .accept (Kind.isSymbol .leftParen)
      (.read (items .rightParen .commaOrParen) fun args => .lastSpan fun last =>
        .done (.call (callee.span.through last) callee args))
      (.done callee)
  | _, items close e =>
    .accept (Kind.isSymbol close) (.done [])
      (.read expression fun first => .read moreItems fun rest =>
        .expect (Kind.isSymbol close) e fun _ => .done (first :: rest))
  | _, moreItems =>
    .accept (Kind.isSymbol .comma)
      (.read expression fun first => .read moreItems fun rest => .done (first :: rest))
      (.done [])
  | _, atom => .look fun
    | .literal (.whole m) => .pass fun token =>
      .done (.number token.span token.lexeme (Decimal.nearest m 1))
    | .literal (.decimal x) => .pass fun token => .done (.number token.span token.lexeme x)
    | .literal (.text s) => .pass fun token => .done (.text token.span s)
    | .identifier => .pass fun token =>
      .accept (Kind.isSymbol .arrow)
        (.read expression fun value =>
          .done (.rebind (token.span.through value.span) token.lexeme value))
        (.done (.access token.span token.lexeme))
    | .symbol .leftParen => .pass fun _ => .read expression fun inner =>
      .expect (Kind.isSymbol .rightParen) .closingParen fun _ => .done inner
    | .symbol .leftBracket => .pass fun start =>
      .read (items .rightBracket .commaOrBracket) fun elements => .lastSpan fun last =>
        .done (.list (start.span.through last) elements)
    | .keyword .ifWord => .pass fun start => .read case fun parts => .lastSpan fun last =>
      .done (.choice (start.span.through last) parts.1 parts.2.1 parts.2.2)
    | .keyword .forWord => .read forLoop .done
    | .keyword .whileWord => .pass fun start => .read expression fun condition =>
      .expect (Kind.isKeyword .doWord) .doWord fun _ => .read closedBody fun body =>
        .lastSpan fun last => .done (.whileLoop (start.span.through last) condition body)
    | .keyword .define => .read function .done
    | _ => .fail .atom
  | _, case => .read expression fun condition =>
    .expect (Kind.isKeyword .doWord) .doWord fun _ => .accept Kind.isSeparator
      (.read statements fun block => .accept (Kind.isKeyword .fin)
        (.done (condition, block.toBody, .nothing))
        (.look fun kind => .look fun again =>
          if (kind.isKeyword .elif || again.isKeyword .elseWord) = true then
            .read branches fun rest => .done (condition, block.toBody, rest)
          else .fail .finOrBranch))
      (.read expression fun value => .read branches fun rest =>
        .done (condition, .inline value, rest))
  | _, branches =>
    .accept (Kind.isKeyword .elif)
      (.read case fun parts => .done (.elif parts.1 parts.2.1 parts.2.2))
      (.accept (Kind.isKeyword .elseWord)
        (.read closedBody fun body => .done (.otherwise body))
        (.done .nothing))
  | _, forLoop => .pass fun start => .expect Kind.isIdentifier .name fun name =>
    .expect (Kind.isSymbol .arrow) .arrow fun _ => .read expression fun first =>
      .expect (Kind.isKeyword .untilWord) .untilWord fun _ => .read expression fun bound =>
        .read step fun step => .expect (Kind.isKeyword .doWord) .doWord fun _ =>
          .read closedBody fun body => .lastSpan fun last =>
            .done (.forLoop (start.span.through last) name.lexeme first bound step body)
  | _, step =>
    .accept (Kind.isKeyword .inc)
      (.read expression fun value => .done (some value))
      (.done none)
  | _, closedBody =>
    .accept Kind.isSeparator
      (.read statements fun block => .expect (Kind.isKeyword .fin) .fin fun _ =>
        .done block.toBody)
      (.read expression fun value => .done (.inline value))
  | _, function => .pass fun start => .functionName fun name => .parameters fun params =>
    .read functionBody fun body => .lastSpan fun last =>
      .done (.function (start.span.through last) name params body)
  | _, functionBody =>
    .accept (Kind.isSymbol .arrow)
      (.read expression fun value => .done (.inline value))
      (.expect Kind.isSeparator .arrowOrSeparator fun _ => .read statements fun block =>
        .expect (Kind.isKeyword .fin) .fin fun _ => .done block.toBody)
  | _, statements => .call .separators fun _ => .read expression fun first =>
    .read moreStatements fun rest => .lastSpan fun last =>
      .done ⟨first.span.through last, first :: rest⟩
  | _, moreStatements =>
    .accept Kind.isSeparator
      (.call .separators fun _ => .attempt (.reading expression) fun
        | none => .done []
        | some first => .read moreStatements fun rest => .done (first :: rest))
      (.done [])

/-- The script of a reading function. -/
def Routine.script : {α : Type} → Routine α → Script α
  | _, reading r => r.script
  | _, separators => .accept Kind.isSeparator (.call separators .done) (.done ())
  | _, names =>
    .accept (Kind.isSymbol .comma)
      (.expect Kind.isIdentifier .name fun name => .call names fun names =>
        .done (name.lexeme :: names))
      (.done [])
  | _, program => .read .statements fun root => .look fun
    | .finish => .done root
    | _ => .fail .operator

/-! ## Reading functions do their scripts -/

section

variable {α β γ : Type} {n : Nat}

instance : LawfulMonad Parse := by
  refine LawfulMonad.mk' _ (fun p => ?_) (fun a f => rfl) (fun p f g => ?_)
  · funext c
    show Parse.bind p _ c = p c
    unfold Parse.bind
    cases p c <;> rfl
  · funext c
    show Parse.bind (Parse.bind p f) g c = Parse.bind p _ c
    unfold Parse.bind
    cases p c <;> rfl

/-- A choice in front of a step is a choice between two steps. -/
theorem Parse.ite_bind (b : Prop) [Decidable b] (p q : Parse α) (f : α → Parse β) :
    ((if b then p else q) >>= f) = if b then p >>= f else q >>= f := by
  split <;> rfl

theorem Script.run_accept {is : Kind → Bool} {yes no : Script α} {c : Cursor} :
    (Script.accept is yes no).run n c =
      if is c.kind = true then yes.run n c.advance else no.run n c := by
  by_cases his : is c.kind = true
  · rw [if_pos his]
    exact bind_of_parsed (b := true) (by rw [accept_apply, if_pos his])
  · rw [if_neg his]
    exact bind_of_parsed (b := false) (by rw [accept_apply, if_neg his])

theorem Script.run_expect {is : Kind → Bool} {e : Expectation} {next : Token → Script α}
    {c : Cursor} : (Script.expect is e next).run n c =
      if is c.kind = true then (next c.advance.previous).run n c.advance else .failed e c := by
  by_cases his : is c.kind = true
  · rw [if_pos his]
    exact bind_of_parsed (by rw [expect_apply, if_pos his])
  · rw [if_neg his]
    exact bind_of_failed (by rw [expect_apply, if_neg his])

/-- A call at the end of a script. -/
theorem Script.run_call_done (s : Routine α) : (Script.call s .done).run n = s.read n :=
  bind_pure _

theorem Script.run_functionName (next : Option String → Script α) :
    (Script.functionName next).run n =
      (Syntax.functionName >>= fun name => (next name).run n) := by
  unfold Script.functionName Syntax.functionName
  rw [bind_assoc]
  refine bind_congr fun kind => ?_
  rw [Parse.ite_bind, apply_ite (Script.run n)]
  simp only [bind_assoc]
  rfl

theorem Script.run_parameters (next : List String → Script α) :
    (Script.parameters next).run n =
      (Syntax.parameters n >>= fun names => (next names).run n) := by
  unfold Script.parameters Syntax.parameters
  rw [bind_assoc]
  refine bind_congr fun kind => ?_
  rw [Parse.ite_bind, apply_ite (Script.run n)]
  simp only [bind_assoc]
  rfl

/-- A reading function does the steps of its script, one level further down. -/
theorem Nonterminal.read_succ (r : Nonterminal α) (n : Nat) :
    r.read (n + 1) = r.script.run n := by
  cases r with
  | expression =>
    show Syntax.expression (n + 1) = _
    unfold Syntax.expression
    rw [← bind_pure (Parse.expecting .expression (Syntax.chain n .junction))]
    rfl
  | comparison =>
    show Syntax.comparison (n + 1) = _
    unfold Syntax.comparison
    rw [← bind_pure (Parse.expecting .comparison (Syntax.chain n .comparison))]
    rfl
  | chain level =>
    show Syntax.chain (n + 1) level = _
    unfold Syntax.chain
    exact bind_congr fun left => (bind_pure _).symm
  | links level left =>
    show Syntax.links (n + 1) level left = _
    unfold Syntax.links
    refine bind_congr fun kind => ?_
    dsimp only
    cases level.operator? kind with
    | none => rfl
    | some op => exact bind_congr fun sign => bind_congr fun right => (bind_pure _).symm
  | operand level => cases level <;> exact (bind_pure _).symm
  | rightOperand level => cases level <;> exact (bind_pure _).symm
  | factor =>
    show Syntax.factor (n + 1) = _
    unfold Syntax.factor
    refine bind_congr fun kind => ?_
    dsimp only
    cases UnaryOp.sign? kind with
    | none => exact (bind_pure _).symm
    | some op => rfl
  | call => rfl
  | items close e => rfl
  | moreItems => rfl
  | atom =>
    show Syntax.atom (n + 1) = _
    unfold Syntax.atom
    refine bind_congr fun kind => ?_
    -- loops and functions are read by functions of their own, which come last
    cases kind with
    | literal l => cases l <;> rfl
    | symbol s => cases s <;> rfl
    | keyword w => cases w <;> first | rfl | exact (bind_pure _).symm
    | _ => rfl
  | case =>
    show Syntax.case (n + 1) = _
    unfold Syntax.case
    refine bind_congr fun condition => bind_congr fun word => bind_congr fun separator => ?_
    cases separator with
    | false => rfl
    | true =>
      refine bind_congr fun block => bind_congr fun fin => ?_
      cases fin with
      | true => rfl
      | false =>
        refine bind_congr fun kind => bind_congr fun again => ?_
        rw [apply_ite (Script.run n)]
        rfl
  | branches => rfl
  | forLoop => rfl
  | step => rfl
  | closedBody => rfl
  | function =>
    show Syntax.function (n + 1) = _
    unfold Syntax.function
    refine bind_congr fun start => ?_
    rw [Script.run_functionName]
    refine bind_congr fun name => ?_
    rw [Script.run_parameters]
    rfl
  | functionBody => rfl
  | statements => rfl
  | moreStatements =>
    show Syntax.moreStatements (n + 1) = _
    unfold Syntax.moreStatements
    refine bind_congr fun separator => ?_
    cases separator with
    | false => rfl
    | true =>
      refine bind_congr fun skipped => bind_congr fun found => ?_
      cases found <;> rfl

/-! A reading function does the steps of its script, one level further down. -/

theorem Routine.read_separators (n : Nat) :
    separators.read (n + 1) = separators.script.run n := by
  funext c
  show Outcome.parsed () c.skipped = Script.run n (.accept _ (.call .separators .done) _) c
  rw [Script.run_accept, Script.run_call_done]
  split
  · rename_i hc
    rw [← Cursor.skipped_advance (Kind.isSeparator_iff.1 hc)]
    rfl
  · rename_i hc
    rw [Cursor.skipped_eq_self fun hk => hc (Kind.isSeparator_iff.2 hk)]
    rfl

theorem Routine.read_program (n : Nat) : program.read (n + 1) = program.script.run n := by
  show Syntax.program n = _
  unfold Syntax.program
  refine bind_congr fun root => bind_congr fun kind => ?_
  cases kind <;> rfl

theorem Routine.read_succ (r : Routine α) (n : Nat) : r.read (n + 1) = r.script.run n := by
  cases r with
  | reading r => exact r.read_succ n
  | separators => exact read_separators n
  | names => rfl
  | program => exact read_program n

end

/-! ## Steps that answer more -/

namespace Parse

variable {α β : Type}

/-- Every answer of the first step within its bound is the answer of the second. -/
def Below (p q : Parse α) : Prop := ∀ c, p c = .exhausted ∨ q c = p c

theorem Below.refl (p : Parse α) : p.Below p := fun _ => .inr rfl

theorem exhausted_below (q : Parse α) : (exhausted : Parse α).Below q := fun _ => .inl rfl

/-- Two steps in a row answer more if each of them does. -/
theorem Below.bind {p q : Parse α} {f g : α → Parse β} (h : p.Below q)
    (hf : ∀ a, (f a).Below (g a)) : (p >>= f).Below (q >>= g) := by
  intro c
  show Parse.bind p f c = _ ∨ Parse.bind q g c = Parse.bind p f c
  unfold Parse.bind
  rcases h c with h | h
  · rw [h]
    exact .inl rfl
  · rw [h]
    cases p c with
    | parsed a c₁ => exact hf a c₁
    | failed e c₁ => exact .inr rfl
    | exhausted => exact .inl rfl

/-- The same step in front of two steps. -/
theorem Below.behind (p : Parse α) {f g : α → Parse β} (hf : ∀ a, (f a).Below (g a)) :
    (p >>= f).Below (p >>= g) :=
  Below.bind (Below.refl p) hf

theorem Below.attempt {p q : Parse α} (h : p.Below q) : (attempt p).Below (attempt q) := by
  intro c
  unfold Parse.attempt
  rcases h c with h | h
  · rw [h]
    exact .inl rfl
  · rw [h]
    exact .inr rfl

theorem Below.expecting (e : Expectation) {p q : Parse α} (h : p.Below q) :
    (expecting e p).Below (expecting e q) := by
  intro c
  unfold Parse.expecting
  rcases h c with h | h
  · rw [h]
    exact .inl rfl
  · rw [h]
    exact .inr rfl

theorem Below.eq_of_ne_exhausted {p q : Parse α} (h : p.Below q) {c : Cursor}
    (hc : p c ≠ .exhausted) : q c = p c :=
  (h c).resolve_left hc

end Parse

/-! ## Larger bounds -/

/-- If a larger bound serves all reading functions, it serves the scripts that call them. -/
theorem Script.run_below {n m : Nat}
    (ih : ∀ {β : Type} (s : Routine β), (s.read n).Below (s.read m)) {α : Type} (p : Script α) :
    (p.run n).Below (p.run m) := by
  induction p with
  | done a => exact .refl _
  | fail e => exact .refl _
  | look next hnext => exact .behind _ hnext
  | lastSpan next hnext => exact .behind _ hnext
  | pass next hnext => exact .behind _ hnext
  | accept is yes no hyes hno =>
    refine .behind _ fun b => ?_
    split
    · exact hyes
    · exact hno
  | expect is e next hnext => exact .behind _ hnext
  | call s next hnext => exact .bind (ih s) hnext
  | attempt s next hnext => exact .bind (ih s).attempt hnext
  | expecting e s next hnext => exact .bind ((ih s).expecting e) hnext

/-- Without any depth nothing but separators is passed. -/
theorem Routine.read_zero_below {α : Type} (r : Routine α) (m : Nat) :
    (r.read 0).Below (r.read m) := by
  cases r with
  | reading r =>
    show (r.read 0).Below (r.read m)
    rw [r.read_zero]
    exact exhausted_below _
  | separators => exact .refl _
  | names => exact exhausted_below _
  | program => exact exhausted_below _

/-- An answer of a reading function within a bound is its answer within every larger bound. -/
theorem Routine.read_below {n m : Nat} (h : n ≤ m) {α : Type} (r : Routine α) :
    (r.read n).Below (r.read m) := by
  induction n generalizing m α with
  | zero => exact r.read_zero_below m
  | succ n ih =>
    obtain ⟨m, rfl⟩ : ∃ k, m = k + 1 := ⟨m - 1, by omega⟩
    rw [r.read_succ, r.read_succ]
    exact Script.run_below (ih (by omega)) r.script

/-- An answer within a bound is the answer within every larger bound. -/
theorem read_below {n m : Nat} (h : n ≤ m) {α : Type} (r : Nonterminal α) :
    (r.read n).Below (r.read m) :=
  Routine.read_below h (.reading r)

end UniformScript.Syntax
