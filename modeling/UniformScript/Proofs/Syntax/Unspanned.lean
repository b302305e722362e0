import UniformScript.Proofs.Syntax.Nonterminal

/-!
# Trees and tokens without their spans

Two trees are the same up to spans if they are the same once all spans are forgotten.  Forgetting
puts one and the same span in the place of every other, in trees and in tokens alike.

Reading looks at the kinds and the lexemes of tokens and never at their spans: to forget the spans
of the tokens and read is to read and forget the spans of the tree.

* `Parse.Blind` relates a step to the step that does its work on tokens without spans.
* `read_succ_blind`: if the reading functions within a bound look at no span, neither do those
  within the next larger one; `BlindAt` has one lemma for each of them.
* `read_blind`: no reading function looks at a span.
-/

namespace UniformScript

/-! ## Forgetting spans -/

/-- The token without its span. -/
def Token.unspanned (t : Token) : Token := ⟨t.kind, t.lexeme, default⟩

@[simp] theorem Token.lexeme_unspanned (t : Token) : t.unspanned.lexeme = t.lexeme := rfl

@[simp] theorem Token.span_unspanned (t : Token) : t.unspanned.span = default := rfl

@[simp] theorem Span.through_default : (default : Span).through default = default := rfl

mutual

/-- The expression without its spans. -/
def Expr.unspanned : Expr → Expr
  | .number _ lexeme value => .number default lexeme value
  | .text _ value => .text default value
  | .list _ elements => .list default (unspannedAll elements)
  | .access _ name => .access default name
  | .bind _ name value => .bind default name value.unspanned
  | .rebind _ name value => .rebind default name value.unspanned
  | .unary _ op operand => .unary default op operand.unspanned
  | .binary _ op left right => .binary default op left.unspanned right.unspanned
  | .choice _ condition body rest =>
    .choice default condition.unspanned body.unspanned rest.unspanned
  | .forLoop _ name first bound step body =>
    .forLoop default name first.unspanned bound.unspanned (unspannedStep step) body.unspanned
  | .whileLoop _ condition body => .whileLoop default condition.unspanned body.unspanned
  | .function _ name params body => .function default name params body.unspanned
  | .call _ callee args => .call default callee.unspanned (unspannedAll args)

/-- The body without its spans. -/
def Body.unspanned : Body → Body
  | .inline value => .inline value.unspanned
  | .block _ statements => .block default (unspannedAll statements)

/-- The branches without their spans. -/
def Branches.unspanned : Branches → Branches
  | .nothing => .nothing
  | .elif condition body rest => .elif condition.unspanned body.unspanned rest.unspanned
  | .otherwise body => .otherwise body.unspanned

/-- The step of a counting loop without its spans. -/
def unspannedStep : Option Expr → Option Expr
  | none => none
  | some step => some step.unspanned

/-- The expressions of a list without their spans. -/
def unspannedAll : List Expr → List Expr
  | [] => []
  | e :: rest => e.unspanned :: unspannedAll rest

end

/-- The program without its spans. -/
def Program.unspanned (p : Program) : Program := ⟨default, unspannedAll p.statements⟩

@[simp] theorem Expr.span_unspanned (e : Expr) : e.unspanned.span = default := by
  cases e <;> rfl

@[simp] theorem Body.isBlock_unspanned (b : Body) : b.unspanned.isBlock = b.isBlock := by
  cases b <;> rfl

namespace Syntax

/-- The place without the spans of the tokens around it. -/
def Cursor.unspanned (c : Cursor) : Cursor :=
  ⟨c.previous.unspanned, c.rest.map Token.unspanned⟩

/-- The answer without spans, where `forget` takes them from the value read. -/
def Outcome.unspanned {α : Type} (forget : α → α) : Outcome α → Outcome α
  | parsed a c => parsed (forget a) c.unspanned
  | failed e c => failed e c.unspanned
  | exhausted => exhausted

namespace Cursor

@[simp] theorem kind_unspanned (c : Cursor) : c.unspanned.kind = c.kind := by
  obtain ⟨previous, rest⟩ := c
  cases rest <;> rfl

@[simp] theorem length_rest_unspanned (c : Cursor) :
    c.unspanned.rest.length = c.rest.length :=
  List.length_map _

theorem advance_unspanned (c : Cursor) : c.unspanned.advance = c.advance.unspanned := by
  obtain ⟨previous, rest⟩ := c
  cases rest with
  | nil => rfl
  | cons t ts =>
    obtain ⟨kind, lexeme, span⟩ := t
    cases kind <;> rfl

theorem behindSeparators_unspanned (previous : Token) (ts : List Token) :
    behindSeparators previous.unspanned (ts.map Token.unspanned) =
      (behindSeparators previous ts).unspanned := by
  induction ts generalizing previous with
  | nil => rfl
  | cons t ts ih =>
    obtain ⟨kind, lexeme, span⟩ := t
    cases kind with
    | separator => exact ih ⟨.separator, lexeme, span⟩
    | _ => rfl

end Cursor

/-! ## Steps that look at no span -/

namespace Parse

variable {α β : Type}

/-- The second step does on tokens without spans what the first does on the tokens themselves;
`forget` takes the spans from what is read. -/
def Blind (forget : α → α) (p q : Parse α) : Prop :=
  ∀ c : Cursor, q c.unspanned = (p c).unspanned forget

namespace Blind

variable {forget : α → α} {forget' : β → β}

theorem pure {a b : α} (h : forget a = b) :
    Blind forget (Pure.pure a) (Pure.pure b) := by
  subst h
  exact fun _ => rfl

theorem exhausted : Blind forget Parse.exhausted Parse.exhausted := fun _ => rfl

theorem fail (e : Expectation) : Blind forget (Parse.fail e) (Parse.fail e) := fun _ => rfl

/-- Two steps in a row look at no span if neither does. -/
theorem bind {p q : Parse α} {f g : α → Parse β} (h : Blind forget p q)
    (hf : ∀ a, Blind forget' (f a) (g (forget a))) : Blind forget' (p >>= f) (q >>= g) := by
  intro c
  show Parse.bind q g c.unspanned = (Parse.bind p f c).unspanned forget'
  unfold Parse.bind
  rw [h c]
  cases p c with
  | parsed a c₁ => exact hf a c₁
  | failed e c₁ => rfl
  | exhausted => rfl

theorem look {f g : Kind → Parse α} (hf : ∀ k, Blind forget (f k) (g k)) :
    Blind forget (Parse.look >>= f) (Parse.look >>= g) := by
  intro c
  show g c.unspanned.kind c.unspanned = _
  rw [Cursor.kind_unspanned]
  exact hf c.kind c

theorem lastSpan {f g : Span → Parse α} (hf : ∀ s, Blind forget (f s) (g default)) :
    Blind forget (Parse.lastSpan >>= f) (Parse.lastSpan >>= g) :=
  fun c => hf c.previous.span c

theorem next {f g : Token → Parse α} (hf : ∀ t, Blind forget (f t) (g t.unspanned)) :
    Blind forget (Parse.next >>= f) (Parse.next >>= g) := by
  intro c
  show g c.unspanned.advance.previous c.unspanned.advance = _
  rw [Cursor.advance_unspanned]
  exact hf c.advance.previous c.advance

theorem accept (is : Kind → Bool) {f g : Bool → Parse α} (hf : ∀ b, Blind forget (f b) (g b)) :
    Blind forget (Parse.accept is >>= f) (Parse.accept is >>= g) := by
  have haccept : Blind id (Parse.accept is) (Parse.accept is) := by
    intro c
    rw [accept_apply, accept_apply, Cursor.kind_unspanned, Cursor.advance_unspanned]
    split <;> rfl
  exact bind haccept hf

theorem expect (is : Kind → Bool) (e : Expectation) {f g : Token → Parse α}
    (hf : ∀ t, Blind forget (f t) (g t.unspanned)) :
    Blind forget (Parse.expect is e >>= f) (Parse.expect is e >>= g) := by
  have hexpect : Blind Token.unspanned (Parse.expect is e) (Parse.expect is e) := by
    intro c
    rw [expect_apply, expect_apply, Cursor.kind_unspanned, Cursor.advance_unspanned]
    split <;> rfl
  exact bind hexpect hf

theorem skipSeparators {f g : Unit → Parse α} (hf : ∀ u, Blind forget (f u) (g u)) :
    Blind forget (Parse.skipSeparators >>= f) (Parse.skipSeparators >>= g) := by
  have hskip : Blind id Parse.skipSeparators Parse.skipSeparators := fun c =>
    congrArg (Outcome.parsed ()) (Cursor.behindSeparators_unspanned c.previous c.rest)
  exact bind hskip hf

theorem attempt {p q : Parse α} (h : Blind forget p q) :
    Blind (Option.map forget) (Parse.attempt p) (Parse.attempt q) := by
  intro c
  unfold Parse.attempt
  rw [h c]
  cases p c <;> rfl

theorem expecting (e : Expectation) {p q : Parse α} (h : Blind forget p q) :
    Blind forget (Parse.expecting e p) (Parse.expecting e q) := by
  intro c
  unfold Parse.expecting
  rw [h c]
  cases p c with
  | failed e' c₁ =>
    simp only [Outcome.unspanned, Cursor.length_rest_unspanned]
    split <;> rfl
  | parsed a c₁ => rfl
  | exhausted => rfl

end Blind

end Parse

/-! ## Nonterminals -/

/-- What is left of a value read when its spans are forgotten. -/
def Nonterminal.forget {α : Type} : Nonterminal α → α → α
  | expression | comparison | chain _ | links _ _ | operand _ | rightOperand _ | factor | call
  | atom | forLoop | function => Expr.unspanned
  | items _ _ | moreItems | moreStatements => unspannedAll
  | case => fun parts => (parts.1.unspanned, parts.2.1.unspanned, parts.2.2.unspanned)
  | branches => Branches.unspanned
  | step => unspannedStep
  | closedBody | functionBody => Body.unspanned
  | statements => Program.unspanned

/-- The nonterminal that continues the operand without its spans. -/
def Nonterminal.unspanned {α : Type} : Nonterminal α → Nonterminal α
  | links level left => links level left.unspanned
  | r => r

open Parse

theorem moreNames_blind (n : Nat) : Blind id (moreNames n) (moreNames n) := by
  induction n with
  | zero => exact .exhausted
  | succ n ih =>
    unfold moreNames
    refine .accept _ fun comma => ?_
    split
    · exact .expect _ _ fun name => .bind ih fun names => .pure rfl
    · exact .pure rfl

theorem parameters_blind (n : Nat) : Blind id (parameters n) (parameters n) := by
  unfold parameters
  refine .look fun kind => ?_
  split
  · refine .next fun name => .bind (moreNames_blind n) fun names => ?_
    exact .expect _ _ fun close => .pure rfl
  · exact .expect _ _ fun close => .pure rfl

theorem functionName_blind : Blind id functionName functionName := by
  unfold functionName
  refine .look fun kind => ?_
  split
  · exact .next fun name => .expect _ _ fun paren => .pure rfl
  · exact .expect _ _ fun paren => .pure rfl

/-- No reading function within the bound looks at a span. -/
def BlindAt (n : Nat) : Prop :=
  ∀ {α : Type} (r : Nonterminal α), Blind r.forget (r.read n) (r.unspanned.read n)

namespace BlindAt

variable {n : Nat} {level : Level}

theorem expression (ih : BlindAt n) :
    Blind Expr.unspanned (Syntax.expression (n + 1)) (Syntax.expression (n + 1)) := by
  unfold Syntax.expression
  refine .accept _ fun push => ?_
  split
  · refine .lastSpan fun start => .expect _ _ fun name => .expect _ _ fun arrow => ?_
    exact .bind (ih .expression) fun value => .pure (by simp [Expr.unspanned, Nonterminal.forget])
  · exact .expecting _ (ih (.chain .junction))

theorem comparison (ih : BlindAt n) :
    Blind Expr.unspanned (Syntax.comparison (n + 1)) (Syntax.comparison (n + 1)) := by
  unfold Syntax.comparison
  refine .accept _ fun negation => ?_
  split
  · refine .lastSpan fun start => .bind (ih .comparison) fun operand => ?_
    exact .pure (by simp [Expr.unspanned, Nonterminal.forget])
  · exact .expecting _ (ih (.chain .comparison))

theorem chain (ih : BlindAt n) :
    Blind Expr.unspanned (Syntax.chain (n + 1) level) (Syntax.chain (n + 1) level) := by
  unfold Syntax.chain
  exact .bind (ih (.operand level)) fun left => ih (.links level left)

/-- The operand that a chain has in hand is read on without its spans. -/
theorem links (ih : BlindAt n) (left : Expr) :
    Blind Expr.unspanned (Syntax.links (n + 1) level left)
      (Syntax.links (n + 1) level left.unspanned) := by
  unfold Syntax.links
  refine .look fun kind => ?_
  cases level.operator? kind with
  | none => exact .pure rfl
  | some op =>
    refine .next fun sign => .bind (ih (.rightOperand level)) fun right => ?_
    have hlinks := ih (.links level (.binary (left.span.through right.span) op left right))
    simp only [Nonterminal.forget, Nonterminal.unspanned, Nonterminal.read,
      Expr.unspanned, Expr.span_unspanned] at hlinks ⊢
    exact hlinks

theorem operand (ih : BlindAt n) :
    Blind Expr.unspanned (Syntax.operand (n + 1) level) (Syntax.operand (n + 1) level) := by
  cases level with
  | junction => exact ih .comparison
  | comparison => exact ih (.chain .sum)
  | sum => exact ih (.chain .product)
  | product => exact ih .factor
  | power => exact ih .call

theorem rightOperand (ih : BlindAt n) :
    Blind Expr.unspanned (Syntax.rightOperand (n + 1) level)
      (Syntax.rightOperand (n + 1) level) := by
  cases level with
  | junction => exact ih (.operand .junction)
  | comparison => exact ih (.operand .comparison)
  | sum => exact ih (.operand .sum)
  | product => exact ih (.operand .product)
  | power => exact ih .factor

theorem factor (ih : BlindAt n) :
    Blind Expr.unspanned (Syntax.factor (n + 1)) (Syntax.factor (n + 1)) := by
  unfold Syntax.factor
  refine .look fun kind => ?_
  cases UnaryOp.sign? kind with
  | none => exact ih (.chain .power)
  | some op =>
    refine .next fun sign => .bind (ih .factor) fun operand => .pure ?_
    simp [Expr.unspanned, Nonterminal.forget]

theorem call (ih : BlindAt n) :
    Blind Expr.unspanned (Syntax.call (n + 1)) (Syntax.call (n + 1)) := by
  unfold Syntax.call
  refine .bind (ih .atom) fun callee => .accept _ fun paren => ?_
  split
  · refine .bind (ih (.items .rightParen .commaOrParen)) fun args => .lastSpan fun last => .pure ?_
    simp [Expr.unspanned, Nonterminal.forget]
  · exact .pure rfl

theorem items (ih : BlindAt n) (close : Symbol) (e : Expectation) :
    Blind unspannedAll (Syntax.items (n + 1) close e) (Syntax.items (n + 1) close e) := by
  unfold Syntax.items
  refine .accept _ fun closed => ?_
  split
  · exact .pure rfl
  · refine .bind (ih .expression) fun first => .bind (ih .moreItems) fun rest => ?_
    exact .expect _ _ fun closing => .pure rfl

theorem moreItems (ih : BlindAt n) :
    Blind unspannedAll (Syntax.moreItems (n + 1)) (Syntax.moreItems (n + 1)) := by
  unfold Syntax.moreItems
  refine .accept _ fun comma => ?_
  split
  · exact .bind (ih .expression) fun first => .bind (ih .moreItems) fun rest => .pure rfl
  · exact .pure rfl

theorem atom (ih : BlindAt n) :
    Blind Expr.unspanned (Syntax.atom (n + 1)) (Syntax.atom (n + 1)) := by
  unfold Syntax.atom
  refine .look fun kind => ?_
  split
  · exact .next fun token => .pure rfl
  · exact .next fun token => .pure rfl
  · exact .next fun token => .pure rfl
  · refine .next fun name => .accept _ fun arrow => ?_
    split
    · refine .bind (ih .expression) fun value => .pure ?_
      simp [Expr.unspanned, Nonterminal.forget]
    · exact .pure rfl
  · refine .next fun paren => .bind (ih .expression) fun inner => ?_
    exact .expect _ _ fun close => .pure rfl
  · refine .next fun start => .bind (ih (.items .rightBracket .commaOrBracket)) fun elements => ?_
    exact .lastSpan fun last => .pure rfl
  · exact .next fun start => .bind (ih .case) fun parts => .lastSpan fun last => .pure rfl
  · exact ih .forLoop
  · refine .next fun start => .bind (ih .expression) fun condition => .expect _ _ fun word => ?_
    exact .bind (ih .closedBody) fun body => .lastSpan fun last => .pure rfl
  · exact ih .function
  · exact .fail _

theorem case (ih : BlindAt n) :
    Blind Nonterminal.case.forget (Syntax.case (n + 1)) (Syntax.case (n + 1)) := by
  unfold Syntax.case
  refine .bind (ih .expression) fun condition => ?_
  refine .expect _ _ fun word => .accept _ fun separator => ?_
  split
  · refine .bind (ih .statements) fun block => .accept _ fun fin => ?_
    split
    · exact .pure rfl
    · refine .look fun kind => .look fun kind' => ?_
      split
      · exact .bind (ih .branches) fun rest => .pure rfl
      · exact .fail _
  · exact .bind (ih .expression) fun value => .bind (ih .branches) fun rest => .pure rfl

theorem branches (ih : BlindAt n) :
    Blind Branches.unspanned (Syntax.branches (n + 1)) (Syntax.branches (n + 1)) := by
  unfold Syntax.branches
  refine .accept _ fun elif => ?_
  split
  · exact .bind (ih .case) fun parts => .pure rfl
  · refine .accept _ fun otherwise => ?_
    split
    · exact .bind (ih .closedBody) fun body => .pure rfl
    · exact .pure rfl

theorem forLoop (ih : BlindAt n) :
    Blind Expr.unspanned (Syntax.forLoop (n + 1)) (Syntax.forLoop (n + 1)) := by
  unfold Syntax.forLoop
  refine .next fun start => .expect _ _ fun name => .expect _ _ fun arrow => ?_
  refine .bind (ih .expression) fun first => .expect _ _ fun word => ?_
  refine .bind (ih .expression) fun bound => .bind (ih .step) fun step => ?_
  refine .expect _ _ fun word => .bind (ih .closedBody) fun body => ?_
  exact .lastSpan fun last => .pure rfl

theorem step (ih : BlindAt n) :
    Blind unspannedStep (Syntax.step (n + 1)) (Syntax.step (n + 1)) := by
  unfold Syntax.step
  refine .accept _ fun word => ?_
  split
  · exact .bind (ih .expression) fun value => .pure rfl
  · exact .pure rfl

theorem closedBody (ih : BlindAt n) :
    Blind Body.unspanned (Syntax.closedBody (n + 1)) (Syntax.closedBody (n + 1)) := by
  unfold Syntax.closedBody
  refine .accept _ fun separator => ?_
  split
  · exact .bind (ih .statements) fun block => .expect _ _ fun fin => .pure rfl
  · exact .bind (ih .expression) fun value => .pure rfl

theorem function (ih : BlindAt n) :
    Blind Expr.unspanned (Syntax.function (n + 1)) (Syntax.function (n + 1)) := by
  unfold Syntax.function
  refine .next fun start => .bind functionName_blind fun name => ?_
  refine .bind (parameters_blind n) fun params => ?_
  exact .bind (ih .functionBody) fun body => .lastSpan fun last => .pure rfl

theorem functionBody (ih : BlindAt n) :
    Blind Body.unspanned (Syntax.functionBody (n + 1)) (Syntax.functionBody (n + 1)) := by
  unfold Syntax.functionBody
  refine .accept _ fun arrow => ?_
  split
  · exact .bind (ih .expression) fun value => .pure rfl
  · refine .expect _ _ fun separator => .bind (ih .statements) fun block => ?_
    exact .expect _ _ fun fin => .pure rfl

theorem statements (ih : BlindAt n) :
    Blind Program.unspanned (Syntax.statements (n + 1)) (Syntax.statements (n + 1)) := by
  unfold Syntax.statements
  refine .skipSeparators fun skipped => .bind (ih .expression) fun first => ?_
  refine .bind (ih .moreStatements) fun rest => .lastSpan fun last => .pure ?_
  simp [Program.unspanned, unspannedAll, Nonterminal.forget]

theorem moreStatements (ih : BlindAt n) :
    Blind unspannedAll (Syntax.moreStatements (n + 1)) (Syntax.moreStatements (n + 1)) := by
  unfold Syntax.moreStatements
  refine .accept _ fun separator => ?_
  split
  · refine .skipSeparators fun skipped => .bind (ih .expression).attempt fun found => ?_
    cases found with
    | none => exact .pure rfl
    | some first => exact .bind (ih .moreStatements) fun rest => .pure rfl
  · exact .pure rfl

end BlindAt

/-- If the reading functions within a bound look at no span, neither do those within the next
larger one. -/
theorem read_succ_blind {n : Nat} (ih : BlindAt n) : BlindAt (n + 1) := by
  intro α r
  cases r with
  | expression => exact ih.expression
  | comparison => exact ih.comparison
  | chain level => exact ih.chain
  | links level left => exact ih.links left
  | operand level => exact ih.operand
  | rightOperand level => exact ih.rightOperand
  | factor => exact ih.factor
  | call => exact ih.call
  | items close e => exact ih.items close e
  | moreItems => exact ih.moreItems
  | atom => exact ih.atom
  | case => exact ih.case
  | branches => exact ih.branches
  | forLoop => exact ih.forLoop
  | step => exact ih.step
  | closedBody => exact ih.closedBody
  | function => exact ih.function
  | functionBody => exact ih.functionBody
  | statements => exact ih.statements
  | moreStatements => exact ih.moreStatements

/-- No reading function looks at a span. -/
theorem read_blind {α : Type} (r : Nonterminal α) (n : Nat) :
    Blind r.forget (r.read n) (r.unspanned.read n) := by
  induction n generalizing α with
  | zero =>
    rw [r.read_zero, r.unspanned.read_zero]
    exact .exhausted
  | succ n ih => exact read_succ_blind ih r

end Syntax

end UniformScript
