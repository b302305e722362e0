import UniformScript.Proofs.Syntax.Script
import Mathlib.Order.Filter.AtTopBot.Basic

/-!
# What reading does, one construct at a time

`Reads r c a c'` says that within all large enough bounds the nonterminal `r` reads `a` at the
place `c` and goes on to `c'`.  Each construct of the grammar has a rule, whose premises say what
its parts read.  Bounds appear in no rule: a bound that is large enough for every part is found by
the filter that `Reads` is stated with.

The operators of a level do not stop an operand that is made of tighter operators only, so an atom
rises through the levels up to the first at which the token behind it is an operator.

* `Reads.eq_parsed`: an answer within some bound that is not a refusal of the bound is what is
  read.
* `reads_operand_of_call`: an atom or a call rises to an operand of any level.
* `reads_expression_of_chain`: operands and their operators rise to an expression, if no operator
  stands behind them.
* `refuses_expression`: no expression begins at a token that ends statements.
-/

namespace UniformScript

/-! ## Operators and their levels -/

/-- The kind of token that an operator is written with. -/
def BinaryOp.kind : BinaryOp → Kind
  | add => .symbol .plus
  | subtract => .symbol .minus
  | multiply => .symbol .times
  | divide => .symbol .divide
  | power => .symbol .power
  | equal => .symbol .equal
  | unequal => .symbol .unequal
  | less => .symbol .less
  | greater => .symbol .greater
  | lessEqual => .symbol .lessEqual
  | greaterEqual => .symbol .greaterEqual
  | conjunction => .keyword .conjunction
  | disjunction => .keyword .disjunction

/-- The level of an operator. -/
def BinaryOp.level : BinaryOp → Syntax.Level
  | add | subtract => .sum
  | multiply | divide => .product
  | power => .power
  | equal | unequal | less | greater | lessEqual | greaterEqual => .comparison
  | conjunction | disjunction => .junction

/-- Whether an atom can begin with a token that is no word: a literal, a name, or an opening
delimiter. -/
def Kind.opens : Kind → Bool
  | literal _ | identifier | symbol .leftParen | symbol .leftBracket => true
  | _ => false

namespace Syntax

theorem Level.operator?_kind_level (op : BinaryOp) : op.level.operator? op.kind = some op := by
  cases op <;> decide

theorem Level.operator?_kind_of_ne {level : Level} {op : BinaryOp} (h : level ≠ op.level) :
    level.operator? op.kind = none := by
  cases op <;> cases level <;> first | rfl | exact absurd rfl h

theorem Level.operator?_eq_none {k : Kind} (h : BinaryOp.ofKind? k = none) (level : Level) :
    level.operator? k = none := by
  unfold Level.operator?
  rw [h]
  rfl

open Parse

/-! ## Primitive steps in front of others -/

section

variable {α β : Type} {is : Kind → Bool} {x : Expectation} {p t : Token} {ts : List Token}
  {c c' : Cursor}

theorem look_bind {f : Kind → Parse α} : (look >>= f) c = f c.kind c := rfl

theorem lastSpan_bind {f : Span → Parse α} : (lastSpan >>= f) c = f c.previous.span c := rfl

theorem next_bind {f : Token → Parse α} (ht : t.kind ≠ .finish) :
    (next >>= f) ⟨p, t :: ts⟩ = f t ⟨t, ts⟩ := by
  refine bind_of_parsed ?_
  rw [next_apply, Cursor.advance_eq_of_rest rfl ht]

theorem accept_bind {f : Bool → Parse α} (h : is t.kind = true) (ht : t.kind ≠ .finish) :
    (accept is >>= f) ⟨p, t :: ts⟩ = f true ⟨t, ts⟩ := by
  refine bind_of_parsed ?_
  rw [accept_apply, Cursor.advance_eq_of_rest rfl ht]
  exact if_pos h

theorem accept_bind_of_not {f : Bool → Parse α} (h : ¬ is c.kind = true) :
    (accept is >>= f) c = f false c :=
  bind_of_parsed (if_neg h)

theorem expect_bind {f : Token → Parse α} (h : is t.kind = true) (ht : t.kind ≠ .finish) :
    (expect is x >>= f) ⟨p, t :: ts⟩ = f t ⟨t, ts⟩ := by
  refine bind_of_parsed ?_
  rw [expect_apply, Cursor.advance_eq_of_rest rfl ht]
  exact if_pos h

end

/-! ## Within all large enough bounds -/

open Filter

/-- Within all large enough bounds, the nonterminal reads `a` at `c` and goes on to `c'`. -/
def Reads {α : Type} (r : Nonterminal α) (c : Cursor) (a : α) (c' : Cursor) : Prop :=
  ∀ᶠ n in atTop, r.read n c = .parsed a c'

/-- Within all large enough bounds, the nonterminal fails at `c`. -/
def Refuses {α : Type} (r : Nonterminal α) (c : Cursor) : Prop :=
  ∃ e c', ∀ᶠ n in atTop, r.read n c = .failed e c'

/-- What holds one step further within all large enough bounds holds within them. -/
theorem eventually_of_succ {P : ℕ → Prop} (h : ∀ᶠ n in atTop, P (n + 1)) : ∀ᶠ n in atTop, P n := by
  rw [← map_add_atTop_eq_nat 1]
  exact h

/-- An answer within some bound that is not a refusal of the bound is what is read. -/
theorem Reads.eq_parsed {α : Type} {r : Nonterminal α} {c c' : Cursor} {a : α} {n : ℕ}
    (h : Reads r c a c') (hn : r.read n c ≠ .exhausted) : r.read n c = .parsed a c' := by
  obtain ⟨m, hm⟩ := eventually_atTop.1 h
  have hup := (read_below (Nat.le_max_left n m) r).eq_of_ne_exhausted hn
  rw [← hup]
  exact hm _ (Nat.le_max_right n m)

section

variable {p q r push name arrow sign paren close comma bracket word doWord untilWord separator
    fin : Token} {ts us vs : List Token} {c c₁ c₂ c' : Cursor} {e value left right callee : Expr}
  {first bound condition : Expr} {step : Option Expr} {body : Body} {branches : Branches}
  {args rest : List Expr} {names : List String} {level : Level} {op : BinaryOp}

/-! ## Operands and operators -/

theorem reads_bind (hpush : push.kind = .keyword .push) (hname : name.kind = .identifier)
    (harrow : arrow.kind = .symbol .arrow) (h : Reads .expression ⟨arrow, ts⟩ value c') :
    Reads .expression ⟨p, push :: name :: arrow :: ts⟩
      (.bind (push.span.through value.span) name.lexeme value) c' := by
  refine eventually_of_succ (h.mono fun n hn => ?_)
  simp only [Nonterminal.read] at hn
  show Syntax.expression (n + 1) _ = _
  unfold Syntax.expression
  rw [accept_bind (by simp [hpush]) (by simp [hpush]), if_pos rfl, lastSpan_bind,
    expect_bind (by simp [hname]) (by simp [hname]),
    expect_bind (by simp [harrow]) (by simp [harrow]), bind_of_parsed hn]
  rfl

theorem reads_expression (hc : c.kind ≠ .keyword .push) (h : Reads (.chain .junction) c e c') :
    Reads .expression c e c' := by
  refine eventually_of_succ (h.mono fun n hn => ?_)
  show Syntax.expression (n + 1) _ = _
  unfold Syntax.expression
  rw [accept_bind_of_not (by simpa using hc), if_neg (by simp)]
  exact expecting_eq_parsed_iff.2 hn

theorem reads_negation (hsign : sign.kind = .keyword .negation)
    (h : Reads .comparison ⟨sign, ts⟩ e c') :
    Reads .comparison ⟨p, sign :: ts⟩ (.unary (sign.span.through e.span) .negation e) c' := by
  refine eventually_of_succ (h.mono fun n hn => ?_)
  simp only [Nonterminal.read] at hn
  show Syntax.comparison (n + 1) _ = _
  unfold Syntax.comparison
  rw [accept_bind (by simp [hsign]) (by simp [hsign]), if_pos rfl, lastSpan_bind,
    bind_of_parsed hn]
  rfl

theorem reads_comparison (hc : c.kind ≠ .keyword .negation)
    (h : Reads (.chain .comparison) c e c') : Reads .comparison c e c' := by
  refine eventually_of_succ (h.mono fun n hn => ?_)
  show Syntax.comparison (n + 1) _ = _
  unfold Syntax.comparison
  rw [accept_bind_of_not (by simpa using hc), if_neg (by simp)]
  exact expecting_eq_parsed_iff.2 hn

theorem reads_chain (h : Reads (.operand level) c left c₁)
    (hlinks : Reads (.links level left) c₁ e c') : Reads (.chain level) c e c' := by
  refine eventually_of_succ ?_
  filter_upwards [h, hlinks] with n hn hl
  show Syntax.chain (n + 1) level c = _
  unfold Syntax.chain
  exact (bind_of_parsed hn).trans hl

theorem reads_noLink (hc : level.operator? c.kind = none) :
    Reads (.links level left) c left c := by
  refine eventually_of_succ (.of_forall fun n => ?_)
  show Syntax.links (n + 1) level left c = _
  unfold Syntax.links
  rw [look_bind, hc]
  rfl

theorem reads_link (hsign : level.operator? sign.kind = some op)
    (h : Reads (.rightOperand level) ⟨sign, ts⟩ right c₁)
    (hlinks :
      Reads (.links level (.binary (left.span.through right.span) op left right)) c₁ e c') :
    Reads (.links level left) ⟨p, sign :: ts⟩ e c' := by
  have hne : sign.kind ≠ .finish := fun hk => by
    rw [hk, Level.operator?_eq_none rfl] at hsign
    cases hsign
  refine eventually_of_succ ?_
  filter_upwards [h, hlinks] with n hn hl
  show Syntax.links (n + 1) level left _ = _
  unfold Syntax.links
  rw [look_bind, show (⟨p, sign :: ts⟩ : Cursor).kind = sign.kind from rfl, hsign]
  show (next >>= _) _ = _
  rw [next_bind hne]
  exact (bind_of_parsed hn).trans hl

/-- The nonterminal that reads the first operand of a level. -/
def Level.below : Level → Nonterminal Expr
  | .junction => .comparison
  | .comparison => .chain .sum
  | .sum => .chain .product
  | .product => .factor
  | .power => .call

theorem reads_operand (h : Reads level.below c e c') : Reads (.operand level) c e c' := by
  refine eventually_of_succ (h.mono fun n hn => ?_)
  show Syntax.operand (n + 1) level c = _
  cases level <;> exact hn

theorem reads_exponent (h : Reads .factor c e c') : Reads (.rightOperand .power) c e c' :=
  eventually_of_succ h

theorem reads_rightOperand (hlevel : level ≠ .power) (h : Reads (.operand level) c e c') :
    Reads (.rightOperand level) c e c' := by
  refine eventually_of_succ (h.mono fun n hn => ?_)
  show Syntax.rightOperand (n + 1) level c = _
  cases level with
  | power => exact absurd rfl hlevel
  | _ => exact hn

theorem reads_sign {op : UnaryOp} (hsign : UnaryOp.sign? sign.kind = some op)
    (h : Reads .factor ⟨sign, ts⟩ e c') :
    Reads .factor ⟨p, sign :: ts⟩ (.unary (sign.span.through e.span) op e) c' := by
  have hne : sign.kind ≠ .finish := fun hk => by
    rw [hk] at hsign
    cases hsign
  refine eventually_of_succ (h.mono fun n hn => ?_)
  simp only [Nonterminal.read] at hn
  show Syntax.factor (n + 1) _ = _
  unfold Syntax.factor
  rw [look_bind, show (⟨p, sign :: ts⟩ : Cursor).kind = sign.kind from rfl, hsign]
  show (next >>= _) _ = _
  rw [next_bind hne, bind_of_parsed hn]
  rfl

theorem reads_factor (hc : UnaryOp.sign? c.kind = none) (h : Reads (.chain .power) c e c') :
    Reads .factor c e c' := by
  refine eventually_of_succ (h.mono fun n hn => ?_)
  show Syntax.factor (n + 1) _ = _
  unfold Syntax.factor
  rw [look_bind, hc]
  exact hn

theorem reads_plain (h : Reads .atom c e c') (hc' : c'.kind ≠ .symbol .leftParen) :
    Reads .call c e c' := by
  refine eventually_of_succ (h.mono fun n hn => ?_)
  simp only [Nonterminal.read] at hn
  show Syntax.call (n + 1) _ = _
  unfold Syntax.call
  rw [bind_of_parsed hn, accept_bind_of_not (by simpa using hc'), if_neg (by simp)]
  rfl

theorem reads_call (h : Reads .atom c callee ⟨p, paren :: ts⟩)
    (hparen : paren.kind = .symbol .leftParen)
    (hargs : Reads (.items .rightParen .commaOrParen) ⟨paren, ts⟩ args c') :
    Reads .call c (.call (callee.span.through c'.previous.span) callee args) c' := by
  refine eventually_of_succ ?_
  filter_upwards [h, hargs] with n hn ha
  simp only [Nonterminal.read] at hn ha
  show Syntax.call (n + 1) _ = _
  unfold Syntax.call
  rw [bind_of_parsed hn, accept_bind (by simp [hparen]) (by simp [hparen]), if_pos rfl,
    bind_of_parsed ha]
  rfl

/-! ## Lists -/

theorem reads_noItems {symbol : Symbol} {x : Expectation} (hclose : close.kind = .symbol symbol) :
    Reads (.items symbol x) ⟨p, close :: ts⟩ [] ⟨close, ts⟩ := by
  refine eventually_of_succ (.of_forall fun n => ?_)
  show Syntax.items (n + 1) symbol x _ = _
  unfold Syntax.items
  rw [accept_bind (by simp [hclose]) (by simp [hclose]), if_pos rfl]
  rfl

theorem reads_items {symbol : Symbol} {x : Expectation} (hc : c.kind ≠ .symbol symbol)
    (h : Reads .expression c first c₁) (hrest : Reads .moreItems c₁ rest ⟨p, close :: ts⟩)
    (hclose : close.kind = .symbol symbol) :
    Reads (.items symbol x) c (first :: rest) ⟨close, ts⟩ := by
  refine eventually_of_succ ?_
  filter_upwards [h, hrest] with n hn hr
  simp only [Nonterminal.read] at hn hr
  show Syntax.items (n + 1) symbol x _ = _
  unfold Syntax.items
  rw [accept_bind_of_not (by simpa using hc), if_neg (by simp), bind_of_parsed hn,
    bind_of_parsed hr, expect_bind (by simp [hclose]) (by simp [hclose])]
  rfl

theorem reads_noMoreItems (hc : c.kind ≠ .symbol .comma) : Reads .moreItems c [] c := by
  refine eventually_of_succ (.of_forall fun n => ?_)
  show Syntax.moreItems (n + 1) _ = _
  unfold Syntax.moreItems
  rw [accept_bind_of_not (by simpa using hc), if_neg (by simp)]
  rfl

theorem reads_moreItems (hcomma : comma.kind = .symbol .comma)
    (h : Reads .expression ⟨comma, ts⟩ first c₁) (hrest : Reads .moreItems c₁ rest c') :
    Reads .moreItems ⟨p, comma :: ts⟩ (first :: rest) c' := by
  refine eventually_of_succ ?_
  filter_upwards [h, hrest] with n hn hr
  simp only [Nonterminal.read] at hn hr
  show Syntax.moreItems (n + 1) _ = _
  unfold Syntax.moreItems
  rw [accept_bind (by simp [hcomma]) (by simp [hcomma]), if_pos rfl, bind_of_parsed hn,
    bind_of_parsed hr]
  rfl

/-! ## Atoms -/

theorem reads_whole {t : Token} {m : Nat} (ht : t.kind = .literal (.whole m)) :
    Reads .atom ⟨p, t :: ts⟩ (.number t.span t.lexeme (Decimal.nearest m 1)) ⟨t, ts⟩ := by
  refine eventually_of_succ (.of_forall fun n => ?_)
  show Syntax.atom (n + 1) _ = _
  unfold Syntax.atom
  rw [look_bind, show (⟨p, t :: ts⟩ : Cursor).kind = t.kind from rfl, ht]
  exact next_bind (by simp [ht])

theorem reads_decimal {t : Token} {x : Float} (ht : t.kind = .literal (.decimal x)) :
    Reads .atom ⟨p, t :: ts⟩ (.number t.span t.lexeme x) ⟨t, ts⟩ := by
  refine eventually_of_succ (.of_forall fun n => ?_)
  show Syntax.atom (n + 1) _ = _
  unfold Syntax.atom
  rw [look_bind, show (⟨p, t :: ts⟩ : Cursor).kind = t.kind from rfl, ht]
  exact next_bind (by simp [ht])

theorem reads_text {t : Token} {text : String} (ht : t.kind = .literal (.text text)) :
    Reads .atom ⟨p, t :: ts⟩ (.text t.span text) ⟨t, ts⟩ := by
  refine eventually_of_succ (.of_forall fun n => ?_)
  show Syntax.atom (n + 1) _ = _
  unfold Syntax.atom
  rw [look_bind, show (⟨p, t :: ts⟩ : Cursor).kind = t.kind from rfl, ht]
  exact next_bind (by simp [ht])

theorem reads_access (hname : name.kind = .identifier)
    (hnext : (⟨name, ts⟩ : Cursor).kind ≠ .symbol .arrow) :
    Reads .atom ⟨p, name :: ts⟩ (.access name.span name.lexeme) ⟨name, ts⟩ := by
  refine eventually_of_succ (.of_forall fun n => ?_)
  show Syntax.atom (n + 1) _ = _
  unfold Syntax.atom
  rw [look_bind, show (⟨p, name :: ts⟩ : Cursor).kind = name.kind from rfl, hname]
  show (next >>= _) _ = _
  rw [next_bind (by simp [hname]), accept_bind_of_not (by simpa using hnext), if_neg (by simp)]
  rfl

theorem reads_rebind (hname : name.kind = .identifier) (harrow : arrow.kind = .symbol .arrow)
    (h : Reads .expression ⟨arrow, ts⟩ value c') :
    Reads .atom ⟨p, name :: arrow :: ts⟩
      (.rebind (name.span.through value.span) name.lexeme value) c' := by
  refine eventually_of_succ (h.mono fun n hn => ?_)
  simp only [Nonterminal.read] at hn
  show Syntax.atom (n + 1) _ = _
  unfold Syntax.atom
  rw [look_bind, show (⟨p, name :: arrow :: ts⟩ : Cursor).kind = name.kind from rfl, hname]
  show (next >>= _) _ = _
  rw [next_bind (by simp [hname]), accept_bind (by simp [harrow]) (by simp [harrow]), if_pos rfl,
    bind_of_parsed hn]
  rfl

theorem reads_paren (hparen : paren.kind = .symbol .leftParen)
    (h : Reads .expression ⟨paren, ts⟩ e ⟨p, close :: us⟩)
    (hclose : close.kind = .symbol .rightParen) :
    Reads .atom ⟨q, paren :: ts⟩ e ⟨close, us⟩ := by
  refine eventually_of_succ (h.mono fun n hn => ?_)
  simp only [Nonterminal.read] at hn
  show Syntax.atom (n + 1) _ = _
  unfold Syntax.atom
  rw [look_bind, show (⟨q, paren :: ts⟩ : Cursor).kind = paren.kind from rfl, hparen]
  show (next >>= _) _ = _
  rw [next_bind (by simp [hparen]), bind_of_parsed hn,
    expect_bind (by simp [hclose]) (by simp [hclose])]
  rfl

theorem reads_list (hbracket : bracket.kind = .symbol .leftBracket)
    (h : Reads (.items .rightBracket .commaOrBracket) ⟨bracket, ts⟩ args c') :
    Reads .atom ⟨p, bracket :: ts⟩
      (.list (bracket.span.through c'.previous.span) args) c' := by
  refine eventually_of_succ (h.mono fun n hn => ?_)
  simp only [Nonterminal.read] at hn
  show Syntax.atom (n + 1) _ = _
  unfold Syntax.atom
  rw [look_bind, show (⟨p, bracket :: ts⟩ : Cursor).kind = bracket.kind from rfl, hbracket]
  show (next >>= _) _ = _
  rw [next_bind (by simp [hbracket]), bind_of_parsed hn]
  rfl

theorem reads_choice (hword : word.kind = .keyword .ifWord)
    (h : Reads .case ⟨word, ts⟩ (condition, body, branches) c') :
    Reads .atom ⟨p, word :: ts⟩
      (.choice (word.span.through c'.previous.span) condition body branches) c' := by
  refine eventually_of_succ (h.mono fun n hn => ?_)
  simp only [Nonterminal.read] at hn
  show Syntax.atom (n + 1) _ = _
  unfold Syntax.atom
  rw [look_bind, show (⟨p, word :: ts⟩ : Cursor).kind = word.kind from rfl, hword]
  show (next >>= _) _ = _
  rw [next_bind (by simp [hword]), bind_of_parsed hn]
  rfl

theorem reads_forLoop (hc : c.kind = .keyword .forWord) (h : Reads .forLoop c e c') :
    Reads .atom c e c' := by
  refine eventually_of_succ (h.mono fun n hn => ?_)
  show Syntax.atom (n + 1) _ = _
  unfold Syntax.atom
  rw [look_bind, hc]
  exact hn

theorem reads_whileLoop (hword : word.kind = .keyword .whileWord)
    (h : Reads .expression ⟨word, ts⟩ condition ⟨p, doWord :: us⟩)
    (hdo : doWord.kind = .keyword .doWord) (hbody : Reads .closedBody ⟨doWord, us⟩ body c') :
    Reads .atom ⟨q, word :: ts⟩
      (.whileLoop (word.span.through c'.previous.span) condition body) c' := by
  refine eventually_of_succ ?_
  filter_upwards [h, hbody] with n hn hb
  simp only [Nonterminal.read] at hn hb
  show Syntax.atom (n + 1) _ = _
  unfold Syntax.atom
  rw [look_bind, show (⟨q, word :: ts⟩ : Cursor).kind = word.kind from rfl, hword]
  show (next >>= _) _ = _
  rw [next_bind (by simp [hword]), bind_of_parsed hn, expect_bind (by simp [hdo]) (by simp [hdo]),
    bind_of_parsed hb]
  rfl

theorem reads_function (hc : c.kind = .keyword .define) (h : Reads .function c e c') :
    Reads .atom c e c' := by
  refine eventually_of_succ (h.mono fun n hn => ?_)
  show Syntax.atom (n + 1) _ = _
  unfold Syntax.atom
  rw [look_bind, hc]
  exact hn

/-! ## Choices -/

/-- A case whose block is followed by the word that ends it. -/
theorem reads_closedCase {block : Program} (h : Reads .expression c condition ⟨p, doWord :: ts⟩)
    (hdo : doWord.kind = .keyword .doWord) (hts : ts = separator :: us)
    (hseparator : separator.kind = .separator)
    (hblock : Reads .statements ⟨separator, us⟩ block ⟨q, fin :: vs⟩)
    (hfin : fin.kind = .keyword .fin) :
    Reads .case c (condition, block.toBody, .nothing) ⟨fin, vs⟩ := by
  subst hts
  refine eventually_of_succ ?_
  filter_upwards [h, hblock] with n hn hb
  simp only [Nonterminal.read] at hn hb
  show Syntax.case (n + 1) _ = _
  unfold Syntax.case
  rw [bind_of_parsed hn, expect_bind (by simp [hdo]) (by simp [hdo]),
    accept_bind (by simp [hseparator]) (by simp [hseparator]), if_pos rfl, bind_of_parsed hb,
    accept_bind (by simp [hfin]) (by simp [hfin]), if_pos rfl]
  rfl

/-- A case whose block is followed by a further branch. -/
theorem reads_blockCase {block : Program} (h : Reads .expression c condition ⟨p, doWord :: ts⟩)
    (hdo : doWord.kind = .keyword .doWord) (hts : ts = separator :: us)
    (hseparator : separator.kind = .separator)
    (hblock : Reads .statements ⟨separator, us⟩ block c₁)
    (hnext : c₁.kind = .keyword .elif ∨ c₁.kind = .keyword .elseWord)
    (hbranches : Reads .branches c₁ branches c') :
    Reads .case c (condition, block.toBody, branches) c' := by
  subst hts
  refine eventually_of_succ ?_
  filter_upwards [h, hblock, hbranches] with n hn hb hr
  simp only [Nonterminal.read] at hn hb hr
  show Syntax.case (n + 1) _ = _
  unfold Syntax.case
  rw [bind_of_parsed hn, expect_bind (by simp [hdo]) (by simp [hdo]),
    accept_bind (by simp [hseparator]) (by simp [hseparator]), if_pos rfl, bind_of_parsed hb,
    accept_bind_of_not (by rcases hnext with hk | hk <;> simp [hk]), if_neg (by simp), look_bind,
    look_bind, if_pos (by rcases hnext with hk | hk <;> simp [hk]), bind_of_parsed hr]
  rfl

/-- A case whose body is an expression. -/
theorem reads_inlineCase (h : Reads .expression c condition ⟨p, doWord :: ts⟩)
    (hdo : doWord.kind = .keyword .doWord)
    (hnext : (⟨doWord, ts⟩ : Cursor).kind ≠ .separator)
    (hvalue : Reads .expression ⟨doWord, ts⟩ value c₁)
    (hbranches : Reads .branches c₁ branches c') :
    Reads .case c (condition, .inline value, branches) c' := by
  refine eventually_of_succ ?_
  filter_upwards [h, hvalue, hbranches] with n hn hv hr
  simp only [Nonterminal.read] at hn hv hr
  show Syntax.case (n + 1) _ = _
  unfold Syntax.case
  rw [bind_of_parsed hn, expect_bind (by simp [hdo]) (by simp [hdo]),
    accept_bind_of_not (by simpa using hnext), if_neg (by simp), bind_of_parsed hv,
    bind_of_parsed hr]
  rfl

theorem reads_noBranch (hc : c.kind ≠ .keyword .elif) (hc' : c.kind ≠ .keyword .elseWord) :
    Reads .branches c .nothing c := by
  refine eventually_of_succ (.of_forall fun n => ?_)
  show Syntax.branches (n + 1) _ = _
  unfold Syntax.branches
  rw [accept_bind_of_not (by simpa using hc), if_neg (by simp),
    accept_bind_of_not (by simpa using hc'), if_neg (by simp)]
  rfl

theorem reads_elif (hword : word.kind = .keyword .elif)
    (h : Reads .case ⟨word, ts⟩ (condition, body, branches) c') :
    Reads .branches ⟨p, word :: ts⟩ (.elif condition body branches) c' := by
  refine eventually_of_succ (h.mono fun n hn => ?_)
  simp only [Nonterminal.read] at hn
  show Syntax.branches (n + 1) _ = _
  unfold Syntax.branches
  rw [accept_bind (by simp [hword]) (by simp [hword]), if_pos rfl, bind_of_parsed hn]
  rfl

theorem reads_otherwise (hword : word.kind = .keyword .elseWord)
    (h : Reads .closedBody ⟨word, ts⟩ body c') :
    Reads .branches ⟨p, word :: ts⟩ (.otherwise body) c' := by
  refine eventually_of_succ (h.mono fun n hn => ?_)
  simp only [Nonterminal.read] at hn
  show Syntax.branches (n + 1) _ = _
  unfold Syntax.branches
  rw [accept_bind_of_not
      (by simp [show (⟨p, word :: ts⟩ : Cursor).kind = word.kind from rfl, hword]),
    if_neg (by simp), accept_bind (by simp [hword]) (by simp [hword]), if_pos rfl,
    bind_of_parsed hn]
  rfl

/-! ## Loops and functions -/

theorem reads_counting (hword : word.kind = .keyword .forWord) (hname : name.kind = .identifier)
    (harrow : arrow.kind = .symbol .arrow)
    (hfirst : Reads .expression ⟨arrow, ts⟩ first ⟨p, untilWord :: us⟩)
    (huntil : untilWord.kind = .keyword .untilWord)
    (hbound : Reads .expression ⟨untilWord, us⟩ bound c₁)
    (hstep : Reads .step c₁ step ⟨q, doWord :: vs⟩) (hdo : doWord.kind = .keyword .doWord)
    (hbody : Reads .closedBody ⟨doWord, vs⟩ body c') :
    Reads .forLoop ⟨r, word :: name :: arrow :: ts⟩
      (.forLoop (word.span.through c'.previous.span) name.lexeme first bound step body) c' := by
  refine eventually_of_succ ?_
  filter_upwards [hfirst, hbound, hstep, hbody] with n hf hb hs hn
  simp only [Nonterminal.read] at hf hb hs hn
  show Syntax.forLoop (n + 1) _ = _
  unfold Syntax.forLoop
  rw [next_bind (by simp [hword]), expect_bind (by simp [hname]) (by simp [hname]),
    expect_bind (by simp [harrow]) (by simp [harrow]), bind_of_parsed hf,
    expect_bind (by simp [huntil]) (by simp [huntil]), bind_of_parsed hb, bind_of_parsed hs,
    expect_bind (by simp [hdo]) (by simp [hdo]), bind_of_parsed hn]
  rfl

theorem reads_noStep (hc : c.kind ≠ .keyword .inc) : Reads .step c none c := by
  refine eventually_of_succ (.of_forall fun n => ?_)
  show Syntax.step (n + 1) _ = _
  unfold Syntax.step
  rw [accept_bind_of_not (by simpa using hc), if_neg (by simp)]
  rfl

theorem reads_step (hword : word.kind = .keyword .inc)
    (h : Reads .expression ⟨word, ts⟩ value c') :
    Reads .step ⟨p, word :: ts⟩ (some value) c' := by
  refine eventually_of_succ (h.mono fun n hn => ?_)
  simp only [Nonterminal.read] at hn
  show Syntax.step (n + 1) _ = _
  unfold Syntax.step
  rw [accept_bind (by simp [hword]) (by simp [hword]), if_pos rfl, bind_of_parsed hn]
  rfl

theorem reads_inlineBody (hc : c.kind ≠ .separator) (h : Reads .expression c value c') :
    Reads .closedBody c (.inline value) c' := by
  refine eventually_of_succ (h.mono fun n hn => ?_)
  simp only [Nonterminal.read] at hn
  show Syntax.closedBody (n + 1) _ = _
  unfold Syntax.closedBody
  rw [accept_bind_of_not (by simpa using hc), if_neg (by simp), bind_of_parsed hn]
  rfl

theorem reads_blockBody {block : Program} (hseparator : separator.kind = .separator)
    (h : Reads .statements ⟨separator, ts⟩ block ⟨p, fin :: us⟩)
    (hfin : fin.kind = .keyword .fin) :
    Reads .closedBody ⟨q, separator :: ts⟩ block.toBody ⟨fin, us⟩ := by
  refine eventually_of_succ (h.mono fun n hn => ?_)
  simp only [Nonterminal.read] at hn
  show Syntax.closedBody (n + 1) _ = _
  unfold Syntax.closedBody
  rw [accept_bind (by simp [hseparator]) (by simp [hseparator]), if_pos rfl, bind_of_parsed hn,
    expect_bind (by simp [hfin]) (by simp [hfin])]
  rfl

theorem reads_definition {name : Option String} {params : List String}
    (hword : word.kind = .keyword .define) (hname : functionName ⟨word, ts⟩ = .parsed name c₁)
    (hparams : ∀ᶠ n in atTop, parameters n c₁ = .parsed params c₂)
    (hbody : Reads .functionBody c₂ body c') :
    Reads .function ⟨p, word :: ts⟩
      (.function (word.span.through c'.previous.span) name params body) c' := by
  refine eventually_of_succ ?_
  filter_upwards [hparams, hbody] with n hp hb
  simp only [Nonterminal.read] at hb
  show Syntax.function (n + 1) _ = _
  unfold Syntax.function
  rw [next_bind (by simp [hword]), bind_of_parsed hname, bind_of_parsed hp, bind_of_parsed hb]
  rfl

theorem reads_arrowBody (harrow : arrow.kind = .symbol .arrow)
    (h : Reads .expression ⟨arrow, ts⟩ value c') :
    Reads .functionBody ⟨p, arrow :: ts⟩ (.inline value) c' := by
  refine eventually_of_succ (h.mono fun n hn => ?_)
  simp only [Nonterminal.read] at hn
  show Syntax.functionBody (n + 1) _ = _
  unfold Syntax.functionBody
  rw [accept_bind (by simp [harrow]) (by simp [harrow]), if_pos rfl, bind_of_parsed hn]
  rfl

theorem reads_functionBlock {block : Program} (hseparator : separator.kind = .separator)
    (h : Reads .statements ⟨separator, ts⟩ block ⟨p, fin :: us⟩)
    (hfin : fin.kind = .keyword .fin) :
    Reads .functionBody ⟨q, separator :: ts⟩ block.toBody ⟨fin, us⟩ := by
  refine eventually_of_succ (h.mono fun n hn => ?_)
  simp only [Nonterminal.read] at hn
  show Syntax.functionBody (n + 1) _ = _
  unfold Syntax.functionBody
  rw [accept_bind_of_not
      (by simp [show (⟨q, separator :: ts⟩ : Cursor).kind = separator.kind from rfl, hseparator]),
    if_neg (by simp), expect_bind (by simp [hseparator]) (by simp [hseparator]),
    bind_of_parsed hn, expect_bind (by simp [hfin]) (by simp [hfin])]
  rfl

/-! ## Statements -/

theorem reads_statements (h : Reads .expression (Cursor.behindSeparators p ts) first c₁)
    (hrest : Reads .moreStatements c₁ rest c') :
    Reads .statements ⟨p, ts⟩ ⟨first.span.through c'.previous.span, first :: rest⟩ c' := by
  refine eventually_of_succ ?_
  filter_upwards [h, hrest] with n hn hr
  simp only [Nonterminal.read] at hn hr
  show Syntax.statements (n + 1) _ = _
  unfold Syntax.statements
  show (skipSeparators >>= _) _ = _
  rw [bind_of_parsed (q := skipSeparators) rfl, bind_of_parsed hn, bind_of_parsed hr]
  rfl

theorem reads_noStatement (hc : c.kind ≠ .separator) : Reads .moreStatements c [] c := by
  refine eventually_of_succ (.of_forall fun n => ?_)
  show Syntax.moreStatements (n + 1) _ = _
  unfold Syntax.moreStatements
  rw [accept_bind_of_not (by simpa using hc), if_neg (by simp)]
  rfl

/-- Separators that no statement follows are passed. -/
theorem reads_trailing (hseparator : separator.kind = .separator)
    (h : Refuses .expression (Cursor.behindSeparators separator ts)) :
    Reads .moreStatements ⟨p, separator :: ts⟩ [] (Cursor.behindSeparators separator ts) := by
  obtain ⟨x, c₁, h⟩ := h
  refine eventually_of_succ (h.mono fun n hn => ?_)
  simp only [Nonterminal.read] at hn
  have hattempt : attempt (Syntax.expression n) (Cursor.behindSeparators separator ts) =
      .parsed none (Cursor.behindSeparators separator ts) := by
    unfold attempt
    rw [hn]
  show Syntax.moreStatements (n + 1) _ = _
  unfold Syntax.moreStatements
  rw [accept_bind (by simp [hseparator]) (by simp [hseparator]), if_pos rfl]
  show (skipSeparators >>= _) _ = _
  rw [bind_of_parsed (q := skipSeparators) rfl, bind_of_parsed hattempt]
  rfl

theorem reads_moreStatements (hseparator : separator.kind = .separator)
    (h : Reads .expression (Cursor.behindSeparators separator ts) first c₁)
    (hrest : Reads .moreStatements c₁ rest c') :
    Reads .moreStatements ⟨p, separator :: ts⟩ (first :: rest) c' := by
  refine eventually_of_succ ?_
  filter_upwards [h, hrest] with n hn hr
  simp only [Nonterminal.read] at hn hr
  have hattempt : attempt (Syntax.expression n) (Cursor.behindSeparators separator ts) =
      .parsed (some first) c₁ := attempt_eq_some_iff.2 hn
  show Syntax.moreStatements (n + 1) _ = _
  unfold Syntax.moreStatements
  rw [accept_bind (by simp [hseparator]) (by simp [hseparator]), if_pos rfl]
  show (skipSeparators >>= _) _ = _
  rw [bind_of_parsed (q := skipSeparators) rfl, bind_of_parsed hattempt]
  exact (bind_of_parsed hr).trans rfl

/-! ## Rising through the levels -/

/-- The next looser level. -/
def Level.looser? : Level → Option Level
  | .junction => none
  | .comparison => some .junction
  | .sum => some .comparison
  | .product => some .sum
  | .power => some .product

/-- An operand with no operator of its level behind it is a chain of one. -/
theorem reads_chain_of_operand (h : Reads (.operand level) c e c')
    (hc' : level.operator? c'.kind = none) : Reads (.chain level) c e c' :=
  reads_chain h (reads_noLink hc')

/-- What a level reads is an operand of the next looser one, if it begins with no sign that the
looser one would take. -/
theorem reads_operand_of_chain {looser : Level} (hlevel : level.looser? = some looser)
    (hsign : level = .power → UnaryOp.sign? c.kind = none) (hneg : c.kind ≠ .keyword .negation)
    (h : Reads (.chain level) c e c') : Reads (.operand looser) c e c' := by
  cases level with
  | junction => cases hlevel
  | comparison =>
    cases hlevel
    exact reads_operand (reads_comparison hneg h)
  | sum =>
    cases hlevel
    exact reads_operand h
  | product =>
    cases hlevel
    exact reads_operand h
  | power =>
    cases hlevel
    exact reads_operand (reads_factor (hsign rfl) h)

/-- A chain of any level rises to the loosest, if no operator stands behind it. -/
theorem reads_junction_of_chain (hsign : level = .power → UnaryOp.sign? c.kind = none)
    (hneg : c.kind ≠ .keyword .negation) (hc' : BinaryOp.ofKind? c'.kind = none)
    (h : Reads (.chain level) c e c') : Reads (.chain .junction) c e c' := by
  have close (l : Level) : l.operator? c'.kind = none := Level.operator?_eq_none hc' l
  have comparison (h : Reads (.chain .comparison) c e c') : Reads (.chain .junction) c e c' :=
    reads_chain_of_operand (reads_operand_of_chain rfl (by simp) hneg h) (close _)
  have sum (h : Reads (.chain .sum) c e c') : Reads (.chain .junction) c e c' :=
    comparison (reads_chain_of_operand (reads_operand_of_chain rfl (by simp) hneg h) (close _))
  have product (h : Reads (.chain .product) c e c') : Reads (.chain .junction) c e c' :=
    sum (reads_chain_of_operand (reads_operand_of_chain rfl (by simp) hneg h) (close _))
  cases level with
  | junction => exact h
  | comparison => exact comparison h
  | sum => exact sum h
  | product => exact product h
  | power =>
    exact product (reads_chain_of_operand (reads_operand_of_chain rfl hsign hneg h) (close _))

/-- A chain of any level rises to an expression, if no operator stands behind it. -/
theorem reads_expression_of_chain (hsign : level = .power → UnaryOp.sign? c.kind = none)
    (hneg : c.kind ≠ .keyword .negation) (hpush : c.kind ≠ .keyword .push)
    (hc' : BinaryOp.ofKind? c'.kind = none) (h : Reads (.chain level) c e c') :
    Reads .expression c e c' :=
  reads_expression hpush (reads_junction_of_chain hsign hneg hc' h)

/-- An atom or a call rises to an operand of any level, if only an operator of that level can stand
behind it. -/
theorem reads_operand_of_call (hsign : UnaryOp.sign? c.kind = none)
    (hneg : c.kind ≠ .keyword .negation)
    (hc' : ∀ other, other ≠ level → other.operator? c'.kind = none) (h : Reads .call c e c') :
    Reads (.operand level) c e c' := by
  have rise {tighter looser : Level} (hlevel : tighter.looser? = some looser)
      (hne : tighter ≠ level) (h : Reads (.operand tighter) c e c') :
      Reads (.operand looser) c e c' :=
    reads_operand_of_chain hlevel (fun _ => hsign) hneg (reads_chain_of_operand h (hc' _ hne))
  have power : Reads (.operand .power) c e c' := reads_operand h
  cases level with
  | power => exact power
  | product => exact rise rfl (by simp) power
  | sum => exact rise rfl (by simp) (rise rfl (by simp) power)
  | comparison => exact rise rfl (by simp) (rise rfl (by simp) (rise rfl (by simp) power))
  | junction =>
    have comparison : Reads (.operand .comparison) c e c' :=
      rise rfl (by simp) (rise rfl (by simp) (rise rfl (by simp) power))
    exact rise rfl (by simp) comparison

/-- An atom or a call rises to an expression, if no operator stands behind it. -/
theorem reads_expression_of_call (hsign : UnaryOp.sign? c.kind = none)
    (hneg : c.kind ≠ .keyword .negation) (hpush : c.kind ≠ .keyword .push)
    (hc' : BinaryOp.ofKind? c'.kind = none) (h : Reads .call c e c') :
    Reads .expression c e c' := by
  have hchain : Reads (.chain .power) c e c' :=
    reads_chain_of_operand (reads_operand h) (Level.operator?_eq_none hc' _)
  exact reads_expression_of_chain (fun _ => hsign) hneg hpush hc' hchain

/-! ## Places where no expression begins -/

theorem Refuses.operand (h : Refuses level.below c) : Refuses (.operand level) c := by
  obtain ⟨x, c₁, h⟩ := h
  refine ⟨x, c₁, eventually_of_succ (h.mono fun n hn => ?_)⟩
  show Syntax.operand (n + 1) level c = _
  cases level <;> exact hn

theorem Refuses.chain (h : Refuses (.operand level) c) : Refuses (.chain level) c := by
  obtain ⟨x, c₁, h⟩ := h
  refine ⟨x, c₁, eventually_of_succ (h.mono fun n hn => ?_)⟩
  simp only [Nonterminal.read] at hn
  show Syntax.chain (n + 1) level c = _
  unfold Syntax.chain
  exact bind_of_failed hn

theorem Refuses.factor (hc : UnaryOp.sign? c.kind = none) (h : Refuses (.chain .power) c) :
    Refuses .factor c := by
  obtain ⟨x, c₁, h⟩ := h
  refine ⟨x, c₁, eventually_of_succ (h.mono fun n hn => ?_)⟩
  show Syntax.factor (n + 1) c = _
  unfold Syntax.factor
  rw [look_bind, hc]
  exact hn

/-- Where a step fails decides how it fails under another expectation. -/
theorem expecting_of_failed (α : Type) (x y : Expectation) (c c' : Cursor) :
    ∃ z c₁, ∀ q : Parse α, q c = .failed x c' → expecting y q c = .failed z c₁ := by
  by_cases hlength : c'.rest.length = c.rest.length
  · exact ⟨y, c, fun q h => by simp [expecting, h, hlength]⟩
  · exact ⟨x, c', fun q h => by simp [expecting, h, hlength]⟩

theorem Refuses.comparison (hc : c.kind ≠ .keyword .negation)
    (h : Refuses (.chain .comparison) c) : Refuses .comparison c := by
  obtain ⟨x, c₁, h⟩ := h
  obtain ⟨y, c₂, hfail⟩ := expecting_of_failed Expr x .comparison c c₁
  refine ⟨y, c₂, eventually_of_succ (h.mono fun n hn => ?_)⟩
  show Syntax.comparison (n + 1) c = _
  unfold Syntax.comparison
  rw [accept_bind_of_not (by simpa using hc), if_neg (by simp)]
  exact hfail _ hn

theorem Refuses.expression (hc : c.kind ≠ .keyword .push) (h : Refuses (.chain .junction) c) :
    Refuses .expression c := by
  obtain ⟨x, c₁, h⟩ := h
  obtain ⟨y, c₂, hfail⟩ := expecting_of_failed Expr x .expression c c₁
  refine ⟨y, c₂, eventually_of_succ (h.mono fun n hn => ?_)⟩
  show Syntax.expression (n + 1) c = _
  unfold Syntax.expression
  rw [accept_bind_of_not (by simpa using hc), if_neg (by simp)]
  exact hfail _ hn

/-- Whether a token closes whatever is read in front of it: nothing goes on with it, and nothing
begins with it. -/
def Closes (k : Kind) : Prop :=
  k = .symbol .rightParen ∨ k = .symbol .rightBracket ∨ k = .keyword .doWord ∨
    k = .keyword .untilWord ∨ k = .keyword .fin ∨ k = .finish

/-- Whether a token ends the statements in front of it: it closes them, or begins the next
branch. -/
def EndsStatements (k : Kind) : Prop :=
  Closes k ∨ k = .keyword .elif ∨ k = .keyword .elseWord

theorem EndsStatements.ne_separator {k : Kind} (h : EndsStatements k) : k ≠ .separator := by
  rintro rfl
  simp [EndsStatements, Closes] at h

namespace Closes

variable {k : Kind}

theorem operator?_eq_none (h : Closes k) (level : Level) : level.operator? k = none := by
  refine Level.operator?_eq_none ?_ level
  rcases h with rfl | rfl | rfl | rfl | rfl | rfl <;> rfl

theorem ne_symbol (h : Closes k) {s : Symbol} (hs : ¬ Closes (.symbol s)) : k ≠ .symbol s := by
  rintro rfl
  exact hs h

theorem ne_keyword (h : Closes k) {w : Keyword} (hw : ¬ Closes (.keyword w)) : k ≠ .keyword w := by
  rintro rfl
  exact hw h

theorem ne_separator (h : Closes k) : k ≠ .separator := EndsStatements.ne_separator (.inl h)

end Closes

/-- No call begins at a token that ends statements. -/
theorem refuses_call (hc : EndsStatements c.kind) : Refuses .call c := by
  refine ⟨.atom, c, eventually_of_succ (eventually_of_succ (.of_forall fun n => ?_))⟩
  show Syntax.call (n + 2) c = _
  unfold Syntax.call
  refine bind_of_failed ?_
  unfold Syntax.atom
  rw [look_bind]
  rcases hc with (hk | hk | hk | hk | hk | hk) | hk | hk <;> rw [hk] <;> rfl

/-- No expression begins at a token that ends statements. -/
theorem refuses_expression (hc : EndsStatements c.kind) : Refuses .expression c := by
  have hsign : UnaryOp.sign? c.kind = none := by
    rcases hc with (hk | hk | hk | hk | hk | hk) | hk | hk <;> rw [hk] <;> rfl
  have hword (w : Keyword) (hw : w = .negation ∨ w = .push) : c.kind ≠ .keyword w := by
    intro hk
    rw [hk] at hc
    rcases hw with rfl | rfl <;> simp [EndsStatements, Closes] at hc
  have power : Refuses (.chain .power) c := .chain (.operand (refuses_call hc))
  have product : Refuses (.chain .product) c := .chain (.operand (.factor hsign power))
  have sum : Refuses (.chain .sum) c := .chain (.operand product)
  have comparison : Refuses (.chain .comparison) c := .chain (.operand sum)
  have junction : Refuses (.chain .junction) c :=
    .chain (.operand (.comparison (hword _ (.inl rfl)) comparison))
  exact .expression (hword _ (.inr rfl)) junction

end

end Syntax

end UniformScript
