import UniformScript.Proofs.Syntax.RoundTrip

/-!
# Operators, with what binds tighter inside

Literals, names, operators, calls and lists have a grammar of their own, in which every stratum is
made of the next tighter one: conjunction and disjunction of comparisons; comparisons of sums, with
any number of negations in front; sums of products; products of powers with any number of signs in
front; a power of a call and of a power with signs; a call of an atom with at most one list of
arguments.  `Forms` is that grammar, without a word on how a tree is found.

Reading finds every tree of the grammar.  In front of a token that does not go on with it, each
stratum is read by the nonterminal of its own; and operands that are grouped to the left are read
one after the other, whatever the last of them is followed by.  Since reading is a function, the
grammar gives no tokens two trees.

* `Forms`: the grammar.
* `Completes`: what is read where a stratum of the grammar stands.
* `completes_of_forms`: the trees of all strata are read.
* `parse_operators`: what the grammar makes of tokens is what they are read as.
-/

namespace UniformScript

namespace Syntax

open Token Filter

/-! ## The grammar -/

/-- The strata of the grammar, by the type of what they form. -/
inductive Stratum : Type → Type where
  /-- Operands and the operators of a level between them. -/
  | chain (level : Level) : Stratum Expr
  /-- A comparison, with any number of negations in front. -/
  | comparison : Stratum Expr
  /-- A power, with any number of signs in front. -/
  | sign : Stratum Expr
  /-- An atom, with at most one list of arguments behind it. -/
  | call : Stratum Expr
  /-- A literal, a name, a list, or an expression in parentheses. -/
  | atom : Stratum Expr
  /-- Any number of expressions, with commas between them. -/
  | items : Stratum (List Expr)
  /-- Any number of expressions, each behind a comma. -/
  | moreItems : Stratum (List Expr)

/-- The whole grammar. -/
abbrev Stratum.expression : Stratum Expr := .chain .junction

/-- The stratum of the operands of a level; the one behind the operator of a power is another. -/
def Level.operands : Level → Stratum Expr
  | .junction => .comparison
  | .comparison => .chain .sum
  | .sum => .chain .product
  | .product => .sign
  | .power => .call

/-- The trees that a stratum forms from tokens, without spans. -/
inductive Forms : {α : Type} → Stratum α → List Token → α → Prop where
  | operand {level : Level} {ts : List Token} {e : Expr} : Forms level.operands ts e →
    Forms (.chain level) ts e
  /-- All operators but that of powers group to the left. -/
  | join {sign : Token} {op : BinaryOp} {ts us : List Token} {left right : Expr} :
    op ≠ .power → sign.kind = op.kind → Forms (.chain op.level) ts left →
    Forms op.level.operands us right →
    Forms (.chain op.level) (ts ++ sign :: us) (.binary default op left right)
  /-- Behind the operator of a power stands a power with signs, so powers group to the right. -/
  | power {sign : Token} {ts us : List Token} {left right : Expr} :
    sign.kind = .symbol .power → Forms .call ts left → Forms .sign us right →
    Forms (.chain .power) (ts ++ sign :: us) (.binary default .power left right)
  | negation {sign : Token} {ts : List Token} {e : Expr} : sign.kind = .keyword .negation →
    Forms .comparison ts e → Forms .comparison (sign :: ts) (.unary default .negation e)
  | comparison {ts : List Token} {e : Expr} : Forms (.chain .comparison) ts e →
    Forms .comparison ts e
  | plus {sign : Token} {ts : List Token} {e : Expr} : sign.kind = .symbol .plus →
    Forms .sign ts e → Forms .sign (sign :: ts) (.unary default .plus e)
  | minus {sign : Token} {ts : List Token} {e : Expr} : sign.kind = .symbol .minus →
    Forms .sign ts e → Forms .sign (sign :: ts) (.unary default .minus e)
  | unsigned {ts : List Token} {e : Expr} : Forms (.chain .power) ts e → Forms .sign ts e
  | plain {ts : List Token} {e : Expr} : Forms .atom ts e → Forms .call ts e
  | call {paren close : Token} {ts us : List Token} {callee : Expr} {args : List Expr} :
    paren.kind = .symbol .leftParen → close.kind = .symbol .rightParen → Forms .atom ts callee →
    Forms .items us args →
    Forms .call (ts ++ paren :: (us ++ [close])) (.call default callee args)
  | whole {t : Token} {m : Nat} : t.kind = .literal (.whole m) →
    Forms .atom [t] (.number default t.lexeme (Decimal.nearest m 1))
  | decimal {t : Token} {x : Float} : t.kind = .literal (.decimal x) →
    Forms .atom [t] (.number default t.lexeme x)
  | text {t : Token} {s : String} : t.kind = .literal (.text s) → Forms .atom [t] (.text default s)
  | access {t : Token} : t.kind = .identifier → Forms .atom [t] (.access default t.lexeme)
  | paren {paren close : Token} {ts : List Token} {e : Expr} : paren.kind = .symbol .leftParen →
    close.kind = .symbol .rightParen → Forms .expression ts e →
    Forms .atom (paren :: (ts ++ [close])) e
  | list {bracket close : Token} {ts : List Token} {es : List Expr} :
    bracket.kind = .symbol .leftBracket → close.kind = .symbol .rightBracket →
    Forms .items ts es → Forms .atom (bracket :: (ts ++ [close])) (.list default es)
  | noItems : Forms .items [] []
  | items {ts us : List Token} {e : Expr} {es : List Expr} : Forms .expression ts e →
    Forms .moreItems us es → Forms .items (ts ++ us) (e :: es)
  | noMoreItems : Forms .moreItems [] []
  | moreItems {comma : Token} {ts us : List Token} {e : Expr} {es : List Expr} :
    comma.kind = .symbol .comma → Forms .expression ts e → Forms .moreItems us es →
    Forms .moreItems (comma :: (ts ++ us)) (e :: es)

/-! ## First tokens and spans -/

/-- Whether the tokens begin with one whose kind satisfies the test. -/
def BeginsWith (test : Kind → Prop) (ts : List Token) : Prop :=
  ∃ t us, ts = t :: us ∧ test t.kind

/-- What a tree of the stratum can begin with: atoms begin with no word and no operator; from the
sums to the products there may be signs in front, and negations further out. -/
def Stratum.Begins : {α : Type} → Stratum α → Kind → Prop
  | _, .chain .junction, k => k.opens = true ∨ (UnaryOp.sign? k).isSome ∨ k = .keyword .negation
  | _, .comparison, k => k.opens = true ∨ (UnaryOp.sign? k).isSome ∨ k = .keyword .negation
  | _, .chain .power, k => k.opens = true
  | _, .call, k => k.opens = true
  | _, .atom, k => k.opens = true
  | _, _, k => k.opens = true ∨ (UnaryOp.sign? k).isSome

theorem BeginsWith.append {test : Kind → Prop} {ts : List Token} (h : BeginsWith test ts)
    (us : List Token) : BeginsWith test (ts ++ us) := by
  obtain ⟨t, rest, rfl, ht⟩ := h
  exact ⟨t, rest ++ us, rfl, ht⟩

theorem BeginsWith.mono {test test' : Kind → Prop} {ts : List Token} (h : BeginsWith test ts)
    (himp : ∀ k, test k → test' k) : BeginsWith test' ts := by
  obtain ⟨t, us, rfl, ht⟩ := h
  exact ⟨t, us, rfl, himp _ ht⟩

/-- What is known of the tokens and the tree of a stratum, whatever it is. -/
def Shaped : {α : Type} → Stratum α → List Token → α → Prop
  | _, .chain level, ts, e => BeginsWith (Stratum.chain level).Begins ts ∧ e.span = default
  | _, .comparison, ts, e => BeginsWith Stratum.comparison.Begins ts ∧ e.span = default
  | _, .sign, ts, e => BeginsWith Stratum.sign.Begins ts ∧ e.span = default
  | _, .call, ts, e => BeginsWith Stratum.call.Begins ts ∧ e.span = default
  | _, .atom, ts, e => BeginsWith Stratum.atom.Begins ts ∧ e.span = default
  | _, .items, _, _ => True
  | _, .moreItems, ts, _ => ∀ t ∈ ts.head?, t.kind = .symbol .comma

theorem begins_chain_of_operands {level : Level} {k : Kind} (h : level.operands.Begins k) :
    (Stratum.chain level).Begins k := by
  cases level with
  | junction | power => exact h
  | comparison | sum | product => exact h

theorem shaped_of_forms {α : Type} {s : Stratum α} {ts : List Token} {a : α} (h : Forms s ts a) :
    Shaped s ts a := by
  induction h with
  | @operand level ts e _ ih =>
    have ih : BeginsWith level.operands.Begins ts ∧ e.span = default := by cases level <;> exact ih
    exact ⟨ih.1.mono fun _ => begins_chain_of_operands, ih.2⟩
  | join _ _ _ _ ih => exact ⟨ih.1.append _, rfl⟩
  | power _ _ _ ih => exact ⟨ih.1.append _, rfl⟩
  | negation hsign => exact ⟨⟨_, _, rfl, .inr (.inr hsign)⟩, rfl⟩
  | comparison _ ih => exact ⟨ih.1.mono fun _ hk => hk.imp_right .inl, ih.2⟩
  | plus hsign | minus hsign => exact ⟨⟨_, _, rfl, .inr (by rw [hsign]; rfl)⟩, rfl⟩
  | unsigned _ ih => exact ⟨ih.1.mono fun _ => .inl, ih.2⟩
  | plain _ ih => exact ih
  | call _ _ _ _ ih => exact ⟨ih.1.append _, rfl⟩
  | whole ht | decimal ht | text ht | access ht =>
    exact ⟨⟨_, _, rfl, by rw [ht]; rfl⟩, rfl⟩
  | paren hparen _ _ ih => exact ⟨⟨_, _, rfl, by rw [hparen]; rfl⟩, ih.2⟩
  | list hbracket _ _ _ => exact ⟨⟨_, _, rfl, by rw [hbracket]; rfl⟩, rfl⟩
  | noItems => trivial
  | items _ _ _ _ => trivial
  | noMoreItems => exact nofun
  | moreItems hcomma _ _ _ _ =>
    intro t ht
    cases ht
    exact hcomma

/-! ## Tokens behind a stratum -/

/-- How tightly the operators of a level bind. -/
def Level.tightness : Level → Nat
  | .junction => 0
  | .comparison => 1
  | .sum => 2
  | .product => 3
  | .power => 4

/-- Whether a token does not go on with a tree in front of it that only operators of some tightness
or a higher one go on with. -/
structure Frees (tightness : Nat) (k : Kind) : Prop where
  arrow : k ≠ .symbol .arrow
  paren : k ≠ .symbol .leftParen
  operator : ∀ level : Level, tightness ≤ level.tightness → level.operator? k = none

theorem Frees.mono {n m : Nat} {k : Kind} (h : Frees n k) (hle : n ≤ m) : Frees m k :=
  ⟨h.arrow, h.paren, fun level hlevel => h.operator level (Nat.le_trans hle hlevel)⟩

/-- A token that ends every expression goes on with none. -/
theorem frees_of_ends {k : Kind} (h : Ends k) (n : Nat) : Frees n k :=
  ⟨ne_arrow_of_ends h, ne_leftParen_of_ends h,
    fun level _ => Level.operator?_eq_none (ofKind?_of_ends h) level⟩

theorem ne_of_tightness_lt {level other : Level} (h : level.tightness < other.tightness) :
    other ≠ level := by
  rintro rfl
  exact Nat.lt_irrefl _ h

/-- An operator goes on with no operand of its own level. -/
theorem frees_operator (op : BinaryOp) : Frees (op.level.tightness + 1) op.kind where
  arrow := by cases op <;> simp [BinaryOp.kind]
  paren := by cases op <;> simp [BinaryOp.kind]
  operator level hlevel := Level.operator?_kind_of_ne (ne_of_tightness_lt hlevel)

/-! ## What is read -/

/-- The tokens without their spans. -/
def bare (ts : List Token) : List Token := ts.map Token.unspanned

/-- The nonterminal reads the tree in front of any token that does not go on with it. -/
def ReadsBefore (n : Nat) (r : Nonterminal Expr) (ts : List Token) (e : Expr) : Prop :=
  ∀ t us, Frees n t.kind → ReadsTo r (bare ts ++ t :: us) e (t :: us)

/-- Operands that are grouped to the left are read as the first of what stands between operators of
their level: reading goes on with the token behind them. -/
def ReadsOn (level : Level) (ts : List Token) (e : Expr) : Prop :=
  ∀ t us v vs, Frees (level.tightness + 1) t.kind → ReadsTo (.links level e) (t :: us) v vs →
    ReadsTo (.chain level) (bare ts ++ t :: us) v vs

/-- What is read where a stratum of the grammar stands. -/
def Completes : {α : Type} → Stratum α → List Token → α → Prop
  | _, .chain .power, ts, e => ReadsBefore 4 (.chain .power) ts e
  | _, .chain level, ts, e => ReadsOn level ts e
  | _, .comparison, ts, e => ReadsBefore 1 .comparison ts e
  | _, .sign, ts, e => ReadsBefore 4 .factor ts e
  | _, .call, ts, e => ReadsBefore 5 .call ts e
  | _, .atom, ts, e => ∀ t us, t.kind ≠ .symbol .arrow →
    ReadsTo .atom (bare ts ++ t :: us) e (t :: us)
  | _, .items, ts, es => ∀ (close : Symbol) (x : Expectation) (t : Token) (us : List Token),
    close = .rightParen ∨ close = .rightBracket → t.kind = .symbol close →
    ReadsTo (.items close x) (bare ts ++ t.unspanned :: us) es us
  | _, .moreItems, ts, es => ∀ t us, t.kind = .symbol .rightParen ∨
    t.kind = .symbol .rightBracket → ReadsTo .moreItems (bare ts ++ t :: us) es (t :: us)

section

variable {level : Level} {ts us : List Token} {e left right callee : Expr} {es args : List Expr}
  {sign paren close comma : Token}

theorem bare_append (ts us : List Token) : bare (ts ++ us) = bare ts ++ bare us := List.map_append

theorem bare_cons (t : Token) (ts : List Token) : bare (t :: ts) = t.unspanned :: bare ts := rfl

theorem kind_bare_append {test : Kind → Prop} (h : BeginsWith test ts) (p : Token)
    (us : List Token) : test (⟨p, bare ts ++ us⟩ : Cursor).kind := by
  obtain ⟨t, rest, rfl, ht⟩ := h
  exact ht

/-- Operands behind which no operator of their level stands. -/
theorem ReadsOn.before (h : ReadsOn level ts e) :
    ReadsBefore level.tightness (.chain level) ts e := by
  intro t us ht
  refine h t us e (t :: us) (ht.mono (Nat.le_succ _)) fun p hp => ⟨p, hp, ?_⟩
  exact reads_noLink (ht.operator level (Nat.le_refl _))

/-- The operand of a level is read in front of the operators of that level. -/
theorem readsBefore_operand (h : Completes level.operands ts e) :
    ReadsBefore (level.tightness + 1) (.operand level) ts e := by
  have rise (h : ReadsBefore (level.tightness + 1) level.below ts e) :
      ReadsBefore (level.tightness + 1) (.operand level) ts e := by
    intro t us ht p hp
    obtain ⟨last, hlast, hreads⟩ := h t us ht p hp
    exact ⟨last, hlast, reads_operand hreads⟩
  cases level with
  | comparison | sum => exact rise (ReadsOn.before h)
  | _ => exact rise h

theorem readsBefore_rightOperand (hlevel : level ≠ .power) (h : Completes level.operands ts e) :
    ReadsBefore (level.tightness + 1) (.rightOperand level) ts e := by
  intro t us ht p hp
  obtain ⟨last, hlast, hreads⟩ := readsBefore_operand h t us ht p hp
  exact ⟨last, hlast, reads_rightOperand hlevel hreads⟩

/-- One operand is read, and reading goes on with what stands behind it. -/
theorem readsOn_operand (h : Completes level.operands ts e) : ReadsOn level ts e := by
  intro t us v vs ht hlinks p hp
  obtain ⟨mid, hmid, hfirst⟩ := readsBefore_operand h t us ht p hp
  obtain ⟨last, hlast, hrest⟩ := hlinks mid hmid
  exact ⟨last, hlast, reads_chain hfirst hrest⟩

theorem completes_operand (h : Completes level.operands ts e) : Completes (.chain level) ts e := by
  cases level with
  | power =>
    have hon : ReadsOn .power ts e := readsOn_operand h
    exact hon.before
  | _ => exact readsOn_operand h

theorem readsTo_link {op : BinaryOp} {n : Nat} {t : Token} {v : Expr} {us vs : List Token}
    (hsign : sign.kind = op.kind) (hleft : left.span = default) (hright : right.span = default)
    (h : ReadsBefore n (.rightOperand op.level) ts right) (ht : Frees n t.kind)
    (hlinks : ReadsTo (.links op.level (.binary default op left right)) (t :: us) v vs) :
    ReadsTo (.links op.level left) (sign.unspanned :: (bare ts ++ t :: us)) v vs := by
  intro p hp
  obtain ⟨mid, hmid, hreads⟩ := h t us ht sign.unspanned rfl
  obtain ⟨last, hlast, hrest⟩ := hlinks mid hmid
  have hop : op.level.operator? sign.unspanned.kind = some op := by
    rw [show sign.unspanned.kind = op.kind from hsign]
    exact Level.operator?_kind_level op
  refine ⟨last, hlast, reads_link hop hreads ?_⟩
  rw [hleft, hright]
  exact hrest

/-- Operands to the left of an operator, and the one behind it. -/
theorem readsOn_join {op : BinaryOp} (hop : op.level ≠ .power) (hsign : sign.kind = op.kind)
    (hleft : ReadsOn op.level ts left) (hspan : left.span = default)
    (hright : Completes op.level.operands us right) (hspan' : right.span = default) :
    ReadsOn op.level (ts ++ sign :: us) (.binary default op left right) := by
  intro t vs v ws ht hlinks
  have hlink := readsTo_link hsign hspan hspan' (readsBefore_rightOperand hop hright) ht hlinks
  have hfrees : Frees (op.level.tightness + 1) sign.unspanned.kind := by
    rw [show sign.unspanned.kind = op.kind from hsign]
    exact frees_operator op
  rw [bare_append, bare_cons, List.append_assoc]
  exact hleft _ _ _ _ hfrees hlink

/-- A power is read up to an operator that does not bind as tightly. -/
theorem readsBefore_power (hsign : sign.kind = .symbol .power)
    (hleft : Completes Stratum.call ts left) (hspan : left.span = default)
    (hright : ReadsBefore 4 .factor us right) (hspan' : right.span = default) :
    ReadsBefore 4 (.chain .power) (ts ++ sign :: us) (.binary default .power left right) := by
  intro t vs ht
  have hfactor : ReadsBefore 4 (.rightOperand .power) us right := by
    intro t us ht p hp
    obtain ⟨last, hlast, hreads⟩ := hright t us ht p hp
    exact ⟨last, hlast, reads_exponent hreads⟩
  have hnone : ReadsTo (.links BinaryOp.power.level (.binary default .power left right)) (t :: vs)
      (.binary default .power left right) (t :: vs) :=
    fun p hp => ⟨p, hp, reads_noLink (ht.operator .power (Nat.le_refl _))⟩
  have hlink := readsTo_link hsign hspan hspan' hfactor ht hnone
  have hfrees : Frees 5 sign.unspanned.kind := by
    rw [show sign.unspanned.kind = BinaryOp.power.kind from hsign]
    exact frees_operator .power
  have hon : ReadsOn .power ts left := readsOn_operand hleft
  rw [bare_append, bare_cons, List.append_assoc]
  exact hon _ _ _ _ hfrees hlink

/-! ## Signs, calls and lists -/

theorem readsBefore_negation (hsign : sign.kind = .keyword .negation)
    (h : ReadsBefore 1 .comparison ts e) (hspan : e.span = default) :
    ReadsBefore 1 .comparison (sign :: ts) (.unary default .negation e) := by
  intro t us ht p hp
  obtain ⟨last, hlast, hreads⟩ := h t us ht sign.unspanned rfl
  refine ⟨last, hlast, ?_⟩
  have hnegation := reads_negation (p := p) (show sign.unspanned.kind = _ from hsign) hreads
  rw [hspan] at hnegation
  exact hnegation

theorem readsBefore_comparison (hbegins : BeginsWith (Stratum.chain .comparison).Begins ts)
    (h : ReadsOn .comparison ts e) : ReadsBefore 1 .comparison ts e := by
  intro t us ht p hp
  obtain ⟨last, hlast, hreads⟩ := h.before t us ht p hp
  refine ⟨last, hlast, reads_comparison ?_ hreads⟩
  intro hk
  have hfirst := kind_bare_append hbegins p (t :: us)
  rw [hk] at hfirst
  rcases hfirst with hfirst | hfirst <;> cases hfirst

theorem readsBefore_sign {op : UnaryOp} (hsign : UnaryOp.sign? sign.kind = some op)
    (h : ReadsBefore 4 .factor ts e) (hspan : e.span = default) :
    ReadsBefore 4 .factor (sign :: ts) (.unary default op e) := by
  intro t us ht p hp
  obtain ⟨last, hlast, hreads⟩ := h t us ht sign.unspanned rfl
  refine ⟨last, hlast, ?_⟩
  have hfactor :=
    reads_sign (p := p) (show UnaryOp.sign? sign.unspanned.kind = _ from hsign) hreads
  rw [hspan] at hfactor
  exact hfactor

theorem readsBefore_unsigned (hbegins : BeginsWith (Stratum.chain .power).Begins ts)
    (h : ReadsBefore 4 (.chain .power) ts e) : ReadsBefore 4 .factor ts e := by
  intro t us ht p hp
  obtain ⟨last, hlast, hreads⟩ := h t us ht p hp
  exact ⟨last, hlast, reads_factor (sign?_of_opens (kind_bare_append hbegins p (t :: us))) hreads⟩

theorem readsBefore_plain (h : Completes Stratum.atom ts e) : ReadsBefore 5 .call ts e := by
  intro t us ht p hp
  obtain ⟨last, hlast, hreads⟩ := h t us ht.arrow p hp
  exact ⟨last, hlast, reads_plain hreads ht.paren⟩

theorem readsBefore_call (hparen : paren.kind = .symbol .leftParen)
    (hclose : close.kind = .symbol .rightParen) (h : Completes Stratum.atom ts callee)
    (hspan : callee.span = default) (hargs : Completes Stratum.items us args) :
    ReadsBefore 5 .call (ts ++ paren :: (us ++ [close])) (.call default callee args) := by
  intro t vs _ p hp
  rw [bare_append, bare_cons, bare_append, List.append_assoc, List.cons_append, List.append_assoc]
  obtain ⟨mid, -, hatom⟩ := h paren.unspanned _ (by simp [hparen, Token.unspanned]) p hp
  obtain ⟨last, hlast, hitems⟩ :=
    hargs .rightParen .commaOrParen close (t :: vs) (.inl rfl) hclose paren.unspanned rfl
  have hcall := reads_call hatom (show paren.unspanned.kind = _ from hparen) hitems
  rw [hspan, hlast] at hcall
  exact ⟨last, hlast, hcall⟩

/-- An expression is read in front of a token that goes on with no expression. -/
theorem readsTo_expression_of_readsOn
    (hbegins : BeginsWith Stratum.expression.Begins ts) (h : ReadsOn .junction ts e) {t : Token}
    (ht : Ends t.kind) (us : List Token) :
    ReadsTo .expression (bare ts ++ t :: us) e (t :: us) := by
  intro p hp
  obtain ⟨last, hlast, hreads⟩ := h.before t us (frees_of_ends ht _) p hp
  refine ⟨last, hlast, reads_expression ?_ hreads⟩
  intro hk
  have hfirst := kind_bare_append hbegins p (t :: us)
  rw [hk] at hfirst
  rcases hfirst with hfirst | hfirst | hfirst <;> cases hfirst

theorem readsTo_paren_of_readsOn (hparen : paren.kind = .symbol .leftParen)
    (hclose : close.kind = .symbol .rightParen) (hbegins : BeginsWith Stratum.expression.Begins ts)
    (h : ReadsOn .junction ts e) : Completes Stratum.atom (paren :: (ts ++ [close])) e := by
  intro t us _ p hp
  rw [bare_cons, bare_append, List.cons_append, List.append_assoc]
  have hends : Ends close.unspanned.kind := by
    rw [show close.unspanned.kind = _ from hclose]
    trivial
  obtain ⟨last, -, hreads⟩ :=
    readsTo_expression_of_readsOn hbegins h hends (t :: us) paren.unspanned rfl
  exact ⟨close.unspanned, rfl, reads_paren hparen hreads hclose⟩

theorem readsTo_list_of_items {bracket : Token} (hbracket : bracket.kind = .symbol .leftBracket)
    (hclose : close.kind = .symbol .rightBracket) (h : Completes Stratum.items ts es) :
    Completes Stratum.atom (bracket :: (ts ++ [close])) (.list default es) := by
  intro t us _ p hp
  rw [bare_cons, bare_append, List.cons_append, List.append_assoc]
  obtain ⟨last, hlast, hitems⟩ :=
    h .rightBracket .commaOrBracket close (t :: us) (.inr rfl) hclose bracket.unspanned rfl
  have hlist := reads_list (p := p) (show bracket.unspanned.kind = _ from hbracket) hitems
  rw [hlast] at hlist
  exact ⟨last, hlast, hlist⟩

/-- Behind an expression of a list stands a comma or what closes the list. -/
theorem exists_ends_of_moreItems (h : Shaped Stratum.moreItems ts es) {t : Token}
    (ht : Ends t.kind) (us : List Token) : ∃ u vs, bare ts ++ t :: us = u :: vs ∧ Ends u.kind := by
  cases ts with
  | nil => exact ⟨t, us, rfl, ht⟩
  | cons comma rest =>
    refine ⟨comma.unspanned, _, rfl, ?_⟩
    rw [show comma.unspanned.kind = _ from h comma rfl]
    trivial

theorem ends_of_close {k : Kind} (h : k = .symbol .rightParen ∨ k = .symbol .rightBracket) :
    Ends k := by
  rcases h with rfl | rfl <;> trivial

theorem completes_moreItems (hcomma : comma.kind = .symbol .comma)
    (hbegins : BeginsWith Stratum.expression.Begins ts) (h : ReadsOn .junction ts e)
    (hshaped : Shaped Stratum.moreItems us es) (hrest : Completes Stratum.moreItems us es) :
    Completes Stratum.moreItems (comma :: (ts ++ us)) (e :: es) := by
  intro t vs ht p hp
  rw [bare_cons, bare_append, List.cons_append, List.append_assoc]
  obtain ⟨u, ws, heq, hends⟩ := exists_ends_of_moreItems hshaped (ends_of_close ht) vs
  obtain ⟨mid, hmid, hfirst⟩ :=
    readsTo_expression_of_readsOn hbegins h hends ws comma.unspanned rfl
  obtain ⟨last, hlast, hmore⟩ := hrest t vs ht mid hmid
  rw [heq] at hmore ⊢
  exact ⟨last, hlast, reads_moreItems hcomma hfirst hmore⟩

theorem completes_items (hbegins : BeginsWith Stratum.expression.Begins ts)
    (h : ReadsOn .junction ts e) (hshaped : Shaped Stratum.moreItems us es)
    (hrest : Completes Stratum.moreItems us es) :
    Completes Stratum.items (ts ++ us) (e :: es) := by
  intro symbol x close vs hsymbol hclose p hp
  have hkind : close.unspanned.kind = .symbol .rightParen ∨
      close.unspanned.kind = .symbol .rightBracket := by
    rw [show close.unspanned.kind = _ from hclose]
    exact hsymbol.imp (congrArg _) (congrArg _)
  rw [bare_append, List.append_assoc]
  obtain ⟨u, ws, heq, hends⟩ := exists_ends_of_moreItems hshaped (ends_of_close hkind) vs
  obtain ⟨mid, hmid, hfirst⟩ := readsTo_expression_of_readsOn hbegins h hends ws p hp
  obtain ⟨last, -, hmore⟩ := hrest close.unspanned vs hkind mid hmid
  rw [heq] at hmore ⊢
  refine ⟨close.unspanned, rfl, reads_items ?_ hfirst hmore hclose⟩
  -- No expression begins with what closes a list.
  intro hk
  have hopens := kind_bare_append hbegins p (u :: ws)
  rw [hk] at hopens
  rcases hsymbol with rfl | rfl <;> rcases hopens with h | h | h <;> cases h

end

theorem level_ne_power {op : BinaryOp} (h : op ≠ .power) : op.level ≠ .power := by
  cases op <;> first | exact absurd rfl h | simp [BinaryOp.level]

theorem completes_chain_iff {level : Level} (hlevel : level ≠ .power) {ts : List Token}
    {e : Expr} : Completes (.chain level) ts e ↔ ReadsOn level ts e := by
  cases level with
  | power => exact absurd rfl hlevel
  | _ => exact .rfl

theorem span_of_forms_operands {level : Level} {ts : List Token} {e : Expr}
    (h : Forms level.operands ts e) : e.span = default := by
  have hshaped := shaped_of_forms h
  cases level <;> exact hshaped.2

/-- The trees that the grammar gives are read. -/
theorem completes_of_forms {α : Type} {s : Stratum α} {ts : List Token} {a : α}
    (h : Forms s ts a) : Completes s ts a := by
  induction h with
  | operand _ ih => exact completes_operand ih
  | join hop hsign hleft hright ih ih' =>
    have hlevel := level_ne_power hop
    rw [completes_chain_iff hlevel] at ih ⊢
    exact readsOn_join hlevel hsign ih (shaped_of_forms hleft).2 ih'
      (span_of_forms_operands hright)
  | power hsign hleft hright ih ih' =>
    exact readsBefore_power hsign ih (shaped_of_forms hleft).2 ih' (shaped_of_forms hright).2
  | negation hsign h ih => exact readsBefore_negation hsign ih (shaped_of_forms h).2
  | comparison h ih => exact readsBefore_comparison (shaped_of_forms h).1 ih
  | plus hsign h ih | minus hsign h ih =>
    exact readsBefore_sign (by rw [hsign]; rfl) ih (shaped_of_forms h).2
  | unsigned h ih => exact readsBefore_unsigned (shaped_of_forms h).1 ih
  | plain _ ih => exact readsBefore_plain ih
  | call hparen hclose h _ ih ih' =>
    exact readsBefore_call hparen hclose ih (shaped_of_forms h).2 ih'
  | whole ht => exact fun t us _ p _ => ⟨_, rfl, reads_whole ht⟩
  | decimal ht => exact fun t us _ p _ => ⟨_, rfl, reads_decimal ht⟩
  | text ht => exact fun t us _ p _ => ⟨_, rfl, reads_text ht⟩
  | access ht => exact fun t us hne p _ => ⟨_, rfl, reads_access ht hne⟩
  | paren hparen hclose h ih =>
    exact readsTo_paren_of_readsOn hparen hclose (shaped_of_forms h).1 ih
  | list hbracket hclose _ ih => exact readsTo_list_of_items hbracket hclose ih
  | noItems => exact fun close x t us _ ht p _ => ⟨t.unspanned, rfl, reads_noItems ht⟩
  | items h hrest ih ih' =>
    exact completes_items (shaped_of_forms h).1 ih (shaped_of_forms hrest) ih'
  | noMoreItems =>
    refine fun t us ht p hp => ⟨p, hp, reads_noMoreItems fun hk => ?_⟩
    rcases ht with ht | ht <;> cases ht.symm.trans hk
  | moreItems hcomma h hrest ih ih' =>
    exact completes_moreItems hcomma (shaped_of_forms h).1 ih (shaped_of_forms hrest) ih'

/-! ## Whole token lists -/

theorem exists_parse_of_forms {ts : List Token} {e : Expr} {last : Token}
    (hlast : last.kind = .finish) (h : Forms .expression ts e) :
    ∃ p, parse (ts ++ [last]) = .ok p ∧ p.unspanned = ⟨default, [e]⟩ := by
  obtain ⟨⟨t, us, rfl, ht⟩, hspan⟩ := shaped_of_forms h
  have hbegins : BeginsWith Stratum.expression.Begins (t :: us) := ⟨t, us, rfl, ht⟩
  have hends : Ends last.unspanned.kind := by
    rw [show last.unspanned.kind = _ from hlast]
    trivial
  obtain ⟨behind, hbehind, hreads⟩ :=
    readsTo_expression_of_readsOn hbegins (completes_of_forms h) hends [] t.unspanned rfl
  have hstart : (Cursor.start (t :: us ++ [last])).unspanned =
      ⟨t.unspanned, bare (t :: us) ++ [last.unspanned]⟩ := by
    show (⟨t.unspanned, (t :: us ++ [last]).map Token.unspanned⟩ : Cursor) = _
    rw [List.map_append]
    rfl
  have hseparator : t.kind ≠ .separator := by
    intro hk
    rw [hk] at ht
    rcases ht with ht | ht | ht <;> cases ht
  have hskip : Cursor.behindSeparators t.unspanned (bare (t :: us) ++ [last.unspanned]) =
      ⟨t.unspanned, bare (t :: us) ++ [last.unspanned]⟩ :=
    Cursor.skipped_eq_self (c := ⟨t.unspanned, bare (t :: us) ++ [last.unspanned]⟩) hseparator
  have hnone : Reads .moreStatements ⟨behind, [last.unspanned]⟩ [] ⟨behind, [last.unspanned]⟩ := by
    refine reads_noStatement ?_
    show last.kind ≠ .separator
    simp [hlast]
  rw [← hskip] at hreads
  have hstatements := reads_statements hreads hnone
  rw [← hstart, hspan, hbehind] at hstatements
  exact exists_parse_of_reads hstatements hlast

/-- On the operators, reading is complete and trees are unique.  Whatever tokens the grammar gives
a tree, it gives them no other one, and with the end of the text behind them they are read as a
program of one statement, which is that tree up to spans. -/
theorem parse_operators {ts : List Token} {e : Expr} {last : Token}
    (hlast : last.kind = .finish) (h : Forms .expression ts e) :
    (∀ e', Forms .expression ts e' → e' = e) ∧
      ∃ p, parse (ts ++ [last]) = .ok p ∧ p.unspanned = ⟨default, [e]⟩ := by
  obtain ⟨p, hparse, hp⟩ := exists_parse_of_forms hlast h
  refine ⟨fun e' h' => ?_, p, hparse, hp⟩
  obtain ⟨p', hparse', hp'⟩ := exists_parse_of_forms hlast h'
  rw [hparse] at hparse'
  cases hparse'
  rw [hp] at hp'
  cases hp'
  rfl

/-- The tokens of `-a ^ -b & : f(c) == [d]`: the sign in front takes the whole power, and the
negation the whole comparison. -/
theorem parse_operators_mixed :
    let ts := [ofUnary .minus, ofName "a", ofBinary .power, ofUnary .minus, ofName "b",
      ofBinary .conjunction, ofUnary .negation, ofName "f", ofSymbol .leftParen, ofName "c",
      ofSymbol .rightParen, ofBinary .equal, ofSymbol .leftBracket, ofName "d",
      ofSymbol .rightBracket]
    let left := .unary default .minus (.binary default .power (.access default "a")
      (.unary default .minus (.access default "b")))
    let right := .unary default .negation (.binary default .equal
      (.call default (.access default "f") [.access default "c"])
      (.list default [.access default "d"]))
    let e := .binary default .conjunction left right
    Forms .expression ts e ∧ (∀ e', Forms .expression ts e' → e' = e) ∧
      ∃ p, parse (ts ++ [finishAt (Position.start ⟨"<stdin>", ""⟩)]) = .ok p ∧
        p.unspanned = ⟨default, [e]⟩ := by
  intro ts left right e
  have name (x : String) : Forms .atom [ofName x] (.access default x) := .access rfl
  have sum {ts : List Token} {e : Expr} (h : Forms .sign ts e) : Forms (.chain .sum) ts e :=
    .operand (.operand h)
  have operand {ts : List Token} {e : Expr} (h : Forms .call ts e) : Forms (.chain .sum) ts e :=
    sum (.unsigned (.operand h))
  have item (x : String) : Forms .items [ofName x] [.access default x] :=
    .items (.operand (.comparison (.operand (operand (.plain (name x)))))) .noMoreItems
  have hpower : Forms (.chain .power)
      [ofName "a", ofBinary .power, ofUnary .minus, ofName "b"] _ :=
    .power rfl (.plain (name "a")) (.minus rfl (.unsigned (.operand (.plain (name "b")))))
  have hcall : Forms .call
      [ofName "f", ofSymbol .leftParen, ofName "c", ofSymbol .rightParen] _ :=
    .call rfl rfl (name "f") (item "c")
  have hlist : Forms .atom [ofSymbol .leftBracket, ofName "d", ofSymbol .rightBracket] _ :=
    .list rfl rfl (item "d")
  have hequal : Forms (.chain BinaryOp.equal.level)
      ([ofName "f", ofSymbol .leftParen, ofName "c", ofSymbol .rightParen] ++ ofBinary .equal ::
        [ofSymbol .leftBracket, ofName "d", ofSymbol .rightBracket])
      (.binary default .equal _ _) :=
    .join (by simp) rfl (.operand (operand hcall)) (operand (.plain hlist))
  have hleft : Forms (.chain .junction)
      [ofUnary .minus, ofName "a", ofBinary .power, ofUnary .minus, ofName "b"] left :=
    .operand (.comparison (.operand (sum (.minus rfl (.unsigned hpower)))))
  have hright : Forms .comparison (ofUnary .negation :: _) right :=
    .negation rfl (.comparison hequal)
  have hforms : Forms (.chain BinaryOp.conjunction.level) (_ ++ ofBinary .conjunction :: _) e :=
    .join (by simp) rfl hleft hright
  exact ⟨hforms, parse_operators rfl hforms⟩

end Syntax

end UniformScript
