import UniformScript.Proofs.Syntax.CanonicalTokens

/-!
# Canonical tokens read back

Reading the tokens of a canonical text gives the tree again, without its spans.  An expression
other than a call is an atom there; it stands in parentheses or is a single token.  A call is its
callee with a list of arguments behind it, and since an atom takes only one such list, the callee
of a call must not be a call itself.

Every construct is shown to read back under the assumption that its parts do, so that the tree is
taken apart only once, at the end.

* `Expr.Readable`, `Body.Readable`, `Branches.Readable`: what reading back means for each sort of
  tree, with any tokens behind.
* `readsTo_statements`: statements on lines of their own read back.
* `readable`: every well-formed expression reads back, if no callee in it is a call.
-/

namespace UniformScript

/-! ## Calls -/

/-- Whether the expression is a call. -/
def Expr.isCall : Expr → Bool
  | call _ _ _ => true
  | _ => false

/-- The expression does not call what another call gives. -/
def Expr.PlainCallee (e : Expr) : Prop :=
  match e with
  | call _ callee _ => callee.isCall = false
  | _ => True

instance : DecidablePred Expr.PlainCallee := fun e => by
  unfold Expr.PlainCallee
  split <;> infer_instance

/-- No call in the program has a call as its callee. -/
def Program.PlainCallees (p : Program) : Prop := p.Everywhere Expr.PlainCallee fun _ => True

instance (p : Program) : Decidable p.PlainCallees :=
  inferInstanceAs (Decidable (p.Everywhere Expr.PlainCallee fun _ => True))

namespace Syntax

open Token Filter

/-! ## Tokens behind an expression -/

/-- Whether a token ends every expression in front of it. -/
def Ends : Kind → Prop
  | .symbol .rightParen | .symbol .rightBracket | .symbol .comma => True
  | .keyword .doWord | .keyword .untilWord | .keyword .inc => True
  | .keyword .fin | .keyword .elif | .keyword .elseWord => True
  | .separator | .finish => True
  | _ => False

theorem ofKind?_of_ends {k : Kind} (h : Ends k) : BinaryOp.ofKind? k = none := by
  unfold Ends at h
  split at h <;> first | rfl | exact h.elim

theorem ne_leftParen_of_ends {k : Kind} (h : Ends k) : k ≠ .symbol .leftParen := by
  rintro rfl
  exact h

theorem ne_arrow_of_ends {k : Kind} (h : Ends k) : k ≠ .symbol .arrow := by
  rintro rfl
  exact h

/-! ## Reading tokens without spans -/

/-- Wherever the tokens `ts` stand ahead, `a` is read from them, and the tokens `us` are left.  The
token passed last has no span, before and after. -/
def ReadsTo {α : Type} (r : Nonterminal α) (ts : List Token) (a : α) (us : List Token) : Prop :=
  ∀ p : Token, p.span = default →
    ∃ last : Token, last.span = default ∧ Reads r ⟨p, ts⟩ a ⟨last, us⟩

/-- The nonterminal that an expression is read by from its canonical tokens. -/
def entry (e : Expr) : Nonterminal Expr := if e.isCall then .call else .atom

end Syntax

open Syntax Token Filter

/-- Whatever stands behind its canonical tokens, but for an arrow, the expression reads back. -/
structure Expr.Readable (e : Expr) : Prop where
  /-- It begins with a literal, a name or an opening delimiter. -/
  head : ∃ t ts, e.tokens = t :: ts ∧ t.kind.opens = true
  /-- It reads back. -/
  reads : ∀ us, (∀ t ∈ us.head?, t.kind ≠ .symbol .arrow) →
    ReadsTo (entry e) (e.tokens ++ us) e.unspanned us

/-- The expression of the body reads back, or all statements of its block do. -/
def Body.Readable : Body → Prop
  | .inline value => value.Readable
  | .block _ statements => statements ≠ [] ∧ ∀ e ∈ statements, e.Readable

/-- Behind any case of a choice in parentheses, the branches read back together with it. -/
def Branches.Readable (r : Branches) : Prop :=
  ∀ (condition : Expr) (body : Body), condition.Readable → body.Readable →
    ∀ us, ReadsTo .case
      (condition.tokens ++ ofKeyword .doWord :: (body.tokens ++ (r.tokens body.isBlock ++
        ofSymbol .rightParen :: us)))
      (condition.unspanned, body.unspanned, r.unspanned) (ofSymbol .rightParen :: us)

namespace Syntax

/-! ## From canonical tokens to operands and expressions -/

section

variable {e left right callee value : Expr} {es args : List Expr} {t : Token} {us : List Token}

theorem opens_of_readable (h : e.Readable) (p : Token) (us : List Token) :
    (⟨p, e.tokens ++ us⟩ : Cursor).kind.opens = true := by
  obtain ⟨t, ts, heq, ht⟩ := h.head
  rw [heq]
  exact ht

theorem sign?_of_opens {k : Kind} (h : k.opens = true) : UnaryOp.sign? k = none := by
  unfold Kind.opens at h
  split at h <;> first | rfl | cases h

theorem ne_keyword_of_opens {k : Kind} (h : k.opens = true) (w : Keyword) : k ≠ .keyword w := by
  rintro rfl
  cases h

theorem ne_separator_of_opens {k : Kind} (h : k.opens = true) : k ≠ .separator := by
  rintro rfl
  cases h

theorem reads_call_of_entry {c c' : Cursor} (h : Reads (entry e) c value c')
    (hc' : c'.kind ≠ .symbol .leftParen) : Reads .call c value c' := by
  unfold entry at h
  split at h
  · exact h
  · exact reads_plain h hc'

/-- An expression that reads back is an operand in front of every operator of its level. -/
theorem readsTo_operand (h : e.Readable) (op : BinaryOp) (us : List Token) :
    ReadsTo (.operand op.level) (e.tokens ++ ofBinary op :: us) e.unspanned
      (ofBinary op :: us) := by
  intro p hp
  have harrow : op.kind ≠ .symbol .arrow := by cases op <;> simp [BinaryOp.kind]
  have hparen : op.kind ≠ .symbol .leftParen := by cases op <;> simp [BinaryOp.kind]
  obtain ⟨last, hlast, hreads⟩ := h.reads (ofBinary op :: us) (by
    intro t ht
    cases ht
    exact harrow) p hp
  have hopens := opens_of_readable h p (ofBinary op :: us)
  refine ⟨last, hlast, ?_⟩
  refine reads_operand_of_call (sign?_of_opens hopens) (ne_keyword_of_opens hopens _) ?_
    (reads_call_of_entry hreads hparen)
  intro other hother
  exact Level.operator?_kind_of_ne hother

/-- An expression that reads back is an operand of every level in front of a token that ends it. -/
theorem readsTo_operand_of_ends (h : e.Readable) (level : Level) (ht : Ends t.kind)
    (us : List Token) :
    ReadsTo (.operand level) (e.tokens ++ t :: us) e.unspanned (t :: us) := by
  intro p hp
  obtain ⟨last, hlast, hreads⟩ := h.reads (t :: us) (by
    intro u hu
    cases hu
    exact ne_arrow_of_ends ht) p hp
  have hopens := opens_of_readable h p (t :: us)
  refine ⟨last, hlast, ?_⟩
  refine reads_operand_of_call (sign?_of_opens hopens) (ne_keyword_of_opens hopens _) ?_
    (reads_call_of_entry hreads (ne_leftParen_of_ends ht))
  intro other hother
  exact Level.operator?_eq_none (ofKind?_of_ends ht) other

theorem readsTo_chain (h : e.Readable) (level : Level) (ht : Ends t.kind) (us : List Token) :
    ReadsTo (.chain level) (e.tokens ++ t :: us) e.unspanned (t :: us) := by
  intro p hp
  obtain ⟨last, hlast, hreads⟩ := readsTo_operand_of_ends h level ht us p hp
  exact ⟨last, hlast, reads_chain_of_operand hreads
    (Level.operator?_eq_none (ofKind?_of_ends ht) level)⟩

/-- An expression that reads back does so in front of every token that ends it. -/
theorem readsTo_expression (h : e.Readable) (ht : Ends t.kind) (us : List Token) :
    ReadsTo .expression (e.tokens ++ t :: us) e.unspanned (t :: us) := by
  intro p hp
  obtain ⟨last, hlast, hreads⟩ := readsTo_chain h .junction ht us p hp
  have hopens := opens_of_readable h p (t :: us)
  exact ⟨last, hlast, reads_expression (ne_keyword_of_opens hopens _) hreads⟩

/-! ## Parentheses and what stands in them -/

theorem readsTo_paren {ts : List Token}
    (h : ReadsTo .expression ts value (ofSymbol .rightParen :: us)) :
    ReadsTo .atom (ofSymbol .leftParen :: ts) value us := by
  intro p hp
  obtain ⟨last, -, hreads⟩ := h (ofSymbol .leftParen) rfl
  exact ⟨ofSymbol .rightParen, rfl, reads_paren rfl hreads rfl⟩

/-- An atom in parentheses that is no name in front of an arrow. -/
theorem readsTo_paren_atom {ts : List Token} {t : Token} (ht : UnaryOp.sign? t.kind = none)
    (hneg : t.kind ≠ .keyword .negation) (hpush : t.kind ≠ .keyword .push)
    (h : ReadsTo .atom (t :: ts) value (ofSymbol .rightParen :: us)) :
    ReadsTo .atom (ofSymbol .leftParen :: t :: ts) value us := by
  refine readsTo_paren fun p hp => ?_
  obtain ⟨last, hlast, hreads⟩ := h p hp
  refine ⟨last, hlast, ?_⟩
  exact reads_expression_of_call ht hneg hpush rfl
    (reads_plain hreads (by simp [Cursor.kind, ofSymbol]))

theorem readsTo_bind {name : String} (h : value.Readable) (us : List Token) :
    ReadsTo .atom (ofSymbol .leftParen :: ofKeyword .push :: ofName name :: ofSymbol .arrow ::
      (value.tokens ++ ofSymbol .rightParen :: us)) (.bind default name value.unspanned) us := by
  refine readsTo_paren fun p hp => ?_
  obtain ⟨last, hlast, hreads⟩ :=
    readsTo_expression h (t := ofSymbol .rightParen) trivial us (ofSymbol .arrow) rfl
  refine ⟨last, hlast, ?_⟩
  have hbind := reads_bind (p := p) (rfl : (ofKeyword .push).kind = _)
    (rfl : (ofName name).kind = _) rfl hreads
  rw [Expr.span_unspanned] at hbind
  exact hbind

theorem readsTo_rebind {name : String} (h : value.Readable) (us : List Token) :
    ReadsTo .atom (ofSymbol .leftParen :: ofName name :: ofSymbol .arrow ::
      (value.tokens ++ ofSymbol .rightParen :: us)) (.rebind default name value.unspanned) us := by
  refine readsTo_paren_atom rfl (by simp [ofName]) (by simp [ofName]) fun p hp => ?_
  obtain ⟨last, hlast, hreads⟩ :=
    readsTo_expression h (t := ofSymbol .rightParen) trivial us (ofSymbol .arrow) rfl
  refine ⟨last, hlast, ?_⟩
  have hrebind := reads_rebind (p := p) (rfl : (ofName name).kind = _) rfl hreads
  rw [Expr.span_unspanned] at hrebind
  exact hrebind

theorem readsTo_negation (h : e.Readable) (us : List Token) :
    ReadsTo .atom (ofSymbol .leftParen :: ofUnary .negation ::
      (e.tokens ++ ofSymbol .rightParen :: us)) (.unary default .negation e.unspanned) us := by
  refine readsTo_paren fun p hp => ?_
  obtain ⟨last, hlast, hreads⟩ :=
    readsTo_chain h .comparison (t := ofSymbol .rightParen) trivial us (ofUnary .negation) rfl
  have hopens := opens_of_readable h (ofUnary .negation) (ofSymbol .rightParen :: us)
  have hneg := reads_negation (p := p) (rfl : (ofUnary .negation).kind = _)
    (reads_comparison (ne_keyword_of_opens hopens _) hreads)
  rw [Expr.span_unspanned] at hneg
  refine ⟨last, hlast, reads_expression (by simp [Cursor.kind, ofUnary, UnaryOp.kind]) ?_⟩
  exact reads_chain_of_operand (reads_operand hneg) rfl

theorem readsTo_sign {op : UnaryOp} (hop : op ≠ .negation) (h : e.Readable) (us : List Token) :
    ReadsTo .atom (ofSymbol .leftParen :: ofUnary op ::
      (e.tokens ++ ofSymbol .rightParen :: us)) (.unary default op e.unspanned) us := by
  refine readsTo_paren fun p hp => ?_
  obtain ⟨last, hlast, hreads⟩ :=
    readsTo_chain h .power (t := ofSymbol .rightParen) trivial us (ofUnary op) rfl
  have hopens := opens_of_readable h (ofUnary op) (ofSymbol .rightParen :: us)
  have hsign : UnaryOp.sign? (ofUnary op).kind = some op := by
    cases op with
    | negation => exact absurd rfl hop
    | _ => rfl
  have hfactor := reads_sign (p := p) hsign (reads_factor (sign?_of_opens hopens) hreads)
  rw [Expr.span_unspanned] at hfactor
  have hproduct : Reads (.chain .product) _ _ _ :=
    reads_chain_of_operand (reads_operand hfactor) rfl
  refine ⟨last, hlast, reads_expression_of_chain (by simp) ?_ ?_ rfl hproduct⟩ <;>
    cases op <;> simp_all [Cursor.kind, ofUnary, UnaryOp.kind]

theorem readsTo_unary (op : UnaryOp) (h : e.Readable) (us : List Token) :
    ReadsTo .atom (ofSymbol .leftParen :: ofUnary op ::
      (e.tokens ++ ofSymbol .rightParen :: us)) (.unary default op e.unspanned) us := by
  by_cases hop : op = .negation
  · subst hop
    exact readsTo_negation h us
  · exact readsTo_sign hop h us

/-- The operand behind an operator: in a power it is read as one that may bear a sign. -/
theorem readsTo_rightOperand (h : e.Readable) (level : Level) (ht : Ends t.kind)
    (us : List Token) :
    ReadsTo (.rightOperand level) (e.tokens ++ t :: us) e.unspanned (t :: us) := by
  intro p hp
  by_cases hlevel : level = .power
  · subst hlevel
    obtain ⟨last, hlast, hreads⟩ := readsTo_chain h .power ht us p hp
    have hopens := opens_of_readable h p (t :: us)
    exact ⟨last, hlast, reads_exponent (reads_factor (sign?_of_opens hopens) hreads)⟩
  · obtain ⟨last, hlast, hreads⟩ := readsTo_operand_of_ends h level ht us p hp
    exact ⟨last, hlast, reads_rightOperand hlevel hreads⟩

theorem readsTo_binary (op : BinaryOp) (hleft : left.Readable) (hright : right.Readable)
    (us : List Token) :
    ReadsTo .atom (ofSymbol .leftParen :: (left.tokens ++ ofBinary op ::
      (right.tokens ++ ofSymbol .rightParen :: us)))
      (.binary default op left.unspanned right.unspanned) us := by
  refine readsTo_paren fun p hp => ?_
  obtain ⟨mid, hmid, hfirst⟩ :=
    readsTo_operand hleft op (right.tokens ++ ofSymbol .rightParen :: us) p hp
  obtain ⟨last, hlast, hsecond⟩ := readsTo_rightOperand hright op.level
    (t := ofSymbol .rightParen) trivial us (ofBinary op) rfl
  have hlinks : Reads (.links op.level left.unspanned) ⟨mid, ofBinary op :: _⟩ _ _ :=
    reads_link (Level.operator?_kind_level op) hsecond
      (reads_noLink (Level.operator?_eq_none (k := .symbol .rightParen) rfl _))
  rw [Expr.span_unspanned, Expr.span_unspanned] at hlinks
  have hopens := opens_of_readable hleft p
    (ofBinary op :: (right.tokens ++ ofSymbol .rightParen :: us))
  refine ⟨last, hlast, ?_⟩
  exact reads_expression_of_chain (fun _ => sign?_of_opens hopens) (ne_keyword_of_opens hopens _)
    (ne_keyword_of_opens hopens _) rfl (reads_chain hfirst hlinks)

/-! ## Lists -/

/-- The tokens of further expressions, each behind a separator. -/
def furtherTokens (separator : Token) (es : List Expr) : List Token :=
  es.flatMap fun e => separator :: e.tokens

theorem tokensAll_cons (separator : Token) (e : Expr) (es : List Expr) :
    tokensAll separator (e :: es) = e.tokens ++ furtherTokens separator es := by
  induction es generalizing e with
  | nil => simp [tokensAll, furtherTokens]
  | cons next rest ih =>
    show e.tokens ++ separator :: tokensAll separator (next :: rest) = _
    rw [ih]
    rfl

/-- Behind an expression of a list stands either the separator or what closes the list. -/
theorem furtherTokens_append (separator t : Token) (es : List Expr) (us : List Token) :
    ∃ u vs, furtherTokens separator es ++ t :: us = u :: vs ∧ (u = separator ∨ u = t) := by
  cases es with
  | nil => exact ⟨t, us, rfl, .inr rfl⟩
  | cons e rest => exact ⟨separator, _, rfl, .inl rfl⟩

/-- An expression that reads back does so in front of further ones. -/
theorem readsTo_first (separator : Token) (he : e.Readable) (hsep : Ends separator.kind)
    (ht : Ends t.kind) (es : List Expr) (us : List Token) :
    ReadsTo .expression (e.tokens ++ (furtherTokens separator es ++ t :: us)) e.unspanned
      (furtherTokens separator es ++ t :: us) := by
  obtain ⟨u, vs, heq, hu⟩ := furtherTokens_append separator t es us
  rw [heq]
  refine readsTo_expression he ?_ vs
  rcases hu with rfl | rfl
  · exact hsep
  · exact ht

theorem not_ends_of_opens {k : Kind} (h : k.opens = true) : ¬ Ends k := by
  unfold Kind.opens at h
  split at h <;> first | exact id | cases h

theorem readsTo_moreItems {close : Symbol} (hclose : close ≠ .comma)
    (hends : Ends (.symbol close)) (h : ∀ e ∈ es, e.Readable) (us : List Token) :
    ReadsTo .moreItems (furtherTokens (ofSymbol .comma) es ++ ofSymbol close :: us)
      (unspannedAll es) (ofSymbol close :: us) := by
  induction es with
  | nil =>
    intro p hp
    exact ⟨p, hp, reads_noMoreItems fun hk => hclose (Kind.symbol.inj hk)⟩
  | cons e rest ih =>
    obtain ⟨he, hrest⟩ := List.forall_mem_cons.1 h
    intro p hp
    obtain ⟨mid, hmid, hfirst⟩ := readsTo_first (ofSymbol .comma) he trivial
      (t := ofSymbol close) hends rest us (ofSymbol .comma) rfl
    obtain ⟨last, hlast, hmore⟩ := ih hrest mid hmid
    refine ⟨last, hlast, ?_⟩
    simpa [furtherTokens, unspannedAll] using
      reads_moreItems (p := p) (rfl : (ofSymbol .comma).kind = _) hfirst hmore

/-- Expressions between commas, and the symbol that closes them, read back. -/
theorem readsTo_items (close : Symbol) {x : Expectation} (hclose : close ≠ .comma)
    (hends : Ends (.symbol close)) (h : ∀ e ∈ es, e.Readable) (us : List Token) :
    ReadsTo (.items close x) (tokensAll (ofSymbol .comma) es ++ ofSymbol close :: us)
      (unspannedAll es) us := by
  intro p hp
  refine ⟨ofSymbol close, rfl, ?_⟩
  cases es with
  | nil => exact reads_noItems rfl
  | cons e rest =>
    obtain ⟨he, hrest⟩ := List.forall_mem_cons.1 h
    rw [tokensAll_cons, List.append_assoc]
    obtain ⟨mid, hmid, hfirst⟩ := readsTo_first (ofSymbol .comma) he trivial
      (t := ofSymbol close) hends rest us p hp
    obtain ⟨last, -, hmore⟩ := readsTo_moreItems hclose hends hrest us mid hmid
    refine reads_items (fun hk => ?_) hfirst hmore rfl
    have hopens := opens_of_readable he p (furtherTokens (ofSymbol .comma) rest ++
      ofSymbol close :: us)
    rw [hk] at hopens
    exact not_ends_of_opens hopens hends

theorem readsTo_list (h : ∀ e ∈ es, e.Readable) (us : List Token) :
    ReadsTo .atom (ofSymbol .leftBracket ::
      (tokensAll (ofSymbol .comma) es ++ ofSymbol .rightBracket :: us))
      (.list default (unspannedAll es)) us := by
  intro p hp
  obtain ⟨last, hlast, hitems⟩ := readsTo_items .rightBracket (x := .commaOrBracket)
    (by simp) trivial h us (ofSymbol .leftBracket) rfl
  have hlist := reads_list (p := p) (rfl : (ofSymbol .leftBracket).kind = _) hitems
  refine ⟨last, hlast, ?_⟩
  simpa [hlast, ofSymbol] using hlist

theorem readsTo_call (hcall : callee.isCall = false) (hcallee : callee.Readable)
    (h : ∀ e ∈ args, e.Readable) (us : List Token) :
    ReadsTo .call (callee.tokens ++ ofSymbol .leftParen ::
      (tokensAll (ofSymbol .comma) args ++ ofSymbol .rightParen :: us))
      (.call default callee.unspanned (unspannedAll args)) us := by
  intro p hp
  obtain ⟨mid, hmid, hatom⟩ := hcallee.reads (ofSymbol .leftParen ::
    (tokensAll (ofSymbol .comma) args ++ ofSymbol .rightParen :: us)) (by simp [ofSymbol]) p hp
  have hentry : entry callee = .atom := by simp [entry, hcall]
  rw [hentry] at hatom
  obtain ⟨last, hlast, hitems⟩ := readsTo_items .rightParen (x := .commaOrParen)
    (by simp) trivial h us (ofSymbol .leftParen) rfl
  have hreads := reads_call hatom rfl hitems
  refine ⟨last, hlast, ?_⟩
  simpa [hlast] using hreads

/-! ## Statements and bodies -/

theorem behindSeparators_of_readable (h : e.Readable) (p : Token) (us : List Token) :
    Cursor.behindSeparators p (e.tokens ++ us) = ⟨p, e.tokens ++ us⟩ := by
  obtain ⟨t, ts, heq, ht⟩ := h.head
  rw [heq]
  have hne := ne_separator_of_opens ht
  simp only [List.cons_append, Cursor.behindSeparators]

/-- Further statements read back, if the tokens behind them read as no more of them. -/
theorem readsTo_moreStatements {vs : List Token} (ht : Ends t.kind)
    (hend : ReadsTo .moreStatements (t :: vs) [] us) (h : ∀ e ∈ es, e.Readable) :
    ReadsTo .moreStatements (furtherTokens lineBreak es ++ t :: vs) (unspannedAll es) us := by
  induction es with
  | nil => exact hend
  | cons e rest ih =>
    obtain ⟨he, hrest⟩ := List.forall_mem_cons.1 h
    intro p hp
    obtain ⟨mid, hmid, hfirst⟩ :=
      readsTo_first lineBreak he trivial ht rest vs lineBreak rfl
    obtain ⟨last, hlast, hmore⟩ := ih hrest mid hmid
    rw [← behindSeparators_of_readable he] at hfirst
    refine ⟨last, hlast, ?_⟩
    simpa [furtherTokens, unspannedAll] using
      reads_moreStatements (p := p) (rfl : lineBreak.kind = _) hfirst hmore

/-- Statements on lines of their own read back. -/
theorem readsTo_statements {vs : List Token} (ht : Ends t.kind)
    (hend : ReadsTo .moreStatements (t :: vs) [] us) (hne : es ≠ [])
    (h : ∀ e ∈ es, e.Readable) :
    ReadsTo .statements (tokensAll lineBreak es ++ t :: vs) ⟨default, unspannedAll es⟩ us := by
  intro p hp
  cases es with
  | nil => exact absurd rfl hne
  | cons e rest =>
    obtain ⟨he, hrest⟩ := List.forall_mem_cons.1 h
    rw [tokensAll_cons, List.append_assoc]
    obtain ⟨mid, hmid, hfirst⟩ :=
      readsTo_first lineBreak he trivial ht rest vs p hp
    obtain ⟨last, hlast, hmore⟩ := readsTo_moreStatements ht hend hrest mid hmid
    rw [← behindSeparators_of_readable he] at hfirst
    have hreads := reads_statements hfirst hmore
    refine ⟨last, hlast, ?_⟩
    simpa [hlast, unspannedAll] using hreads

/-- A block reads back in front of the word that ends it or begins a further branch. -/
theorem readsTo_block (fin : Token) (us : List Token) (hne : es ≠ [])
    (h : ∀ e ∈ es, e.Readable)
    (hfin : fin.kind = .keyword .fin ∨ fin.kind = .keyword .elif ∨ fin.kind = .keyword .elseWord) :
    ReadsTo .statements (tokensAll lineBreak es ++ lineBreak :: fin :: us)
      ⟨default, unspannedAll es⟩ (fin :: us) := by
  refine readsTo_statements trivial (fun p hp => ⟨lineBreak, rfl, ?_⟩) hne h
  have hbehind : Cursor.behindSeparators lineBreak (fin :: us) = ⟨lineBreak, fin :: us⟩ := by
    obtain ⟨kind, lexeme, span⟩ := fin
    rcases hfin with hk | hk | hk <;> cases hk <;> rfl
  have hrefuses : Refuses .expression (Cursor.behindSeparators lineBreak (fin :: us)) := by
    rw [hbehind]
    exact refuses_expression (hfin.imp_left fun hk => by simp [Closes, Cursor.kind, hk])
  have htrailing := reads_trailing (p := p) (rfl : lineBreak.kind = _) hrefuses
  rwa [hbehind] at htrailing

variable {condition first bound : Expr} {step : Option Expr} {body : Body} {branches : Branches}

/-- The body of a loop or of a last branch reads back. -/
theorem readsTo_closedBody (h : body.Readable) (ht : Ends t.kind) (us : List Token) :
    ReadsTo .closedBody (body.tokens ++ (body.closingTokens ++ t :: us)) body.unspanned
      (t :: us) := by
  intro p hp
  cases body with
  | inline value =>
    obtain ⟨last, hlast, hreads⟩ := readsTo_expression h ht us p hp
    have hopens := opens_of_readable h p (t :: us)
    exact ⟨last, hlast, reads_inlineBody (ne_separator_of_opens hopens) hreads⟩
  | block span statements =>
    obtain ⟨last, -, hreads⟩ :=
      readsTo_block (ofKeyword .fin) (t :: us) h.1 h.2 (.inl rfl) lineBreak rfl
    have hblock := reads_blockBody (q := p) (rfl : lineBreak.kind = _) hreads rfl
    refine ⟨ofKeyword .fin, rfl, ?_⟩
    simpa [Body.tokens, Body.closingTokens, Body.unspanned, Program.toBody] using hblock

/-- The body of a function reads back behind the parameters. -/
theorem readsTo_functionBody (h : body.Readable) (ht : Ends t.kind) (us : List Token) :
    ReadsTo .functionBody ((if body.isBlock then [] else [ofSymbol .arrow]) ++
      (body.tokens ++ (body.closingTokens ++ t :: us))) body.unspanned (t :: us) := by
  intro p hp
  cases body with
  | inline value =>
    obtain ⟨last, hlast, hreads⟩ := readsTo_expression h ht us (ofSymbol .arrow) rfl
    exact ⟨last, hlast, reads_arrowBody (p := p) (rfl : (ofSymbol .arrow).kind = _) hreads⟩
  | block span statements =>
    obtain ⟨last, -, hreads⟩ :=
      readsTo_block (ofKeyword .fin) (t :: us) h.1 h.2 (.inl rfl) lineBreak rfl
    have hblock := reads_functionBlock (q := p) (rfl : lineBreak.kind = _) hreads rfl
    refine ⟨ofKeyword .fin, rfl, ?_⟩
    simpa [Body.tokens, Body.closingTokens, Body.isBlock, Body.unspanned, Program.toBody]
      using hblock

/-! ## Choices -/

/-- A case in front of a further branch reads back, if the branch does. -/
theorem readsTo_case {ts : List Token} (hcondition : condition.Readable) (hbody : body.Readable)
    (ht : t.kind = .keyword .elif ∨ t.kind = .keyword .elseWord)
    (h : ReadsTo .branches (t :: ts) branches us) :
    ReadsTo .case (condition.tokens ++ ofKeyword .doWord :: (body.tokens ++ t :: ts))
      (condition.unspanned, body.unspanned, branches) us := by
  intro p hp
  obtain ⟨mid, hmid, hhead⟩ := readsTo_expression hcondition (t := ofKeyword .doWord)
    trivial (body.tokens ++ t :: ts) p hp
  have hends : Ends t.kind := by rcases ht with hk | hk <;> rw [hk] <;> trivial
  cases body with
  | inline value =>
    obtain ⟨mid', hmid', hvalue⟩ :=
      readsTo_expression hbody hends ts (ofKeyword .doWord) rfl
    obtain ⟨last, hlast, hbranches⟩ := h mid' hmid'
    have hopens := opens_of_readable hbody (ofKeyword .doWord) (t :: ts)
    exact ⟨last, hlast, reads_inlineCase hhead rfl (ne_separator_of_opens hopens) hvalue hbranches⟩
  | block span statements =>
    obtain ⟨mid', hmid', hblock⟩ :=
      readsTo_block t ts hbody.1 hbody.2 (.inr ht) lineBreak rfl
    obtain ⟨last, hlast, hbranches⟩ := h mid' hmid'
    refine ⟨last, hlast, ?_⟩
    have htokens : (Body.block span statements).tokens ++ t :: ts =
        lineBreak :: (tokensAll lineBreak statements ++ lineBreak :: t :: ts) := by
      simp [Body.tokens]
    exact reads_blockCase hhead rfl htokens rfl hblock ht hbranches

theorem nothing_readable : Branches.nothing.Readable := by
  intro condition body hcondition hbody us p hp
  obtain ⟨mid, hmid, hhead⟩ := readsTo_expression hcondition (t := ofKeyword .doWord)
    trivial (body.tokens ++ (Branches.nothing.tokens body.isBlock ++ ofSymbol .rightParen :: us))
    p hp
  cases body with
  | inline value =>
    obtain ⟨last, hlast, hvalue⟩ := readsTo_expression hbody (t := ofSymbol .rightParen)
      trivial us (ofKeyword .doWord) rfl
    have hopens := opens_of_readable hbody (ofKeyword .doWord) (ofSymbol .rightParen :: us)
    have hnone : Reads .branches ⟨last, ofSymbol .rightParen :: us⟩ .nothing
        ⟨last, ofSymbol .rightParen :: us⟩ := reads_noBranch (by simp [Cursor.kind, ofSymbol])
      (by simp [Cursor.kind, ofSymbol])
    exact ⟨last, hlast, reads_inlineCase hhead rfl (ne_separator_of_opens hopens) hvalue hnone⟩
  | block span statements =>
    obtain ⟨last, -, hblock⟩ := readsTo_block (ofKeyword .fin)
      (ofSymbol .rightParen :: us) hbody.1 hbody.2 (.inl rfl) lineBreak rfl
    refine ⟨ofKeyword .fin, rfl, ?_⟩
    have htokens : (Body.block span statements).tokens ++
        (Branches.nothing.tokens true ++ ofSymbol .rightParen :: us) = lineBreak ::
          (tokensAll lineBreak statements ++ lineBreak :: ofKeyword .fin ::
            ofSymbol .rightParen :: us) := by
      simp [Body.tokens, Branches.tokens]
    exact reads_closedCase hhead rfl htokens rfl hblock rfl

theorem elif_readable (hcondition : condition.Readable) (hbody : body.Readable)
    (h : branches.Readable) : (Branches.elif condition body branches).Readable := by
  intro condition' body' hcondition' hbody' us
  have hbranches : ReadsTo .branches (ofKeyword .elif :: (condition.tokens ++ ofKeyword .doWord ::
      (body.tokens ++ (branches.tokens body.isBlock ++ ofSymbol .rightParen :: us))))
      (.elif condition.unspanned body.unspanned branches.unspanned)
      (ofSymbol .rightParen :: us) := by
    intro p hp
    obtain ⟨last, hlast, hcase⟩ := h condition body hcondition hbody us (ofKeyword .elif) rfl
    exact ⟨last, hlast, reads_elif (rfl : (ofKeyword .elif).kind = _) hcase⟩
  have hcase := readsTo_case hcondition' hbody' (.inl rfl) hbranches
  simpa [Branches.tokens, Branches.unspanned] using hcase

theorem otherwise_readable (hbody : body.Readable) : (Branches.otherwise body).Readable := by
  intro condition' body' hcondition' hbody' us
  have hbranches : ReadsTo .branches (ofKeyword .elseWord ::
      (body.tokens ++ (body.closingTokens ++ ofSymbol .rightParen :: us)))
      (.otherwise body.unspanned) (ofSymbol .rightParen :: us) := by
    intro p hp
    obtain ⟨last, hlast, hclosed⟩ :=
      readsTo_closedBody hbody (t := ofSymbol .rightParen) trivial us (ofKeyword .elseWord) rfl
    exact ⟨last, hlast, reads_otherwise (rfl : (ofKeyword .elseWord).kind = _) hclosed⟩
  have hcase := readsTo_case hcondition' hbody' (.inr rfl) hbranches
  simpa [Branches.tokens, Branches.unspanned] using hcase

theorem readsTo_choice (hcondition : condition.Readable) (hbody : body.Readable)
    (hbranches : branches.Readable) (us : List Token) :
    ReadsTo .atom (ofSymbol .leftParen :: ofKeyword .ifWord :: (condition.tokens ++
      ofKeyword .doWord :: (body.tokens ++ (branches.tokens body.isBlock ++
        ofSymbol .rightParen :: us))))
      (.choice default condition.unspanned body.unspanned branches.unspanned) us := by
  refine readsTo_paren_atom rfl (by simp [ofKeyword]) (by simp [ofKeyword]) fun p hp => ?_
  obtain ⟨last, hlast, hcase⟩ :=
    hbranches condition body hcondition hbody us (ofKeyword .ifWord) rfl
  have hreads := reads_choice (p := p) (rfl : (ofKeyword .ifWord).kind = _) hcase
  refine ⟨last, hlast, ?_⟩
  simpa [hlast, ofKeyword] using hreads

/-! ## Loops -/

theorem readsTo_step (h : ∀ e ∈ step, e.Readable) (us : List Token) :
    ReadsTo .step (stepTokens step ++ ofKeyword .doWord :: us) (unspannedStep step)
      (ofKeyword .doWord :: us) := by
  intro p hp
  cases step with
  | none => exact ⟨p, hp, reads_noStep (by simp [stepTokens, Cursor.kind, ofKeyword])⟩
  | some value =>
    obtain ⟨last, hlast, hreads⟩ :=
      readsTo_expression (h value rfl) (t := ofKeyword .doWord) trivial us
        (ofKeyword .inc) rfl
    exact ⟨last, hlast, reads_step (rfl : (ofKeyword .inc).kind = _) hreads⟩

theorem readsTo_whileLoop (hcondition : condition.Readable) (hbody : body.Readable)
    (us : List Token) :
    ReadsTo .atom (ofSymbol .leftParen :: ofKeyword .whileWord :: (condition.tokens ++
      ofKeyword .doWord :: (body.tokens ++ (body.closingTokens ++ ofSymbol .rightParen :: us))))
      (.whileLoop default condition.unspanned body.unspanned) us := by
  refine readsTo_paren_atom rfl (by simp [ofKeyword]) (by simp [ofKeyword]) fun p hp => ?_
  obtain ⟨mid, -, hhead⟩ := readsTo_expression hcondition (t := ofKeyword .doWord)
    trivial (body.tokens ++ (body.closingTokens ++ ofSymbol .rightParen :: us))
    (ofKeyword .whileWord) rfl
  obtain ⟨last, hlast, hclosed⟩ :=
    readsTo_closedBody hbody (t := ofSymbol .rightParen) trivial us (ofKeyword .doWord) rfl
  have hreads := reads_whileLoop (q := p) (rfl : (ofKeyword .whileWord).kind = _) hhead rfl hclosed
  refine ⟨last, hlast, ?_⟩
  simpa [hlast, ofKeyword] using hreads

theorem readsTo_forLoop {name : String} (hfirst : first.Readable) (hbound : bound.Readable)
    (hstep : ∀ e ∈ step, e.Readable) (hbody : body.Readable) (us : List Token) :
    ReadsTo .atom (ofSymbol .leftParen :: ofKeyword .forWord :: ofName name :: ofSymbol .arrow ::
      (first.tokens ++ ofKeyword .untilWord :: (bound.tokens ++ (stepTokens step ++
        ofKeyword .doWord :: (body.tokens ++ (body.closingTokens ++
          ofSymbol .rightParen :: us))))))
      (.forLoop default name first.unspanned bound.unspanned (unspannedStep step)
        body.unspanned) us := by
  refine readsTo_paren_atom rfl (by simp [ofKeyword]) (by simp [ofKeyword]) fun p hp => ?_
  let tail := ofKeyword .doWord :: (body.tokens ++ (body.closingTokens ++
    ofSymbol .rightParen :: us))
  obtain ⟨mid, -, hreadsFirst⟩ := readsTo_expression hfirst (t := ofKeyword .untilWord)
    trivial (bound.tokens ++ (stepTokens step ++ tail)) (ofSymbol .arrow) rfl
  -- behind the bound stands the word of the step, or the word in front of the body
  obtain ⟨mid', hmid', hreadsBound⟩ : ∃ last : Token, last.span = default ∧
      Reads .expression ⟨ofKeyword .untilWord, bound.tokens ++ (stepTokens step ++ tail)⟩
        bound.unspanned ⟨last, stepTokens step ++ tail⟩ := by
    cases step with
    | none =>
      exact readsTo_expression hbound (t := ofKeyword .doWord) trivial _ (ofKeyword .untilWord) rfl
    | some value =>
      exact readsTo_expression hbound (t := ofKeyword .inc) trivial _ (ofKeyword .untilWord) rfl
  obtain ⟨mid'', -, hreadsStep⟩ := readsTo_step hstep (body.tokens ++ (body.closingTokens ++
    ofSymbol .rightParen :: us)) mid' hmid'
  obtain ⟨last, hlast, hclosed⟩ :=
    readsTo_closedBody hbody (t := ofSymbol .rightParen) trivial us (ofKeyword .doWord) rfl
  have hreads := reads_counting (r := p) (rfl : (ofKeyword .forWord).kind = _)
    (rfl : (ofName name).kind = _) rfl hreadsFirst rfl hreadsBound hreadsStep rfl hclosed
  refine ⟨last, hlast, reads_forLoop rfl ?_⟩
  simpa [tail, hlast, ofKeyword, ofName] using hreads

/-! ## Functions -/

/-- The tokens of further names, each behind a comma. -/
def furtherNameTokens (names : List String) : List Token :=
  names.flatMap fun name => [ofSymbol .comma, ofName name]

theorem nameTokens_cons (name : String) (names : List String) :
    nameTokens (name :: names) = ofName name :: furtherNameTokens names := by
  induction names generalizing name with
  | nil => rfl
  | cons next names ih =>
    show ofName name :: ofSymbol .comma :: nameTokens (next :: names) = _
    rw [ih]
    rfl

theorem moreNames_furtherNameTokens (names : List String) (p : Token) (us : List Token) :
    ∃ last, ∀ᶠ n in atTop, moreNames n
      ⟨p, furtherNameTokens names ++ ofSymbol .rightParen :: us⟩ =
        .parsed names ⟨last, ofSymbol .rightParen :: us⟩ := by
  induction names generalizing p with
  | nil =>
    refine ⟨p, eventually_of_succ (.of_forall fun n => ?_)⟩
    rfl
  | cons name names ih =>
    obtain ⟨last, h⟩ := ih (ofName name)
    refine ⟨last, eventually_of_succ (h.mono fun n hn => ?_)⟩
    show (moreNames (n + 1)) ⟨p, ofSymbol .comma :: ofName name ::
      (furtherNameTokens names ++ ofSymbol .rightParen :: us)⟩ = _
    unfold moreNames
    rw [accept_bind rfl (by simp [ofSymbol]), if_pos rfl, expect_bind rfl (by simp [ofName]),
      bind_of_parsed hn]
    rfl

theorem parameters_nameTokens (names : List String) (p : Token) (us : List Token) :
    ∀ᶠ n in atTop, parameters n ⟨p, nameTokens names ++ ofSymbol .rightParen :: us⟩ =
      .parsed names ⟨ofSymbol .rightParen, us⟩ := by
  cases names with
  | nil => exact .of_forall fun n => rfl
  | cons name names =>
    rw [nameTokens_cons]
    obtain ⟨last, h⟩ := moreNames_furtherNameTokens names (ofName name) us
    refine h.mono fun n hn => ?_
    show parameters n ⟨p, ofName name :: (furtherNameTokens names ++
      ofSymbol .rightParen :: us)⟩ = _
    unfold parameters
    rw [look_bind]
    show (Parse.next >>= _) _ = _
    rw [next_bind (by simp [ofName]), bind_of_parsed hn, expect_bind rfl (by simp [ofSymbol])]
    rfl

theorem functionName_tokens (name : Option String) (p : Token) (us : List Token) :
    functionName ⟨p, name.toList.map ofName ++ ofSymbol .leftParen :: us⟩ =
      .parsed name ⟨ofSymbol .leftParen, us⟩ := by
  cases name <;> rfl

theorem readsTo_function {name : Option String} {params : List String} (hbody : body.Readable)
    (us : List Token) :
    ReadsTo .atom (ofSymbol .leftParen :: ofKeyword .define :: (name.toList.map ofName ++
      ofSymbol .leftParen :: (nameTokens params ++ ofSymbol .rightParen ::
        ((if body.isBlock then [] else [ofSymbol .arrow]) ++ (body.tokens ++
          (body.closingTokens ++ ofSymbol .rightParen :: us))))))
      (.function default name params body.unspanned) us := by
  refine readsTo_paren_atom rfl (by simp [ofKeyword]) (by simp [ofKeyword]) fun p hp => ?_
  obtain ⟨last, hlast, hreadsBody⟩ := readsTo_functionBody hbody (t := ofSymbol .rightParen)
    trivial us (ofSymbol .rightParen) rfl
  have hreads := reads_definition (p := p) (rfl : (ofKeyword .define).kind = _)
    (functionName_tokens name (ofKeyword .define) _)
    (parameters_nameTokens params (ofSymbol .leftParen) _) hreadsBody
  refine ⟨last, hlast, reads_function rfl ?_⟩
  simpa [hlast, ofKeyword] using hreads

end

/-! ## Every well-formed tree reads back -/

/-- An expression that is not a call reads back if it is read as an atom. -/
theorem readable_of_atom {e : Expr} (hcall : e.isCall = false)
    (head : ∃ t ts, e.tokens = t :: ts ∧ t.kind.opens = true)
    (h : ∀ us, (∀ t ∈ us.head?, t.kind ≠ .symbol .arrow) →
      ReadsTo .atom (e.tokens ++ us) e.unspanned us) : e.Readable := by
  refine ⟨head, fun us hus => ?_⟩
  have hentry : entry e = .atom := by simp [entry, hcall]
  rw [hentry]
  exact h us hus

theorem number_readable {span : Span} {lexeme : String} {value : Float}
    (h : Stands lexeme value) : (Expr.number span lexeme value).Readable := by
  obtain ⟨l, hl, hvalue⟩ := h
  have htokens : (Expr.number span lexeme value).tokens = [⟨.literal l, lexeme, default⟩] := by
    simp [Expr.tokens, ofNumeral_eq hl]
  refine readable_of_atom rfl ⟨_, _, htokens, rfl⟩ fun us _ p hp => ?_
  rw [htokens]
  refine ⟨⟨.literal l, lexeme, default⟩, rfl, ?_⟩
  cases l with
  | whole n =>
    cases hvalue
    exact reads_whole rfl
  | decimal x =>
    cases hvalue
    exact reads_decimal rfl
  | text s => cases hvalue

theorem access_readable (span : Span) (name : String) : (Expr.access span name).Readable := by
  refine readable_of_atom rfl ⟨ofName name, [], rfl, rfl⟩ fun us hus p hp => ?_
  refine ⟨ofName name, rfl, reads_access (rfl : (ofName name).kind = _) ?_⟩
  cases us with
  | nil => simp [Cursor.kind]
  | cons t ts => exact hus t rfl

theorem call_readable {span : Span} {callee : Expr} {args : List Expr}
    (hcall : callee.isCall = false) (hcallee : callee.Readable) (h : ∀ e ∈ args, e.Readable) :
    (Expr.call span callee args).Readable := by
  refine ⟨?_, fun us _ => ?_⟩
  · obtain ⟨t, ts, heq, ht⟩ := hcallee.head
    exact ⟨t, _, by rw [Expr.tokens, heq]; rfl, ht⟩
  · simpa [entry, Expr.isCall, Expr.tokens, Expr.unspanned] using readsTo_call hcall hcallee h us

mutual

/-- Every well-formed expression reads back, if no call in it has a call as its callee. -/
theorem readable (e : Expr) (h : e.WellFormed)
    (hc : e.Everywhere Expr.PlainCallee fun _ => True) : e.Readable := by
  cases e with
  | number span lexeme value => exact number_readable h
  | text span value =>
    exact readable_of_atom rfl ⟨ofText value, [], rfl, rfl⟩ fun us _ p hp =>
      ⟨ofText value, rfl, reads_text (t := ofText value) rfl⟩
  | access span name => exact access_readable span name
  | list span elements =>
    refine readable_of_atom rfl ⟨_, _, rfl, rfl⟩ fun us _ => ?_
    simpa [Expr.tokens, Expr.unspanned] using
      readsTo_list (readable_of_mem elements h.2 hc.2) us
  | bind span name value =>
    refine readable_of_atom rfl ⟨_, _, rfl, rfl⟩ fun us _ => ?_
    simpa [Expr.tokens, Expr.unspanned] using readsTo_bind (readable value h.2 hc.2) us
  | rebind span name value =>
    refine readable_of_atom rfl ⟨_, _, rfl, rfl⟩ fun us _ => ?_
    simpa [Expr.tokens, Expr.unspanned] using readsTo_rebind (readable value h.2 hc.2) us
  | unary span op operand =>
    refine readable_of_atom rfl ⟨_, _, rfl, rfl⟩ fun us _ => ?_
    simpa [Expr.tokens, Expr.unspanned] using readsTo_unary op (readable operand h.2 hc.2) us
  | binary span op left right =>
    refine readable_of_atom rfl ⟨_, _, rfl, rfl⟩ fun us _ => ?_
    simpa [Expr.tokens, Expr.unspanned] using
      readsTo_binary op (readable left h.2.1 hc.2.1) (readable right h.2.2 hc.2.2) us
  | choice span condition body rest =>
    refine readable_of_atom rfl ⟨_, _, rfl, rfl⟩ fun us _ => ?_
    simpa [Expr.tokens, Expr.unspanned] using
      readsTo_choice (readable condition h.2.1 hc.2.1) (body_readable body h.2.2.1 hc.2.2.1)
        (branches_readable rest h.2.2.2 hc.2.2.2) us
  | forLoop span name first bound step body =>
    refine readable_of_atom rfl ⟨_, _, rfl, rfl⟩ fun us _ => ?_
    obtain ⟨-, hfirst, hbound, hstep, hbody⟩ := h
    obtain ⟨-, hfirst', hbound', hstep', hbody'⟩ := hc
    simpa [Expr.tokens, Expr.unspanned] using
      readsTo_forLoop (readable first hfirst hfirst') (readable bound hbound hbound')
        (readable_of_mem_step step hstep hstep') (body_readable body hbody hbody') us
  | whileLoop span condition body =>
    refine readable_of_atom rfl ⟨_, _, rfl, rfl⟩ fun us _ => ?_
    simpa [Expr.tokens, Expr.unspanned] using
      readsTo_whileLoop (readable condition h.2.1 hc.2.1) (body_readable body h.2.2 hc.2.2) us
  | function span name params body =>
    refine readable_of_atom rfl ⟨_, _, rfl, rfl⟩ fun us _ => ?_
    simpa [Expr.tokens, Expr.unspanned] using readsTo_function (body_readable body h.2 hc.2) us
  | call span callee args =>
    exact call_readable hc.1 (readable callee h.2.1 hc.2.1)
      (readable_of_mem args h.2.2 hc.2.2)

/-- Every well-formed body reads back. -/
theorem body_readable (b : Body) (h : b.Everywhere Expr.Lexical Body.NonEmpty)
    (hc : b.Everywhere Expr.PlainCallee fun _ => True) : b.Readable := by
  cases b with
  | inline value => exact readable value h.2 hc.2
  | block span statements => exact ⟨h.1, readable_of_mem statements h.2 hc.2⟩

/-- All well-formed branches read back. -/
theorem branches_readable (r : Branches) (h : r.Everywhere Expr.Lexical Body.NonEmpty)
    (hc : r.Everywhere Expr.PlainCallee fun _ => True) : r.Readable := by
  cases r with
  | nothing => exact nothing_readable
  | elif condition body rest =>
    exact elif_readable (readable condition h.1 hc.1) (body_readable body h.2.1 hc.2.1)
      (branches_readable rest h.2.2 hc.2.2)
  | otherwise body => exact otherwise_readable (body_readable body h hc)

/-- Every well-formed step reads back. -/
theorem readable_of_mem_step (step : Option Expr)
    (h : EverywhereInStep Expr.Lexical Body.NonEmpty step)
    (hc : EverywhereInStep Expr.PlainCallee (fun _ => True) step) : ∀ e ∈ step, e.Readable := by
  cases step with
  | none => simp
  | some value =>
    intro e he
    cases he
    exact readable value h hc

/-- All well-formed expressions of a list read back. -/
theorem readable_of_mem (es : List Expr) (h : EverywhereIn Expr.Lexical Body.NonEmpty es)
    (hc : EverywhereIn Expr.PlainCallee (fun _ => True) es) : ∀ e ∈ es, e.Readable := by
  cases es with
  | nil => simp
  | cons e rest =>
    exact List.forall_mem_cons.2 ⟨readable e h.1 hc.1, readable_of_mem rest h.2 hc.2⟩

end

end Syntax

end UniformScript
