import UniformScript.Proofs.Syntax.WellFormed
import UniformScript.Proofs.Syntax.Reading

/-!
# The tokens of a canonical text

The canonical text of a tree is scanned into tokens that follow its structure: every parenthesis,
word and name of the text is one of them.  They are given here by a function of the tree, without
spans.

What stands behind an expression in a canonical text is never a letter, a digit or a point, so that
no name and no number runs into what follows it.

* `Apart`: a text that ends every word and every numeral in front of it.
* `scans_canonical`: the canonical text of a well-formed expression is scanned into its tokens.
* `scans_canonicalAll`: the same for expressions with a separator between them.
-/

namespace UniformScript

/-! ## Tokens -/

namespace Token

/-- A keyword as a token. -/
def ofKeyword (k : Keyword) : Token := ⟨.keyword k, k.text, default⟩

/-- A symbol as a token. -/
def ofSymbol (s : Symbol) : Token := ⟨.symbol s, s.text, default⟩

/-- A name as a token. -/
def ofName (name : String) : Token := ⟨.identifier, name, default⟩

/-- A line break as a token. -/
def lineBreak : Token := ⟨.separator, "\n", default⟩

/-- A quoted text as a token. -/
def ofText (value : String) : Token :=
  ⟨.literal (.text value), String.ofList (quote value), default⟩

/-- A numeral as a token. -/
def ofNumeral (lexeme : String) : Token :=
  ⟨(munchNumber lexeme.toList).kind.getD .finish, lexeme, default⟩

/-- An operator between operands as a token. -/
def ofBinary (op : BinaryOp) : Token := ⟨op.kind, op.text, default⟩

end Token

/-- The kind of token that a sign in front of an operand is written with. -/
def UnaryOp.kind : UnaryOp → Kind
  | plus => .symbol .plus
  | minus => .symbol .minus
  | negation => .keyword .negation

/-- A sign in front of an operand as a token. -/
def Token.ofUnary (op : UnaryOp) : Token := ⟨op.kind, op.text, default⟩

open Token

/-- The tokens of names with commas between them. -/
def nameTokens : List String → List Token
  | [] => []
  | [name] => [ofName name]
  | name :: names => ofName name :: ofSymbol .comma :: nameTokens names

/-- The word that ends a body, if it is a block. -/
def Body.closingTokens : Body → List Token
  | .inline _ => []
  | .block _ _ => [ofKeyword .fin]

mutual

/-- The tokens of the canonical text of an expression. -/
def Expr.tokens : Expr → List Token
  | .number _ lexeme _ => [ofNumeral lexeme]
  | .text _ value => [ofText value]
  | .list _ elements =>
    ofSymbol .leftBracket :: (tokensAll (ofSymbol .comma) elements ++ [ofSymbol .rightBracket])
  | .access _ name => [ofName name]
  | .bind _ name value =>
    ofSymbol .leftParen :: ofKeyword .push :: ofName name :: ofSymbol .arrow ::
      (value.tokens ++ [ofSymbol .rightParen])
  | .rebind _ name value =>
    ofSymbol .leftParen :: ofName name :: ofSymbol .arrow ::
      (value.tokens ++ [ofSymbol .rightParen])
  | .unary _ op operand =>
    ofSymbol .leftParen :: ofUnary op :: (operand.tokens ++ [ofSymbol .rightParen])
  | .binary _ op left right =>
    ofSymbol .leftParen :: (left.tokens ++ ofBinary op ::
      (right.tokens ++ [ofSymbol .rightParen]))
  | .choice _ condition body rest =>
    ofSymbol .leftParen :: ofKeyword .ifWord :: (condition.tokens ++ ofKeyword .doWord ::
      (body.tokens ++ (rest.tokens body.isBlock ++ [ofSymbol .rightParen])))
  | .forLoop _ name first bound step body =>
    ofSymbol .leftParen :: ofKeyword .forWord :: ofName name :: ofSymbol .arrow ::
      (first.tokens ++ ofKeyword .untilWord :: (bound.tokens ++ (stepTokens step ++
        ofKeyword .doWord :: (body.tokens ++ (body.closingTokens ++ [ofSymbol .rightParen])))))
  | .whileLoop _ condition body =>
    ofSymbol .leftParen :: ofKeyword .whileWord :: (condition.tokens ++ ofKeyword .doWord ::
      (body.tokens ++ (body.closingTokens ++ [ofSymbol .rightParen])))
  | .function _ name params body =>
    ofSymbol .leftParen :: ofKeyword .define :: (name.toList.map ofName ++ ofSymbol .leftParen ::
      (nameTokens params ++ ofSymbol .rightParen :: ((if body.isBlock then [] else
        [ofSymbol .arrow]) ++ (body.tokens ++ (body.closingTokens ++ [ofSymbol .rightParen])))))
  | .call _ callee args =>
    callee.tokens ++ ofSymbol .leftParen ::
      (tokensAll (ofSymbol .comma) args ++ [ofSymbol .rightParen])

/-- The tokens of the canonical text of a body. -/
def Body.tokens : Body → List Token
  | .inline value => value.tokens
  | .block _ statements => lineBreak :: (tokensAll lineBreak statements ++ [lineBreak])

/-- The tokens of the canonical text of the branches behind a case. -/
def Branches.tokens : Branches → Bool → List Token
  | .nothing, afterBlock => if afterBlock then [ofKeyword .fin] else []
  | .elif condition body rest, _ =>
    ofKeyword .elif :: (condition.tokens ++ ofKeyword .doWord ::
      (body.tokens ++ rest.tokens body.isBlock))
  | .otherwise body, _ => ofKeyword .elseWord :: (body.tokens ++ body.closingTokens)

/-- The tokens of the canonical text of the step of a counting loop. -/
def stepTokens : Option Expr → List Token
  | none => []
  | some step => ofKeyword .inc :: step.tokens

/-- The tokens of expressions with a separator between them. -/
def tokensAll (separator : Token) : List Expr → List Token
  | [] => []
  | [e] => e.tokens
  | e :: rest => e.tokens ++ separator :: tokensAll separator rest

end

/-! ## Texts that end what stands in front of them -/

/-- Whether a character may continue a word or a numeral. -/
def continues (c : Char) : Bool := c.isAlphanum || isNumeric c

/-- The text ends every word and every numeral in front of it. -/
def Apart (cs : List Char) : Prop := Stops continues cs

theorem Apart.stops_isAlphanum {cs : List Char} (h : Apart cs) : Stops Char.isAlphanum cs :=
  fun c hc => (Bool.or_eq_false_iff.1 (h c hc)).1

theorem Apart.stops_isNumeric {cs : List Char} (h : Apart cs) : Stops isNumeric cs :=
  fun c hc => (Bool.or_eq_false_iff.1 (h c hc)).2

theorem apart_nil : Apart [] := fun _ hc => nomatch hc

theorem apart_cons {c : Char} {cs : List Char} (hc : continues c = false) : Apart (c :: cs) := by
  intro d hd
  cases hd
  exact hc

theorem apart_blank (cs : List Char) : Apart (' ' :: cs) := apart_cons (by decide)

theorem apart_break (cs : List Char) : Apart ('\n' :: cs) := apart_cons (by decide)

theorem apart_open (cs : List Char) : Apart ('(' :: cs) := apart_cons (by decide)

theorem apart_close (cs : List Char) : Apart (')' :: cs) := apart_cons (by decide)

/-! ## Signs, words and literals -/

section

variable {cs rest : List Char} {ts : List Token}

/-- One token in front of what is scanned. -/
theorem scans_piece {c : Char} (kind : Kind) (lexeme tail : List Char)
    (hm : munch c cs = .ok ⟨some kind, lexeme, tail⟩) (h : Scans tail ts rest) :
    Scans (c :: cs) (⟨kind, String.ofList lexeme, default⟩ :: ts) rest :=
  .token hm rfl h

theorem scans_open (h : Scans cs ts rest) :
    Scans ('(' :: cs) (ofSymbol .leftParen :: ts) rest :=
  scans_piece (.symbol .leftParen) ['('] cs rfl h

theorem scans_close (h : Scans cs ts rest) :
    Scans (')' :: cs) (ofSymbol .rightParen :: ts) rest :=
  scans_piece (.symbol .rightParen) [')'] cs rfl h

theorem scans_openBracket (h : Scans cs ts rest) :
    Scans ('[' :: cs) (ofSymbol .leftBracket :: ts) rest :=
  scans_piece (.symbol .leftBracket) ['['] cs rfl h

theorem scans_closeBracket (h : Scans cs ts rest) :
    Scans (']' :: cs) (ofSymbol .rightBracket :: ts) rest :=
  scans_piece (.symbol .rightBracket) [']'] cs rfl h

theorem scans_comma (h : Scans cs ts rest) :
    Scans (',' :: ' ' :: cs) (ofSymbol .comma :: ts) rest :=
  scans_piece (.symbol .comma) [','] (' ' :: cs) rfl (scans_blank h)

theorem scans_break (h : Scans cs ts rest) : Scans ('\n' :: cs) (lineBreak :: ts) rest :=
  scans_piece .separator ['\n'] cs rfl h

theorem scans_arrow (h : Scans cs ts rest) :
    Scans (' ' :: '=' :: '>' :: ' ' :: cs) (ofSymbol .arrow :: ts) rest :=
  scans_blank (scans_piece (.symbol .arrow) ['=', '>'] (' ' :: cs) rfl
    (scans_blank h))

/-- A keyword that is a word ends where the text behind it sets it apart. -/
theorem scans_keyword {k : Keyword} (hk : k ∈ Keyword.words) (hcs : Apart cs)
    (h : Scans cs ts rest) : Scans (k.text.toList ++ cs) (ofKeyword k :: ts) rest := by
  have hscan := scans_word (isWord_keyword hk) hcs.stops_isAlphanum h
  rwa [wordKind_keyword hk, String.ofList_toList] at hscan

theorem scans_name {name : String} (hname : IsName name) (hcs : Apart cs) (h : Scans cs ts rest) :
    Scans (name.toList ++ cs) (ofName name :: ts) rest := by
  have hscan := scans_word hname.1 hcs.stops_isAlphanum h
  rwa [hname.2, String.ofList_toList] at hscan

theorem ofNumeral_eq {lexeme : String} {l : Literal} (h : IsNumeral lexeme.toList l) :
    ofNumeral lexeme = ⟨.literal l, lexeme, default⟩ := by
  have hstops : Stops isNumeric [] := fun _ hc => nomatch hc
  have hmunch := munchNumber_append h hstops
  rw [List.append_nil] at hmunch
  unfold ofNumeral
  rw [hmunch]
  rfl

theorem scans_ofNumeral {lexeme : String} {value : Float} (hlexeme : Stands lexeme value)
    (hcs : Apart cs) (h : Scans cs ts rest) :
    Scans (lexeme.toList ++ cs) (ofNumeral lexeme :: ts) rest := by
  obtain ⟨l, hl, -⟩ := hlexeme
  have hscan := scans_numeral hl hcs.stops_isNumeric h
  rw [String.ofList_toList] at hscan
  rw [ofNumeral_eq hl]
  exact hscan

theorem scans_binary (op : BinaryOp) (h : Scans cs ts rest) :
    Scans (op.text.toList ++ ' ' :: cs) (ofBinary op :: ts) rest := by
  cases op <;> exact scans_piece _ _ (' ' :: cs) rfl (scans_blank h)

theorem scans_unary (op : UnaryOp) (h : Scans cs ts rest) :
    Scans (op.text.toList ++ cs) (ofUnary op :: ts) rest := by
  cases op <;> exact scans_piece _ _ cs rfl h

end

/-! ## Parts of a canonical text -/

/-- A separator between expressions: it sets what precedes it apart, and is scanned into one
token. -/
structure Separates (separator : List Char) (t : Token) : Prop where
  apart : ∀ cs, Apart (separator ++ cs)
  scans : ∀ {cs rest ts}, Scans cs ts rest → Scans (separator ++ cs) (t :: ts) rest

theorem separates_comma : Separates [',', ' '] (ofSymbol .comma) :=
  ⟨fun _ => apart_cons (by decide), fun h => scans_comma h⟩

theorem separates_break : Separates ['\n'] lineBreak :=
  ⟨fun _ => apart_break _, fun h => scans_break h⟩

theorem Body.apart_canonical (b : Body) (cs : List Char) : Apart (b.canonical ++ cs) := by
  cases b with
  | inline value => exact apart_blank _
  | block span statements => exact apart_break _

theorem Branches.apart_canonical (r : Branches) (cs : List Char) :
    Apart (r.canonical false ++ cs) := by
  cases r <;> exact apart_blank _

/-- The text that closes a loop or a function behind its body. -/
theorem Body.scans_closing (b : Body) (cs : List Char) :
    Scans ((if b.isBlock then "fin)".toList else " )".toList) ++ cs)
      (b.closingTokens ++ [ofSymbol .rightParen]) cs := by
  cases b with
  | inline value => exact scans_blank (scans_close .done)
  | block span statements =>
    show Scans (Keyword.fin.text.toList ++ ')' :: cs) _ cs
    exact scans_keyword (by decide) (apart_close cs) (scans_close .done)

theorem Body.apart_closing {b : Body} (hb : b.isBlock = false) (cs : List Char) :
    Apart ((if b.isBlock then "fin)".toList else " )".toList) ++ cs) := by
  rw [hb]
  exact apart_blank _

/-- What stands behind the parameters of a function is scanned into its tokens, if its body is. -/
theorem Body.scans_behindParameters (b : Body) (cs : List Char)
    (h : ∀ ds, (b.isBlock = false → Apart ds) → Scans (b.canonical ++ ds) b.tokens ds) :
    Scans ((if b.isBlock then b.canonical ++ "fin)".toList else
      " =>".toList ++ b.canonical ++ [')']) ++ cs)
      ((if b.isBlock then [] else [ofSymbol .arrow]) ++ (b.tokens ++
        (b.closingTokens ++ [ofSymbol .rightParen]))) cs := by
  cases b with
  | inline value =>
    show Scans (" =>".toList ++ (Body.inline value).canonical ++ [')'] ++ cs) _ cs
    simp only [List.append_assoc]
    have hvalue := (h (')' :: cs) fun _ => apart_close cs).append (scans_close .done)
    exact scans_blank (scans_piece (.symbol .arrow) ['=', '>'] (' ' :: _) rfl hvalue)
  | block span statements =>
    show Scans ((Body.block span statements).canonical ++ "fin)".toList ++ cs) _ cs
    simp only [List.append_assoc]
    exact (h _ (by simp [Body.isBlock])).append ((Body.block span statements).scans_closing cs)

theorem scans_names {names : List String} (hnames : ∀ n ∈ names, IsName n) (cs : List Char)
    (hcs : Apart cs) :
    Scans ((", ".intercalate names).toList ++ cs) (nameTokens names) cs := by
  induction names with
  | nil => exact .done
  | cons name names ih =>
    have ⟨hname, hrest⟩ := List.forall_mem_cons.1 hnames
    cases names with
    | nil =>
      simpa [nameTokens, String.toList_intercalate] using scans_name hname hcs .done
    | cons next names =>
      have htail := ih hrest
      have hscan := scans_name hname (separates_comma.apart _) (separates_comma.scans htail)
      simpa [nameTokens, String.toList_intercalate] using hscan

/-! ## Canonical texts -/

mutual

/-- The canonical text of a well-formed expression is scanned into its tokens. -/
theorem Expr.scans_canonical (e : Expr) (h : e.WellFormed) (cs : List Char) (hcs : Apart cs) :
    Scans (e.canonical ++ cs) e.tokens cs := by
  cases e with
  | number span lexeme value => exact scans_ofNumeral h hcs .done
  | text span value => exact scans_quote value .done
  | access span name => exact scans_name h hcs .done
  | list span elements =>
    show Scans ('[' :: canonicalAll [',', ' '] elements ++ [']'] ++ cs) _ cs
    simp only [List.cons_append, List.append_assoc]
    have helements := scans_canonicalAll separates_comma elements h.2 (']' :: cs)
      (apart_cons (by decide))
    exact scans_openBracket (helements.append (scans_closeBracket .done))
  | bind span name value =>
    show Scans ("(push ".toList ++ name.toList ++ " => ".toList ++ value.canonical ++ [')'] ++ cs)
      _ cs
    simp only [List.append_assoc]
    have hvalue := value.scans_canonical h.2 (')' :: cs) (apart_close cs)
    refine scans_open (scans_keyword (k := .push) (by decide) (apart_blank _) (scans_blank ?_))
    exact scans_name h.1 (apart_blank _) (scans_arrow (hvalue.append (scans_close .done)))
  | rebind span name value =>
    show Scans ('(' :: name.toList ++ " => ".toList ++ value.canonical ++ [')'] ++ cs) _ cs
    simp only [List.append_assoc, List.cons_append]
    have hvalue := value.scans_canonical h.2 (')' :: cs) (apart_close cs)
    refine scans_open ?_
    exact scans_name h.1 (apart_blank _) (scans_arrow (hvalue.append (scans_close .done)))
  | unary span op operand =>
    show Scans ('(' :: op.text.toList ++ operand.canonical ++ [')'] ++ cs) _ cs
    simp only [List.append_assoc, List.cons_append]
    have hoperand := operand.scans_canonical h.2 (')' :: cs) (apart_close cs)
    exact scans_open (scans_unary op (hoperand.append (scans_close .done)))
  | binary span op left right =>
    show Scans ('(' :: left.canonical ++ ' ' :: op.text.toList ++ ' ' :: right.canonical ++
      [')'] ++ cs) _ cs
    simp only [List.append_assoc, List.cons_append]
    have hright := right.scans_canonical h.2.2 (')' :: cs) (apart_close cs)
    have hleft := left.scans_canonical h.2.1 _
      (apart_blank (op.text.toList ++ ' ' :: (right.canonical ++ ')' :: cs)))
    refine scans_open (hleft.append (scans_blank (scans_binary op ?_)))
    exact hright.append (scans_close .done)
  | choice span condition body branches =>
    show Scans ("(if ".toList ++ condition.canonical ++ " do".toList ++ body.canonical ++
      branches.canonical body.isBlock ++ [')'] ++ cs) _ cs
    simp only [List.append_assoc]
    have hrest := branches.scans_canonical body.isBlock h.2.2.2 (')' :: cs) (apart_close cs)
    have hbody := body.scans_canonical h.2.2.1 (branches.canonical body.isBlock ++ ')' :: cs)
      fun hb => by
        rw [hb]
        exact branches.apart_canonical (')' :: cs)
    refine scans_open (scans_keyword (k := .ifWord) (by decide) (apart_blank _) (scans_blank ?_))
    refine (condition.scans_canonical h.2.1 _ (apart_blank _)).append (scans_blank ?_)
    refine scans_keyword (k := .doWord) (by decide) (body.apart_canonical _) ?_
    exact hbody.append (hrest.append (scans_close .done))
  | forLoop span name first bound step body =>
    show Scans ("(for ".toList ++ name.toList ++ " => ".toList ++ first.canonical ++
      " until ".toList ++ bound.canonical ++ canonicalStep step ++ " do".toList ++
      body.canonical ++ (if body.isBlock then "fin)".toList else " )".toList) ++ cs) _ cs
    simp only [List.append_assoc]
    obtain ⟨hname, hfirst, hbound, hstep, hbody⟩ := h
    have hclosing := body.scans_closing cs
    have hbody := body.scans_canonical hbody _ fun hb => Body.apart_closing hb cs
    refine scans_open (scans_keyword (k := .forWord) (by decide) (apart_blank _) (scans_blank ?_))
    refine scans_name hname (apart_blank _) (scans_arrow ?_)
    refine (first.scans_canonical hfirst _ (apart_blank _)).append (scans_blank ?_)
    refine scans_keyword (k := .untilWord) (by decide) (apart_blank _) (scans_blank ?_)
    refine (bound.scans_canonical hbound _ ?_).append ?_
    · cases step <;> exact apart_blank _
    refine (scans_canonicalStep step hstep _ (apart_blank _)).append (scans_blank ?_)
    refine scans_keyword (k := .doWord) (by decide) (body.apart_canonical _) ?_
    exact hbody.append hclosing
  | whileLoop span condition body =>
    show Scans ("(while ".toList ++ condition.canonical ++ " do".toList ++ body.canonical ++
      (if body.isBlock then "fin)".toList else " )".toList) ++ cs) _ cs
    simp only [List.append_assoc]
    have hclosing := body.scans_closing cs
    have hbody := body.scans_canonical h.2.2 _ fun hb => Body.apart_closing hb cs
    refine scans_open (scans_keyword (k := .whileWord) (by decide) (apart_blank _)
      (scans_blank ?_))
    refine (condition.scans_canonical h.2.1 _ (apart_blank _)).append (scans_blank ?_)
    refine scans_keyword (k := .doWord) (by decide) (body.apart_canonical _) ?_
    exact hbody.append hclosing
  | function span name params body =>
    show Scans ("(define ".toList ++ (name.getD "").toList ++ '(' ::
      (", ".intercalate params).toList ++ [')'] ++ (if body.isBlock then
        body.canonical ++ "fin)".toList else " =>".toList ++ body.canonical ++ [')']) ++ cs) _ cs
    simp only [List.append_assoc, List.cons_append]
    obtain ⟨⟨hname, hparams⟩, hbody⟩ := h
    refine scans_open (scans_keyword (k := .define) (by decide) (apart_blank _) (scans_blank ?_))
    have htail := (scans_names hparams _ (apart_close _)).append (scans_close
      (body.scans_behindParameters cs fun ds hds => body.scans_canonical hbody ds hds))
    cases name with
    | none => simpa using scans_open htail
    | some name => simpa using scans_name (hname name rfl) (apart_open _) (scans_open htail)
  | call span callee args =>
    show Scans (callee.canonical ++ '(' :: canonicalAll [',', ' '] args ++ [')'] ++ cs) _ cs
    simp only [List.append_assoc, List.cons_append]
    have hargs := scans_canonicalAll separates_comma args h.2.2 (')' :: cs) (apart_close cs)
    refine (callee.scans_canonical h.2.1 _ (apart_open _)).append (scans_open ?_)
    exact hargs.append (scans_close .done)

/-- The canonical text of a body is scanned into its tokens. -/
theorem Body.scans_canonical (b : Body) (h : b.Everywhere Expr.Lexical Body.NonEmpty)
    (cs : List Char) (hcs : b.isBlock = false → Apart cs) :
    Scans (b.canonical ++ cs) b.tokens cs := by
  cases b with
  | inline value => exact scans_blank (value.scans_canonical h.2 cs (hcs rfl))
  | block span statements =>
    show Scans ('\n' :: canonicalAll ['\n'] statements ++ ['\n'] ++ cs) _ cs
    simp only [List.cons_append, List.append_assoc]
    have hall := scans_canonicalAll separates_break statements h.2 ('\n' :: cs) (apart_break cs)
    exact scans_break (hall.append (scans_break .done))

/-- The canonical text of branches is scanned into their tokens. -/
theorem Branches.scans_canonical (r : Branches) (afterBlock : Bool)
    (h : r.Everywhere Expr.Lexical Body.NonEmpty) (cs : List Char) (hcs : Apart cs) :
    Scans (r.canonical afterBlock ++ cs) (r.tokens afterBlock) cs := by
  have lead {ds : List Char} {ts : List Token} (h : Scans ds ts cs) :
      Scans ((if afterBlock then [] else [' ']) ++ ds) ts cs := by
    cases afterBlock with
    | false => exact scans_blank h
    | true => exact h
  cases r with
  | nothing =>
    cases afterBlock with
    | false => exact scans_blank .done
    | true => exact scans_keyword (k := .fin) (by decide) hcs .done
  | elif condition body rest =>
    show Scans ((if afterBlock then [] else [' ']) ++ "elif ".toList ++ condition.canonical ++
      " do".toList ++ body.canonical ++ rest.canonical body.isBlock ++ cs) _ cs
    simp only [List.append_assoc]
    have hrest := rest.scans_canonical body.isBlock h.2.2 cs hcs
    have hbody := body.scans_canonical h.2.1 (rest.canonical body.isBlock ++ cs) fun hb => by
      rw [hb]
      exact rest.apart_canonical cs
    refine lead (scans_keyword (k := .elif) (by decide) (apart_blank _) (scans_blank ?_))
    refine (condition.scans_canonical h.1 _ (apart_blank _)).append (scans_blank ?_)
    refine scans_keyword (k := .doWord) (by decide) (body.apart_canonical _) ?_
    exact hbody.append hrest
  | otherwise body =>
    show Scans ((if afterBlock then [] else [' ']) ++ "else".toList ++ body.canonical ++
      (if body.isBlock then "fin".toList else []) ++ cs) _ cs
    simp only [List.append_assoc]
    refine lead (scans_keyword (k := .elseWord) (by decide) (body.apart_canonical _) ?_)
    cases body with
    | inline value => exact ((Body.inline value).scans_canonical h cs fun _ => hcs).append .done
    | block span statements =>
      refine ((Body.block span statements).scans_canonical h _ (by simp [Body.isBlock])).append ?_
      exact scans_keyword (k := .fin) (by decide) hcs .done

/-- The canonical text of a step is scanned into its tokens. -/
theorem scans_canonicalStep (step : Option Expr)
    (h : EverywhereInStep Expr.Lexical Body.NonEmpty step) (cs : List Char) (hcs : Apart cs) :
    Scans (canonicalStep step ++ cs) (stepTokens step) cs := by
  cases step with
  | none => exact .done
  | some value =>
    show Scans (" inc ".toList ++ value.canonical ++ cs) _ cs
    simp only [List.append_assoc]
    refine scans_blank (scans_keyword (k := .inc) (by decide) (apart_blank _) (scans_blank ?_))
    exact value.scans_canonical h cs hcs

/-- Expressions with a separator between them are scanned into their tokens. -/
theorem scans_canonicalAll {separator : List Char} {t : Token} (hsep : Separates separator t)
    (es : List Expr) (h : EverywhereIn Expr.Lexical Body.NonEmpty es) (cs : List Char)
    (hcs : Apart cs) : Scans (canonicalAll separator es ++ cs) (tokensAll t es) cs := by
  match es with
  | [] => exact .done
  | [e] => exact e.scans_canonical h.1 cs hcs
  | e :: next :: rest =>
    show Scans (e.canonical ++ separator ++ canonicalAll separator (next :: rest) ++ cs) _ cs
    simp only [List.append_assoc]
    have hrest := scans_canonicalAll hsep (next :: rest) h.2 cs hcs
    have he := e.scans_canonical h.1 _ (hsep.apart (canonicalAll separator (next :: rest) ++ cs))
    exact he.append (hsep.scans hrest)

end

end UniformScript
