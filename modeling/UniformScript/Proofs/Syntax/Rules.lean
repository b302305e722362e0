import UniformScript.Proofs.Syntax.Nonterminal

/-!
# The grammar as a relation

`Generates r ts a` says that the nonterminal `r` generates the tokens `ts`, and that the tree they
make up is `a`.  It says nothing of cursors, bounds or of what stands behind the tokens: a
construct of the grammar is one of its rules.

* `exists_ne_separator_of_generates`: an expression, or what contains one, is made of more than
  separators.
-/

namespace UniformScript.Syntax

/-! ## Parameters -/

/-- Further names, each behind a comma. -/
inductive GeneratesNames : List Token → List String → Prop where
  | none : GeneratesNames [] []
  | more {comma name : Token} {ts : List Token} {names : List String} :
    comma.kind = .symbol .comma → name.kind = .identifier → GeneratesNames ts names →
    GeneratesNames (comma :: name :: ts) (name.lexeme :: names)

/-- The names of parameters, and the parenthesis behind them. -/
inductive GeneratesParameters : List Token → List String → Prop where
  | none {close : Token} :
    close.kind = .symbol .rightParen → GeneratesParameters [close] []
  | some {name close : Token} {ts : List Token} {names : List String} :
    name.kind = .identifier → GeneratesNames ts names → close.kind = .symbol .rightParen →
    GeneratesParameters (name :: ts ++ [close]) (name.lexeme :: names)

/-- The name of a function, if it has one, and the parenthesis behind it. -/
inductive GeneratesName : List Token → Option String → Prop where
  | anonymous {paren : Token} :
    paren.kind = .symbol .leftParen → GeneratesName [paren] none
  | named {name paren : Token} :
    name.kind = .identifier → paren.kind = .symbol .leftParen →
    GeneratesName [name, paren] (some name.lexeme)

/-! None of these tokens marks the end of the text. -/

section

variable {ts : List Token} {names : List String} {name : Option String}

theorem GeneratesNames.kind_ne (h : GeneratesNames ts names) : ∀ t ∈ ts, t.kind ≠ .finish := by
  induction h with
  | none => simp
  | more hcomma hname _ ih => simpa [hcomma, hname] using ih

theorem GeneratesParameters.kind_ne (h : GeneratesParameters ts names) :
    ∀ t ∈ ts, t.kind ≠ .finish := by
  cases h with
  | none hclose => simp [hclose]
  | some hname hnames hclose =>
    have hmiddle := hnames.kind_ne
    simpa [hname, hclose, or_imp, forall_and] using hmiddle

theorem GeneratesName.kind_ne (h : GeneratesName ts name) : ∀ t ∈ ts, t.kind ≠ .finish := by
  cases h with
  | anonymous hparen => simp [hparen]
  | named hname hparen => simp [hname, hparen]

end

/-! ## Rules -/

/-- The tokens that a nonterminal generates, and the tree they make up. -/
inductive Generates : {α : Type} → Nonterminal α → List Token → α → Prop where
  | bind {push name arrow : Token} {ts : List Token} {value : Expr} :
    push.kind = .keyword .push → name.kind = .identifier → arrow.kind = .symbol .arrow →
    Generates .expression ts value →
    Generates .expression (push :: name :: arrow :: ts)
      (.bind (push.span.through value.span) name.lexeme value)
  | expression {ts : List Token} {e : Expr} :
    Generates (.chain .junction) ts e → Generates .expression ts e
  | negation {sign : Token} {ts : List Token} {e : Expr} :
    sign.kind = .keyword .negation → Generates .comparison ts e →
    Generates .comparison (sign :: ts) (.unary (sign.span.through e.span) .negation e)
  | comparison {ts : List Token} {e : Expr} :
    Generates (.chain .comparison) ts e → Generates .comparison ts e
  | chain {level : Level} {ts us : List Token} {left e : Expr} :
    Generates (.operand level) ts left → Generates (.links level left) us e →
    Generates (.chain level) (ts ++ us) e
  | noLink {level : Level} {left : Expr} : Generates (.links level left) [] left
  | link {level : Level} {op : BinaryOp} {sign : Token} {ts us : List Token}
    {left right e : Expr} :
    level.operator? sign.kind = some op → Generates (.rightOperand level) ts right →
    Generates (.links level (.binary (left.span.through right.span) op left right)) us e →
    Generates (.links level left) (sign :: ts ++ us) e
  | junctionOperand {ts : List Token} {e : Expr} :
    Generates .comparison ts e → Generates (.operand .junction) ts e
  | comparisonOperand {ts : List Token} {e : Expr} :
    Generates (.chain .sum) ts e → Generates (.operand .comparison) ts e
  | sumOperand {ts : List Token} {e : Expr} :
    Generates (.chain .product) ts e → Generates (.operand .sum) ts e
  | productOperand {ts : List Token} {e : Expr} :
    Generates .factor ts e → Generates (.operand .product) ts e
  | powerOperand {ts : List Token} {e : Expr} :
    Generates .call ts e → Generates (.operand .power) ts e
  | exponent {ts : List Token} {e : Expr} :
    Generates .factor ts e → Generates (.rightOperand .power) ts e
  | rightOperand {level : Level} {ts : List Token} {e : Expr} :
    level ≠ .power → Generates (.operand level) ts e → Generates (.rightOperand level) ts e
  | sign {op : UnaryOp} {sign : Token} {ts : List Token} {e : Expr} :
    UnaryOp.sign? sign.kind = some op → Generates .factor ts e →
    Generates .factor (sign :: ts) (.unary (sign.span.through e.span) op e)
  | factor {ts : List Token} {e : Expr} :
    Generates (.chain .power) ts e → Generates .factor ts e
  | plain {ts : List Token} {e : Expr} : Generates .atom ts e → Generates .call ts e
  | call {paren : Token} {x : Expectation} {ts us : List Token} {callee : Expr}
      {args : List Expr} :
    Generates .atom ts callee → paren.kind = .symbol .leftParen →
    Generates (.items .rightParen x) us args →
    Generates .call (ts ++ paren :: us)
      (.call (callee.span.through (us.getLastD paren).span) callee args)
  | noItems {close : Symbol} {x : Expectation} {t : Token} :
    t.kind = .symbol close → Generates (.items close x) [t] []
  | items {close : Symbol} {x : Expectation} {t : Token} {ts us : List Token} {first : Expr}
      {rest : List Expr} :
    Generates .expression ts first → Generates .moreItems us rest → t.kind = .symbol close →
    Generates (.items close x) (ts ++ us ++ [t]) (first :: rest)
  | noMoreItems : Generates .moreItems [] []
  | moreItems {comma : Token} {ts us : List Token} {first : Expr} {rest : List Expr} :
    comma.kind = .symbol .comma → Generates .expression ts first → Generates .moreItems us rest →
    Generates .moreItems (comma :: ts ++ us) (first :: rest)
  | whole {t : Token} {n : Nat} :
    t.kind = .literal (.whole n) →
    Generates .atom [t] (.number t.span t.lexeme (Decimal.nearest n 1))
  | decimal {t : Token} {x : Float} :
    t.kind = .literal (.decimal x) → Generates .atom [t] (.number t.span t.lexeme x)
  | text {t : Token} {s : String} :
    t.kind = .literal (.text s) → Generates .atom [t] (.text t.span s)
  | access {t : Token} :
    t.kind = .identifier → Generates .atom [t] (.access t.span t.lexeme)
  | rebind {name arrow : Token} {ts : List Token} {value : Expr} :
    name.kind = .identifier → arrow.kind = .symbol .arrow → Generates .expression ts value →
    Generates .atom (name :: arrow :: ts)
      (.rebind (name.span.through value.span) name.lexeme value)
  | paren {left right : Token} {ts : List Token} {e : Expr} :
    left.kind = .symbol .leftParen → Generates .expression ts e →
    right.kind = .symbol .rightParen → Generates .atom (left :: ts ++ [right]) e
  | list {bracket : Token} {x : Expectation} {ts : List Token} {es : List Expr} :
    bracket.kind = .symbol .leftBracket → Generates (.items .rightBracket x) ts es →
    Generates .atom (bracket :: ts) (.list (bracket.span.through (ts.getLastD bracket).span) es)
  | choice {word : Token} {ts : List Token} {condition : Expr} {body : Body} {rest : Branches} :
    word.kind = .keyword .ifWord → Generates .case ts (condition, body, rest) →
    Generates .atom (word :: ts)
      (.choice (word.span.through (ts.getLastD word).span) condition body rest)
  | forLoop {ts : List Token} {e : Expr} : Generates .forLoop ts e → Generates .atom ts e
  | whileLoop {word doWord : Token} {ts us : List Token} {condition : Expr} {body : Body} :
    word.kind = .keyword .whileWord → Generates .expression ts condition →
    doWord.kind = .keyword .doWord → Generates .closedBody us body →
    Generates .atom (word :: ts ++ doWord :: us)
      (.whileLoop (word.span.through (us.getLastD doWord).span) condition body)
  | function {ts : List Token} {e : Expr} : Generates .function ts e → Generates .atom ts e
  | closedCase {doWord separator fin : Token} {ts us : List Token} {condition : Expr}
      {block : Program} :
    Generates .expression ts condition → doWord.kind = .keyword .doWord →
    separator.kind = .separator → Generates .statements us block → fin.kind = .keyword .fin →
    Generates .case (ts ++ doWord :: separator :: us ++ [fin]) (condition, block.toBody, .nothing)
  | blockCase {doWord separator : Token} {ts us vs : List Token} {condition : Expr}
      {block : Program} {rest : Branches} :
    Generates .expression ts condition → doWord.kind = .keyword .doWord →
    separator.kind = .separator → Generates .statements us block →
    Generates .branches vs rest → rest ≠ .nothing →
    Generates .case (ts ++ doWord :: separator :: us ++ vs) (condition, block.toBody, rest)
  | inlineCase {doWord : Token} {ts us vs : List Token} {condition value : Expr}
      {rest : Branches} :
    Generates .expression ts condition → doWord.kind = .keyword .doWord →
    Generates .expression us value → Generates .branches vs rest →
    Generates .case (ts ++ doWord :: us ++ vs) (condition, .inline value, rest)
  | noBranch : Generates .branches [] .nothing
  | elif {word : Token} {ts : List Token} {condition : Expr} {body : Body} {rest : Branches} :
    word.kind = .keyword .elif → Generates .case ts (condition, body, rest) →
    Generates .branches (word :: ts) (.elif condition body rest)
  | otherwise {word : Token} {ts : List Token} {body : Body} :
    word.kind = .keyword .elseWord → Generates .closedBody ts body →
    Generates .branches (word :: ts) (.otherwise body)
  | counting {word name arrow untilWord doWord : Token} {ts us vs ws : List Token}
      {first bound : Expr} {step : Option Expr} {body : Body} :
    word.kind = .keyword .forWord → name.kind = .identifier → arrow.kind = .symbol .arrow →
    Generates .expression ts first → untilWord.kind = .keyword .untilWord →
    Generates .expression us bound → Generates .step vs step → doWord.kind = .keyword .doWord →
    Generates .closedBody ws body →
    Generates .forLoop (word :: name :: arrow :: ts ++ untilWord :: us ++ vs ++ doWord :: ws)
      (.forLoop (word.span.through (ws.getLastD doWord).span) name.lexeme first bound step body)
  | noStep : Generates .step [] none
  | step {word : Token} {ts : List Token} {value : Expr} :
    word.kind = .keyword .inc → Generates .expression ts value →
    Generates .step (word :: ts) (some value)
  | inlineBody {ts : List Token} {value : Expr} :
    Generates .expression ts value → Generates .closedBody ts (.inline value)
  | blockBody {separator fin : Token} {ts : List Token} {block : Program} :
    separator.kind = .separator → Generates .statements ts block → fin.kind = .keyword .fin →
    Generates .closedBody (separator :: ts ++ [fin]) block.toBody
  | definition {word : Token} {ts us vs : List Token} {name : Option String}
      {params : List String} {body : Body} :
    word.kind = .keyword .define → GeneratesName ts name → GeneratesParameters us params →
    Generates .functionBody vs body →
    Generates .function (word :: ts ++ us ++ vs)
      (.function (word.span.through ((ts ++ us ++ vs).getLastD word).span) name params body)
  | arrowBody {arrow : Token} {ts : List Token} {value : Expr} :
    arrow.kind = .symbol .arrow → Generates .expression ts value →
    Generates .functionBody (arrow :: ts) (.inline value)
  | functionBlock {separator fin : Token} {ts : List Token} {block : Program} :
    separator.kind = .separator → Generates .statements ts block → fin.kind = .keyword .fin →
    Generates .functionBody (separator :: ts ++ [fin]) block.toBody
  | statements {last : Token} {seps ts us : List Token} {first : Expr} {rest : List Expr} :
    (∀ t ∈ seps, t.kind = .separator) → Generates .expression ts first →
    Generates .moreStatements us rest → (ts ++ us).getLast? = some last →
    Generates .statements (seps ++ ts ++ us)
      ⟨first.span.through last.span, first :: rest⟩
  | noStatement : Generates .moreStatements [] []
  | trailing {separator : Token} {seps : List Token} :
    separator.kind = .separator → (∀ t ∈ seps, t.kind = .separator) →
    Generates .moreStatements (separator :: seps) []
  | moreStatements {separator : Token} {seps ts us : List Token} {first : Expr}
      {rest : List Expr} :
    separator.kind = .separator → (∀ t ∈ seps, t.kind = .separator) →
    Generates .expression ts first → Generates .moreStatements us rest →
    Generates .moreStatements (separator :: seps ++ ts ++ us) (first :: rest)

/-! ## How many tokens -/

/-- The nonterminals that generate at least one token. -/
def Nonterminal.Consumes {α : Type} : Nonterminal α → Prop
  | links _ _ => False
  | moreItems => False
  | branches => False
  | step => False
  | moreStatements => False
  | _ => True

/-- An expression, or what contains one, is made of more than separators. -/
theorem exists_ne_separator_of_generates {α : Type} {r : Nonterminal α} {ts : List Token} {a : α}
    (h : Generates r ts a) (hr : r.Consumes) : ∃ t ∈ ts, t.kind ≠ .separator := by
  -- a token that is none of the separators, in front of others or behind them
  have head {t : Token} {us : List Token} {k : Kind} (ht : t.kind = k) (hk : k ≠ .separator) :
      ∃ u ∈ t :: us, u.kind ≠ .separator := ⟨t, by simp, by rw [ht]; exact hk⟩
  have left {us vs : List Token} (hus : ∃ t ∈ us, t.kind ≠ .separator) :
      ∃ t ∈ us ++ vs, t.kind ≠ .separator := by
    obtain ⟨t, ht, hk⟩ := hus
    exact ⟨t, List.mem_append_left _ ht, hk⟩
  have right {us vs : List Token} (hvs : ∃ t ∈ vs, t.kind ≠ .separator) :
      ∃ t ∈ us ++ vs, t.kind ≠ .separator := by
    obtain ⟨t, ht, hk⟩ := hvs
    exact ⟨t, List.mem_append_right _ ht, hk⟩
  induction h with
  | bind hpush _ _ _ _ => exact head hpush (by simp)
  | expression _ ih => exact ih trivial
  | negation hsign _ _ => exact head hsign (by simp)
  | comparison _ ih => exact ih trivial
  | chain _ _ ih _ => exact left (ih trivial)
  | junctionOperand _ ih => exact ih trivial
  | comparisonOperand _ ih => exact ih trivial
  | sumOperand _ ih => exact ih trivial
  | productOperand _ ih => exact ih trivial
  | powerOperand _ ih => exact ih trivial
  | exponent _ ih => exact ih trivial
  | rightOperand _ _ ih => exact ih trivial
  | sign _ _ ih =>
    obtain ⟨t, ht, hk⟩ := ih trivial
    exact ⟨t, List.mem_cons_of_mem _ ht, hk⟩
  | factor _ ih => exact ih trivial
  | plain _ ih => exact ih trivial
  | call _ _ _ ih _ => exact left (ih trivial)
  | noItems ht => exact head ht (by simp)
  | items _ _ _ ih _ => exact left (left (ih trivial))
  | whole ht => exact head ht (by simp)
  | decimal ht => exact head ht (by simp)
  | text ht => exact head ht (by simp)
  | access ht => exact head ht (by simp)
  | rebind hname _ _ _ => exact head hname (by simp)
  | paren hleft _ _ _ => exact head hleft (by simp)
  | list hbracket _ _ => exact head hbracket (by simp)
  | choice hword _ _ => exact head hword (by simp)
  | forLoop _ ih => exact ih trivial
  | whileLoop hword _ _ _ _ _ => exact head hword (by simp)
  | function _ ih => exact ih trivial
  | closedCase _ _ _ _ _ ih _ => exact left (left (ih trivial))
  | blockCase _ _ _ _ _ _ ih _ _ => exact left (left (ih trivial))
  | inlineCase _ _ _ _ ih _ _ => exact left (left (ih trivial))
  | counting hword _ _ _ _ _ _ _ _ => exact head hword (by simp)
  | inlineBody _ ih => exact ih trivial
  | blockBody _ _ hfin _ => exact right (head hfin (by simp))
  | definition hword _ _ _ _ => exact head hword (by simp)
  | arrowBody harrow _ _ => exact head harrow (by simp)
  | functionBlock _ _ hfin _ => exact right (head hfin (by simp))
  | statements _ _ _ _ ih _ => exact left (right (ih trivial))
  | _ => exact hr.elim

/-- An expression, or what contains one, is made of at least one token. -/
theorem length_pos_of_generates {α : Type} {r : Nonterminal α} {ts : List Token} {a : α}
    (h : Generates r ts a) (hr : r.Consumes) : 0 < ts.length := by
  obtain ⟨t, ht, -⟩ := exists_ne_separator_of_generates h hr
  exact List.length_pos_of_mem ht

end UniformScript.Syntax
