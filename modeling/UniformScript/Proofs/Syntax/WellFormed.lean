import UniformScript.Proofs.Syntax.Generation
import UniformScript.Proofs.Token.Scanning

/-!
# Trees that a source can have

`Expr.Everywhere P Q` says that `P` holds of an expression and of every expression inside it, and
`Q` of every body inside it.  A tree is well formed if its names are identifiers, its numbers were
written as numerals that stand for their values, and none of its blocks is empty.

* `wellFormed_of_generates`: what the grammar generates from scanned tokens is well formed.
* `wellFormed_of_parse`: the tree of scanned tokens is well formed.
-/

namespace UniformScript

/-! ## Conditions on every node -/

mutual

/-- The first condition holds of the expression and of every expression inside it, the second of
every body inside it. -/
def Expr.Everywhere (P : Expr → Prop) (Q : Body → Prop) : Expr → Prop
  | e@(.number _ _ _) => P e
  | e@(.text _ _) => P e
  | e@(.list _ elements) => P e ∧ EverywhereIn P Q elements
  | e@(.access _ _) => P e
  | e@(.bind _ _ value) => P e ∧ value.Everywhere P Q
  | e@(.rebind _ _ value) => P e ∧ value.Everywhere P Q
  | e@(.unary _ _ operand) => P e ∧ operand.Everywhere P Q
  | e@(.binary _ _ left right) => P e ∧ left.Everywhere P Q ∧ right.Everywhere P Q
  | e@(.choice _ condition body rest) =>
    P e ∧ condition.Everywhere P Q ∧ body.Everywhere P Q ∧ rest.Everywhere P Q
  | e@(.forLoop _ _ first bound step body) =>
    P e ∧ first.Everywhere P Q ∧ bound.Everywhere P Q ∧ EverywhereInStep P Q step ∧
      body.Everywhere P Q
  | e@(.whileLoop _ condition body) => P e ∧ condition.Everywhere P Q ∧ body.Everywhere P Q
  | e@(.function _ _ _ body) => P e ∧ body.Everywhere P Q
  | e@(.call _ callee args) => P e ∧ callee.Everywhere P Q ∧ EverywhereIn P Q args

/-- The same for a body. -/
def Body.Everywhere (P : Expr → Prop) (Q : Body → Prop) : Body → Prop
  | b@(.inline value) => Q b ∧ value.Everywhere P Q
  | b@(.block _ statements) => Q b ∧ EverywhereIn P Q statements

/-- The same for branches. -/
def Branches.Everywhere (P : Expr → Prop) (Q : Body → Prop) : Branches → Prop
  | .nothing => True
  | .elif condition body rest =>
    condition.Everywhere P Q ∧ body.Everywhere P Q ∧ rest.Everywhere P Q
  | .otherwise body => body.Everywhere P Q

/-- The same for the step of a counting loop. -/
def EverywhereInStep (P : Expr → Prop) (Q : Body → Prop) : Option Expr → Prop
  | none => True
  | some step => step.Everywhere P Q

/-- The same for the expressions of a list. -/
def EverywhereIn (P : Expr → Prop) (Q : Body → Prop) : List Expr → Prop
  | [] => True
  | e :: rest => e.Everywhere P Q ∧ EverywhereIn P Q rest

end

/-- The first condition holds of every expression of the program, the second of every body. -/
def Program.Everywhere (P : Expr → Prop) (Q : Body → Prop) (p : Program) : Prop :=
  EverywhereIn P Q p.statements

mutual

/-- Conditions that can be decided on one node can be decided everywhere. -/
def Expr.decidableEverywhere (P : Expr → Prop) (Q : Body → Prop) [DecidablePred P]
    [DecidablePred Q] (e : Expr) : Decidable (e.Everywhere P Q) :=
  match e with
  | .number span lexeme value => inferInstanceAs (Decidable (P (.number span lexeme value)))
  | .text span value => inferInstanceAs (Decidable (P (.text span value)))
  | .list _ elements =>
    have := decidableEverywhereIn P Q elements
    inferInstanceAs (Decidable (_ ∧ _))
  | .access span name => inferInstanceAs (Decidable (P (.access span name)))
  | .bind _ _ value =>
    have := value.decidableEverywhere P Q
    inferInstanceAs (Decidable (_ ∧ _))
  | .rebind _ _ value =>
    have := value.decidableEverywhere P Q
    inferInstanceAs (Decidable (_ ∧ _))
  | .unary _ _ operand =>
    have := operand.decidableEverywhere P Q
    inferInstanceAs (Decidable (_ ∧ _))
  | .binary _ _ left right =>
    have := left.decidableEverywhere P Q
    have := right.decidableEverywhere P Q
    inferInstanceAs (Decidable (_ ∧ _ ∧ _))
  | .choice _ condition body rest =>
    have := condition.decidableEverywhere P Q
    have := body.decidableEverywhere P Q
    have := rest.decidableEverywhere P Q
    inferInstanceAs (Decidable (_ ∧ _ ∧ _ ∧ _))
  | .forLoop _ _ first bound step body =>
    have := first.decidableEverywhere P Q
    have := bound.decidableEverywhere P Q
    have := decidableEverywhereInStep P Q step
    have := body.decidableEverywhere P Q
    inferInstanceAs (Decidable (_ ∧ _ ∧ _ ∧ _ ∧ _))
  | .whileLoop _ condition body =>
    have := condition.decidableEverywhere P Q
    have := body.decidableEverywhere P Q
    inferInstanceAs (Decidable (_ ∧ _ ∧ _))
  | .function _ _ _ body =>
    have := body.decidableEverywhere P Q
    inferInstanceAs (Decidable (_ ∧ _))
  | .call _ callee args =>
    have := callee.decidableEverywhere P Q
    have := decidableEverywhereIn P Q args
    inferInstanceAs (Decidable (_ ∧ _ ∧ _))

/-- The same for a body. -/
def Body.decidableEverywhere (P : Expr → Prop) (Q : Body → Prop) [DecidablePred P]
    [DecidablePred Q] (b : Body) : Decidable (b.Everywhere P Q) :=
  match b with
  | .inline value =>
    have := value.decidableEverywhere P Q
    inferInstanceAs (Decidable (_ ∧ _))
  | .block _ statements =>
    have := decidableEverywhereIn P Q statements
    inferInstanceAs (Decidable (_ ∧ _))

/-- The same for branches. -/
def Branches.decidableEverywhere (P : Expr → Prop) (Q : Body → Prop) [DecidablePred P]
    [DecidablePred Q] (r : Branches) : Decidable (r.Everywhere P Q) :=
  match r with
  | .nothing => inferInstanceAs (Decidable True)
  | .elif condition body rest =>
    have := condition.decidableEverywhere P Q
    have := body.decidableEverywhere P Q
    have := rest.decidableEverywhere P Q
    inferInstanceAs (Decidable (_ ∧ _ ∧ _))
  | .otherwise body => body.decidableEverywhere P Q

/-- The same for the step of a counting loop. -/
def decidableEverywhereInStep (P : Expr → Prop) (Q : Body → Prop) [DecidablePred P]
    [DecidablePred Q] (step : Option Expr) : Decidable (EverywhereInStep P Q step) :=
  match step with
  | none => inferInstanceAs (Decidable True)
  | some value => value.decidableEverywhere P Q

/-- The same for the expressions of a list. -/
def decidableEverywhereIn (P : Expr → Prop) (Q : Body → Prop) [DecidablePred P]
    [DecidablePred Q] (es : List Expr) : Decidable (EverywhereIn P Q es) :=
  match es with
  | [] => inferInstanceAs (Decidable True)
  | e :: rest =>
    have := e.decidableEverywhere P Q
    have := decidableEverywhereIn P Q rest
    inferInstanceAs (Decidable (_ ∧ _))

end

instance (P : Expr → Prop) (Q : Body → Prop) [DecidablePred P] [DecidablePred Q] (p : Program) :
    Decidable (p.Everywhere P Q) :=
  decidableEverywhereIn P Q p.statements

/-! ## Well-formed trees -/

/-- A name that the scanner takes for an identifier. -/
def IsName (name : String) : Prop :=
  Token.IsWord name.toList ∧ Token.wordKind name.toList = .identifier

/-- The number that a literal stands for. -/
def Literal.number? : Literal → Option Float
  | whole n => some (Decimal.nearest n 1)
  | decimal x => some x
  | text _ => none

/-- The lexeme is a numeral that stands for the value. -/
def Stands (lexeme : String) (value : Float) : Prop :=
  ∃ l, Token.IsNumeral lexeme.toList l ∧ l.number? = some value

/-- The names of the expression are identifiers, and its numeral stands for its value. -/
def Expr.Lexical : Expr → Prop
  | number _ lexeme value => Stands lexeme value
  | access _ name => IsName name
  | bind _ name _ => IsName name
  | rebind _ name _ => IsName name
  | forLoop _ name _ _ _ _ => IsName name
  | function _ name params _ => (∀ n ∈ name, IsName n) ∧ ∀ n ∈ params, IsName n
  | _ => True

/-- The body is not a block without statements. -/
def Body.NonEmpty : Body → Prop
  | inline _ => True
  | block _ statements => statements ≠ []

/-- All names are identifiers, all numerals stand for their values, and no block is empty. -/
def Expr.WellFormed : Expr → Prop := Expr.Everywhere Expr.Lexical Body.NonEmpty

namespace Syntax

/-- What is read is well formed in all its parts; statements are never empty. -/
def Nonterminal.WellFormed {α : Type} : Nonterminal α → α → Prop
  | expression | comparison | chain _ | links _ _ | operand _ | rightOperand _ | factor | call
  | atom | forLoop | function => Expr.WellFormed
  | items _ _ | moreItems | moreStatements => EverywhereIn Expr.Lexical Body.NonEmpty
  | case => fun parts =>
    parts.1.WellFormed ∧ parts.2.1.Everywhere Expr.Lexical Body.NonEmpty ∧
      parts.2.2.Everywhere Expr.Lexical Body.NonEmpty
  | branches => Branches.Everywhere Expr.Lexical Body.NonEmpty
  | step => EverywhereInStep Expr.Lexical Body.NonEmpty
  | closedBody | functionBody => Body.Everywhere Expr.Lexical Body.NonEmpty
  | statements => fun p => p.toBody.Everywhere Expr.Lexical Body.NonEmpty

/-- What a nonterminal has in hand before it reads is well formed. -/
def Nonterminal.LeftWellFormed {α : Type} : Nonterminal α → Prop
  | links _ left => left.WellFormed
  | _ => True

/-- Every one of the tokens was taken as a piece. -/
def Lexed (ts : List Token) : Prop := ∀ t ∈ ts, t.Lexed

theorem lexed_append {ts us : List Token} : Lexed (ts ++ us) ↔ Lexed ts ∧ Lexed us :=
  List.forall_mem_append

theorem lexed_cons {t : Token} {ts : List Token} : Lexed (t :: ts) ↔ t.Lexed ∧ Lexed ts :=
  List.forall_mem_cons

theorem isName_of_lexed {t : Token} (h : t.Lexed) (ht : t.kind = .identifier) : IsName t.lexeme :=
  h.identifier ht

theorem isName_of_generatesNames {ts : List Token} {names : List String}
    (h : GeneratesNames ts names) (hts : Lexed ts) : ∀ n ∈ names, IsName n := by
  induction h with
  | none => simp
  | more hcomma hname _ ih =>
    rw [lexed_cons, lexed_cons] at hts
    exact List.forall_mem_cons.2 ⟨isName_of_lexed hts.2.1 hname, ih hts.2.2⟩

theorem isName_of_generatesParameters {ts : List Token} {names : List String}
    (h : GeneratesParameters ts names) (hts : Lexed ts) : ∀ n ∈ names, IsName n := by
  cases h with
  | none hclose => simp
  | some hname hnames hclose =>
    rw [List.cons_append, lexed_cons, lexed_append] at hts
    exact List.forall_mem_cons.2
      ⟨isName_of_lexed hts.1 hname, isName_of_generatesNames hnames hts.2.1⟩

theorem isName_of_generatesName {ts : List Token} {name : Option String}
    (h : GeneratesName ts name) (hts : Lexed ts) : ∀ n ∈ name, IsName n := by
  cases h with
  | anonymous hparen => simp
  | named hname hparen =>
    rw [lexed_cons] at hts
    intro n hn
    cases hn
    exact isName_of_lexed hts.1 hname

/-- What the grammar generates from scanned tokens is well formed. -/
theorem wellFormed_of_generates {α : Type} {r : Nonterminal α} {ts : List Token} {a : α}
    (h : Generates r ts a) (hts : Lexed ts) (hr : r.LeftWellFormed) : r.WellFormed a := by
  induction h with
  | bind hpush hname harrow _ ih =>
    simp only [lexed_cons] at hts
    exact ⟨isName_of_lexed hts.2.1 hname, ih hts.2.2.2 trivial⟩
  | expression _ ih => exact ih hts trivial
  | negation hsign _ ih => exact ⟨trivial, ih (lexed_cons.1 hts).2 trivial⟩
  | comparison _ ih => exact ih hts trivial
  | chain _ _ ih ih' =>
    rw [lexed_append] at hts
    exact ih' hts.2 (ih hts.1 trivial)
  | noLink => exact hr
  | link hop _ _ ih ih' =>
    rw [List.cons_append, lexed_cons, lexed_append] at hts
    exact ih' hts.2.2 ⟨trivial, hr, ih hts.2.1 trivial⟩
  | junctionOperand _ ih => exact ih hts trivial
  | comparisonOperand _ ih => exact ih hts trivial
  | sumOperand _ ih => exact ih hts trivial
  | productOperand _ ih => exact ih hts trivial
  | powerOperand _ ih => exact ih hts trivial
  | exponent _ ih => exact ih hts trivial
  | rightOperand hlevel _ ih => exact ih hts trivial
  | sign hop _ ih => exact ⟨trivial, ih (lexed_cons.1 hts).2 trivial⟩
  | factor _ ih => exact ih hts trivial
  | plain _ ih => exact ih hts trivial
  | call _ hparen _ ih ih' =>
    rw [lexed_append, lexed_cons] at hts
    exact ⟨trivial, ih hts.1 trivial, ih' hts.2.2 trivial⟩
  | noItems hclose => trivial
  | items _ _ hclose ih ih' =>
    rw [lexed_append, lexed_append] at hts
    exact ⟨ih hts.1.1 trivial, ih' hts.1.2 trivial⟩
  | noMoreItems => trivial
  | moreItems hcomma _ _ ih ih' =>
    rw [List.cons_append, lexed_cons, lexed_append] at hts
    exact ⟨ih hts.2.1 trivial, ih' hts.2.2 trivial⟩
  | whole ht => exact ⟨_, (lexed_cons.1 hts).1.numeral ht (by simp), rfl⟩
  | decimal ht => exact ⟨_, (lexed_cons.1 hts).1.numeral ht (by simp), rfl⟩
  | text ht => trivial
  | access ht => exact isName_of_lexed (lexed_cons.1 hts).1 ht
  | rebind hname harrow _ ih =>
    simp only [lexed_cons] at hts
    exact ⟨isName_of_lexed hts.1 hname, ih hts.2.2 trivial⟩
  | paren hleft _ hright ih =>
    rw [List.cons_append, lexed_cons, lexed_append] at hts
    exact ih hts.2.1 trivial
  | list hbracket _ ih => exact ⟨trivial, ih (lexed_cons.1 hts).2 trivial⟩
  | choice hword _ ih =>
    obtain ⟨hcondition, hbody, hrest⟩ := ih (lexed_cons.1 hts).2 trivial
    exact ⟨trivial, hcondition, hbody, hrest⟩
  | forLoop _ ih => exact ih hts trivial
  | whileLoop hword _ hdo _ ih ih' =>
    rw [List.cons_append, lexed_cons, lexed_append, lexed_cons] at hts
    exact ⟨trivial, ih hts.2.1 trivial, ih' hts.2.2.2 trivial⟩
  | function _ ih => exact ih hts trivial
  | closedCase _ hdo hseparator _ hfin ih ih' =>
    simp only [lexed_append, lexed_cons] at hts
    exact ⟨ih hts.1.1 trivial, ih' hts.1.2.2.2 trivial, trivial⟩
  | blockCase _ hdo hseparator _ _ hne ih ih' ih'' =>
    simp only [lexed_append, lexed_cons] at hts
    exact ⟨ih hts.1.1 trivial, ih' hts.1.2.2.2 trivial, ih'' hts.2 trivial⟩
  | inlineCase _ hdo _ _ ih ih' ih'' =>
    simp only [lexed_append, lexed_cons] at hts
    exact ⟨ih hts.1.1 trivial, ⟨trivial, ih' hts.1.2.2 trivial⟩, ih'' hts.2 trivial⟩
  | noBranch => trivial
  | elif hword _ ih => exact ih (lexed_cons.1 hts).2 trivial
  | otherwise hword _ ih => exact ih (lexed_cons.1 hts).2 trivial
  | counting hword hname harrow _ huntil _ _ hdo _ ihfirst ihbound ihstep ihbody =>
    simp only [lexed_append, lexed_cons] at hts
    obtain ⟨⟨⟨⟨-, hn, -, hfirst⟩, -, hbound⟩, hstep⟩, -, hbody⟩ := hts
    exact ⟨isName_of_lexed hn hname, ihfirst hfirst trivial, ihbound hbound trivial,
      ihstep hstep trivial, ihbody hbody trivial⟩
  | noStep => trivial
  | step hword _ ih => exact ih (lexed_cons.1 hts).2 trivial
  | inlineBody _ ih => exact ⟨trivial, ih hts trivial⟩
  | blockBody hseparator _ hfin ih =>
    rw [List.cons_append, lexed_cons, lexed_append] at hts
    exact ih hts.2.1 trivial
  | definition hword hname hparams _ ih =>
    simp only [lexed_append, lexed_cons] at hts
    obtain ⟨⟨⟨-, hn⟩, hps⟩, hbody⟩ := hts
    exact ⟨⟨isName_of_generatesName hname hn, isName_of_generatesParameters hparams hps⟩,
      ih hbody trivial⟩
  | arrowBody harrow _ ih => exact ⟨trivial, ih (lexed_cons.1 hts).2 trivial⟩
  | functionBlock hseparator _ hfin ih =>
    rw [List.cons_append, lexed_cons, lexed_append] at hts
    exact ih hts.2.1 trivial
  | statements hseps _ _ hlast ih ih' =>
    rw [lexed_append, lexed_append] at hts
    exact ⟨List.cons_ne_nil _ _, ih hts.1.2 trivial, ih' hts.2 trivial⟩
  | noStatement => trivial
  | trailing hseparator hseps => trivial
  | moreStatements hseparator hseps _ _ ih ih' =>
    simp only [lexed_append, lexed_cons] at hts
    obtain ⟨⟨⟨-, -⟩, hfirst⟩, hrest⟩ := hts
    exact ⟨ih hfirst trivial, ih' hrest trivial⟩

/-- The tree of scanned tokens is well formed. -/
theorem wellFormed_of_parse {tokens : List Token} {p : Program}
    (htokens : ∀ t ∈ tokens, t.Lexed ∨ t.kind = .finish) (h : parse tokens = .ok p) :
    p.toBody.Everywhere Expr.Lexical Body.NonEmpty := by
  obtain ⟨ts, rest, rfl, hfinish, -, hts⟩ := generates_of_parse h
  refine wellFormed_of_generates hts (fun t ht => ?_) trivial
  exact (htokens t (List.mem_append_left rest ht)).resolve_right (hfinish t ht)

end Syntax

end UniformScript
