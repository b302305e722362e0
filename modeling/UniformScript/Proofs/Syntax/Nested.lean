import UniformScript.Failure
import UniformScript.Proofs.Syntax.WellFormed
import UniformScript.Proofs.Token.Tiling
import Mathlib.Logic.Relation

/-!
# How the parts of a program nest

Every node of a tree goes from the start of a token to the end of one.  Its children stand inside
it, one behind the other.  This is so although a span is found in many ways: from child to child,
from a word to the token passed last, or from the first statement to the separators behind the last
one; and although parentheses are not part of what stands between them.

* `Row`: nodes one behind the other between two indices, and so on inside each of them.
* `row_of_generates`: the nodes of whatever the grammar generates.
* `read_nodes_nest`: the nodes of a program.
-/

namespace UniformScript

/-! ## Nodes -/

/-- A node of a tree that carries a span: an expression, or the statements of a block. -/
inductive Node where
  | expr (e : Expr)
  | block (span : Span) (statements : List Expr)

/-- The node of a body: its expression, or its block. -/
def Body.node : Body → Node
  | inline value => .expr value
  | block span statements => .block span statements

/-- The nodes of branches, which carry no span themselves. -/
def Branches.nodes : Branches → List Node
  | nothing => []
  | elif condition body rest => .expr condition :: body.node :: rest.nodes
  | otherwise body => [body.node]

/-- The nodes right inside an expression, in the order of the source. -/
def Expr.children : Expr → List Node
  | number _ _ _ | text _ _ | access _ _ => []
  | list _ elements => elements.map .expr
  | bind _ _ value | rebind _ _ value => [.expr value]
  | unary _ _ operand => [.expr operand]
  | binary _ _ left right => [.expr left, .expr right]
  | choice _ condition body rest => .expr condition :: body.node :: rest.nodes
  | forLoop _ _ first bound step body =>
    .expr first :: .expr bound :: (step.toList.map .expr ++ [body.node])
  | whileLoop _ condition body => [.expr condition, body.node]
  | function _ _ _ body => [body.node]
  | call _ callee args => .expr callee :: args.map .expr

namespace Node

/-- The part of the source a node covers. -/
def span : Node → Span
  | expr e => e.span
  | block span _ => span

/-- The nodes right inside a node, in the order of the source. -/
def children : Node → List Node
  | expr e => e.children
  | block _ statements => statements.map .expr

/-- The second node is the first, or somewhere inside it. -/
def Holds : Node → Node → Prop := Relation.ReflTransGen fun x y => y ∈ x.children

end Node

/-- The node of a whole program. -/
def Program.node (p : Program) : Node := .block p.span p.statements

/-! ## Rows -/

/-- The span goes from the start of one of the tokens to the end of one. -/
structure Span.Ends (tokens : List Token) (s : Span) : Prop where
  start : ∃ t ∈ tokens, s.start = t.span.start
  stop : ∃ t ∈ tokens, s.stop = t.span.stop

theorem Token.ends {tokens : List Token} {t : Token} (h : t ∈ tokens) : t.span.Ends tokens :=
  ⟨⟨t, h, rfl⟩, ⟨t, h, rfl⟩⟩

/-- The nodes stand between two indices, one behind the other, and so do the children of each
between its ends. -/
inductive Row (tokens : List Token) : Nat → List Node → Nat → Prop where
  | nil {lo hi : Nat} (h : lo ≤ hi) : Row tokens lo [] hi
  | cons {lo hi : Nat} {x : Node} {rest : List Node} (hends : x.span.Ends tokens)
    (hle : lo ≤ x.span.start.index) (hlt : x.span.start.index < x.span.stop.index)
    (hchildren : Row tokens x.span.start.index x.children x.span.stop.index)
    (hrest : Row tokens x.span.stop.index rest hi) : Row tokens lo (x :: rest) hi

namespace Row

variable {tokens : List Token} {lo lo' mid hi hi' : Nat} {x first : Node} {xs ys rest : List Node}

theorem le (h : Row tokens lo xs hi) : lo ≤ hi := by
  induction h with
  | nil h => exact h
  | cons _ hle hlt _ _ _ ih => omega

theorem mono (h : Row tokens lo xs hi) (hlo : lo' ≤ lo) (hhi : hi ≤ hi') :
    Row tokens lo' xs hi' := by
  induction h generalizing lo' with
  | nil h => exact .nil (by omega)
  | cons hends hle hlt hchildren _ _ ih =>
    exact .cons hends (Nat.le_trans hlo hle) hlt hchildren (ih (Nat.le_refl _) hhi)

theorem append (hxs : Row tokens lo xs mid) (hys : Row tokens mid ys hi) :
    Row tokens lo (xs ++ ys) hi := by
  induction hxs with
  | nil h => exact hys.mono h (Nat.le_refl _)
  | cons hends hle hlt hchildren _ _ ih => exact .cons hends hle hlt hchildren (ih hys)

/-- A row of one node ends where the node does. -/
theorem single (h : Row tokens lo [x] hi) :
    Row tokens lo [x] x.span.stop.index ∧ x.span.stop.index ≤ hi := by
  cases h with
  | cons hends hle hlt hchildren hrest =>
    exact ⟨.cons hends hle hlt hchildren (.nil (Nat.le_refl _)), hrest.le⟩

/-- The end of the only node of a row. -/
theorem ends (h : Row tokens lo [x] hi) : x.span.Ends tokens := by
  cases h with
  | cons hends _ _ _ _ => exact hends

/-- A node that begins with its first child, and ends where the row of its children does. -/
theorem covering (h : Row tokens lo (first :: rest) hi) (hchildren : x.children = first :: rest)
    (hstart : x.span.start = first.span.start)
    (hstop : ∃ t ∈ tokens, x.span.stop = t.span.stop) (hhi : x.span.stop.index = hi) :
    Row tokens lo [x] hi := by
  cases h with
  | cons hends hle hlt hinner hrest =>
    have hlast := hrest.le
    rw [← hstart] at hle hlt hinner
    refine .cons ⟨hstart ▸ hends.start, hstop⟩ hle (by omega) ?_ (.nil (Nat.le_of_eq hhi))
    rw [hchildren, hhi]
    exact .cons hends (Nat.le_of_eq (congrArg _ hstart)) (hstart ▸ hlt) (hstart ▸ hinner) hrest

/-- What holds of each member of a row. -/
theorem of_mem (h : Row tokens lo xs hi) (hx : x ∈ xs) :
    x.span.Ends tokens ∧ lo ≤ x.span.start.index ∧ x.span.start.index < x.span.stop.index ∧
      x.span.stop.index ≤ hi ∧ Row tokens x.span.start.index x.children x.span.stop.index := by
  induction h with
  | nil h => cases hx
  | cons hends hle hlt hchildren hrest _ ih =>
    rcases List.mem_cons.1 hx with rfl | hx
    · exact ⟨hends, hle, hlt, hrest.le, hchildren⟩
    · obtain ⟨hends', hle', hlt', hstop', hinner'⟩ := ih hx
      exact ⟨hends', by omega, hlt', hstop', hinner'⟩

/-- The members of a row do not overlap. -/
theorem pairwise (h : Row tokens lo xs hi) :
    xs.Pairwise fun x y => x.span.stop.index ≤ y.span.start.index := by
  induction h with
  | nil h => exact .nil
  | cons _ _ _ _ hrest _ ih =>
    exact List.pairwise_cons.2 ⟨fun y hy => (hrest.of_mem hy).2.1, ih⟩

end Row

namespace Syntax

open Token

/-! ## Tokens that a row is read from -/

/-- The last one of some tokens, or the one in front of them. -/
theorem getLast?_cons_eq (t : Token) (ts : List Token) :
    (t :: ts).getLast? = some (ts.getLastD t) := by
  rw [List.getLast?_cons, List.getLastD_eq_getLast?]

/-- Some of the tokens, between two indices. -/
structure Stretch (source : Source) (tokens : List Token) (lo : Nat) (ts : List Token) (hi : Nat) :
    Prop where
  spread : Spread source lo ts hi
  subset : ts ⊆ tokens

namespace Stretch

variable {source : Source} {tokens ts us : List Token} {t u : Token} {lo hi : Nat}

theorem append_inv (h : Stretch source tokens lo (ts ++ us) hi) :
    ∃ mid, Stretch source tokens lo ts mid ∧ Stretch source tokens mid us hi := by
  obtain ⟨mid, hleft, hright⟩ := h.spread.append_inv
  obtain ⟨hts, hus⟩ := List.append_subset.1 h.subset
  exact ⟨mid, ⟨hleft, hts⟩, ⟨hright, hus⟩⟩

/-- The tokens behind the first one stand behind its end. -/
theorem rest (h : Stretch source tokens lo (t :: ts) hi) :
    Stretch source tokens t.span.stop.index ts hi :=
  ⟨h.spread.cons_inv.2, List.subset_of_cons_subset h.subset⟩

theorem tail (h : Stretch source tokens lo (t :: ts) hi) : Stretch source tokens lo ts hi :=
  ⟨h.spread.tail, List.subset_of_cons_subset h.subset⟩

/-- The tokens up to the end of the last one. -/
theorem upTo_last (h : Stretch source tokens lo ts hi) (hu : ts.getLast? = some u) :
    Stretch source tokens lo ts u.span.stop.index := by
  refine ⟨?_, h.subset⟩
  have hspread := h.spread
  clear h
  induction hspread with
  | nil h => cases hu
  | @cons lo hi t ts hcoherent hsource hle h ih =>
    cases ts with
    | nil =>
      cases hu
      exact .cons hcoherent hsource hle (.nil (Nat.le_refl _))
    | cons t' ts => exact .cons hcoherent hsource hle (ih hu)

/-- The last one is among the tokens, and ends where they do or before. -/
theorem last (h : Stretch source tokens lo ts hi) (hu : ts.getLast? = some u) :
    (∃ v ∈ tokens, u.span.stop = v.span.stop) ∧ u.span.stop.index ≤ hi := by
  have hmem := List.mem_of_getLast? hu
  exact ⟨⟨u, h.subset hmem, rfl⟩, (h.spread.between u hmem).stop_le⟩

/-- The tokens from the start of the first one to the end of the last. -/
theorem fit (h : Stretch source tokens lo ts hi) (ht : ts.head? = some t)
    (hu : ts.getLast? = some u) :
    Stretch source tokens t.span.start.index ts u.span.stop.index := by
  obtain ⟨ts, rfl⟩ := List.head?_eq_some_iff.1 ht
  obtain ⟨hfirst, hrest⟩ := (h.upTo_last hu).spread.cons_inv
  exact ⟨.cons hfirst.coherent hfirst.source_eq (Nat.le_refl _) hrest, h.subset⟩

/-- A node without children, made from one token. -/
theorem leaf (h : Stretch source tokens lo [t] hi) {x : Node} (hspan : x.span = t.span)
    (hchildren : x.children = []) : Row tokens lo [x] hi := by
  obtain ⟨hfirst, hrest⟩ := h.spread.cons_inv
  have hlt := hfirst.coherent.lt
  refine .cons ?_ ?_ ?_ ?_ (.nil ?_)
  all_goals rw [hspan]
  · exact Token.ends (h.subset List.mem_cons_self)
  · exact hfirst.le_start
  · exact hlt
  · rw [hchildren]
    exact .nil (Nat.le_of_lt hlt)
  · exact hrest.le

/-- A node from its first token to its last. -/
theorem whole (h : Stretch source tokens lo ts hi) (ht : ts.head? = some t)
    (hu : ts.getLast? = some u) {x : Node} (hspan : x.span = t.span.through u.span)
    (hchildren : Row tokens t.span.start.index x.children u.span.stop.index) :
    Row tokens lo [x] hi := by
  obtain ⟨ts, rfl⟩ := List.head?_eq_some_iff.1 ht
  obtain ⟨hstop, hle⟩ := h.last hu
  obtain ⟨hfirst, hrest⟩ := (h.upTo_last hu).spread.cons_inv
  have hlt := hfirst.coherent.lt
  have hlast := hrest.le
  refine .cons ?_ ?_ ?_ ?_ (.nil ?_)
  all_goals rw [hspan]
  · exact ⟨⟨t, h.subset List.mem_cons_self, rfl⟩, hstop⟩
  · exact hfirst.le_start
  · show t.span.start.index < u.span.stop.index
    omega
  · exact hchildren
  · exact hle

/-- A node from its first token to the end of its only child. -/
theorem behind (h : Stretch source tokens lo (t :: ts) hi) {x y : Node}
    (hrow : Row tokens t.span.stop.index [y] hi) (hspan : x.span = t.span.through y.span)
    (hchildren : x.children = [y]) : Row tokens lo [x] hi := by
  obtain ⟨hfirst, hrest⟩ := h.spread.cons_inv
  have hlt := hfirst.coherent.lt
  obtain ⟨hends, hle, hlt', hstop, -⟩ := hrow.of_mem List.mem_cons_self
  refine .cons ?_ ?_ ?_ ?_ (.nil ?_)
  all_goals rw [hspan]
  · exact ⟨⟨t, h.subset List.mem_cons_self, rfl⟩, hends.stop⟩
  · exact hfirst.le_start
  · show t.span.start.index < y.span.stop.index
    omega
  · rw [hchildren]
    exact hrow.single.1.mono (Nat.le_of_lt hlt) (Nat.le_refl _)
  · exact hstop

end Stretch

/-! ## Nodes that tokens generate -/

/-- The nodes of what a nonterminal reads. -/
def Nonterminal.nodes {α : Type} : Nonterminal α → α → List Node
  | expression | comparison | chain _ | links _ _ | operand _ | rightOperand _ | factor | call
  | atom | forLoop | function => fun e => [.expr e]
  | items _ _ | moreItems | moreStatements => fun es => es.map .expr
  | case => fun parts => .expr parts.1 :: parts.2.1.node :: parts.2.2.nodes
  | branches => Branches.nodes
  | step => fun e => e.toList.map .expr
  | closedBody | functionBody => fun b => [b.node]
  | statements => fun p => [p.node]

/-- The nodes that a nonterminal has in hand before it reads. -/
def Nonterminal.begun {α : Type} : Nonterminal α → List Node
  | links _ left => [.expr left]
  | _ => []

/-- The nodes of what tokens generate stand in a row where the tokens are, behind those that were
in hand before. -/
theorem row_of_generates {α : Type} {r : Nonterminal α} {ts : List Token} {a : α}
    (h : Generates r ts a) {source : Source} {tokens : List Token} {lo mid hi : ℕ}
    (hts : Stretch source tokens mid ts hi) (hr : Row tokens lo r.begun mid) :
    Row tokens lo (r.nodes a) hi := by
  have none {lo : ℕ} : Row tokens lo [] lo := .nil (Nat.le_refl lo)
  induction h generalizing lo mid hi with
  | bind hpush hname harrow _ ih =>
    have hvalue := ih hts.rest.tail.tail none
    exact (hts.behind hvalue rfl rfl).mono hr.le (Nat.le_refl _)
  | expression _ ih => exact ih hts hr
  | negation hsign _ ih =>
    exact (hts.behind (ih hts.rest none) rfl rfl).mono hr.le (Nat.le_refl _)
  | comparison _ ih => exact ih hts hr
  | chain _ _ ih ih' =>
    obtain ⟨mid', hleft, hright⟩ := hts.append_inv
    exact ih' hright (ih hleft hr)
  | noLink => exact hr.mono (Nat.le_refl _) hts.spread.le
  | link hop _ _ ih ih' =>
    obtain ⟨mid', hleft, hright⟩ := hts.append_inv
    obtain ⟨hoperand, hle⟩ := (ih hleft.tail none).single
    refine ih' hright (.mono ?_ (Nat.le_refl _) hle)
    exact (hr.append hoperand).covering rfl rfl hoperand.ends.stop rfl
  | junctionOperand _ ih => exact ih hts hr
  | comparisonOperand _ ih => exact ih hts hr
  | sumOperand _ ih => exact ih hts hr
  | productOperand _ ih => exact ih hts hr
  | powerOperand _ ih => exact ih hts hr
  | exponent _ ih => exact ih hts hr
  | rightOperand hlevel _ ih => exact ih hts hr
  | sign hop _ ih =>
    exact (hts.behind (ih hts.rest none) rfl rfl).mono hr.le (Nat.le_refl _)
  | factor _ ih => exact ih hts hr
  | plain _ ih => exact ih hts hr
  | @call paren x ts us callee args _ hparen _ ih ih' =>
    obtain ⟨mid', hleft, hright⟩ := hts.append_inv
    have hlast := getLast?_cons_eq paren us
    obtain ⟨hstop, hle⟩ := hright.last hlast
    have hargs := ih' (hright.upTo_last hlast).tail none
    refine .mono ?_ (Nat.le_refl _) hle
    exact ((ih hleft hr).append hargs).covering rfl rfl hstop rfl
  | noItems hclose => exact .nil (Nat.le_trans hr.le hts.spread.le)
  | items _ _ hclose ih ih' =>
    obtain ⟨mid', hleft, hclose⟩ := hts.append_inv
    obtain ⟨mid'', hfirst, hrest⟩ := hleft.append_inv
    exact ((ih hfirst hr).append (ih' hrest none)).mono (Nat.le_refl _) hclose.spread.le
  | noMoreItems => exact .nil (Nat.le_trans hr.le hts.spread.le)
  | moreItems hcomma _ _ ih ih' =>
    obtain ⟨mid', hleft, hright⟩ := hts.append_inv
    exact (ih hleft.tail hr).append (ih' hright none)
  | whole ht => exact (hts.leaf rfl rfl).mono hr.le (Nat.le_refl _)
  | decimal ht => exact (hts.leaf rfl rfl).mono hr.le (Nat.le_refl _)
  | text ht => exact (hts.leaf rfl rfl).mono hr.le (Nat.le_refl _)
  | access ht => exact (hts.leaf rfl rfl).mono hr.le (Nat.le_refl _)
  | rebind hname harrow _ ih =>
    exact (hts.behind (ih hts.rest.tail none) rfl rfl).mono hr.le (Nat.le_refl _)
  | paren hleft _ hright ih =>
    obtain ⟨mid', hinner, hclose⟩ := hts.append_inv
    exact (ih hinner.tail hr).mono (Nat.le_refl _) hclose.spread.le
  | @list bracket x ts es hbracket _ ih =>
    have hlast := getLast?_cons_eq bracket ts
    refine .mono ?_ hr.le (Nat.le_refl _)
    exact hts.whole rfl hlast rfl (ih (hts.fit rfl hlast).tail none)
  | @choice word ts condition body rest hword _ ih =>
    have hlast := getLast?_cons_eq word ts
    refine .mono ?_ hr.le (Nat.le_refl _)
    exact hts.whole rfl hlast rfl (ih (hts.fit rfl hlast).tail none)
  | forLoop _ ih => exact ih hts hr
  | @whileLoop word doWord ts us condition body hword _ hdo _ ih ih' =>
    have hlast : (word :: ts ++ doWord :: us).getLast? = some (us.getLastD doWord) := by
      rw [List.getLast?_append, getLast?_cons_eq, Option.some_or]
    obtain ⟨mid', hleft, hright⟩ := (hts.fit rfl hlast).append_inv
    refine .mono ?_ hr.le (Nat.le_refl _)
    exact hts.whole rfl hlast rfl ((ih hleft.tail none).append (ih' hright.tail none))
  | function _ ih => exact ih hts hr
  | closedCase _ hdo hseparator _ hfin ih ih' =>
    obtain ⟨mid', hleft, hclose⟩ := hts.append_inv
    obtain ⟨mid'', hcondition, hblock⟩ := hleft.append_inv
    have hbody := ih' hblock.tail.tail none
    exact ((ih hcondition hr).append hbody).mono (Nat.le_refl _) hclose.spread.le
  | blockCase _ hdo hseparator _ _ hne ih ih' ih'' =>
    obtain ⟨mid', hleft, hrest⟩ := hts.append_inv
    obtain ⟨mid'', hcondition, hblock⟩ := hleft.append_inv
    have hbody := ih' hblock.tail.tail none
    exact ((ih hcondition hr).append hbody).append (ih'' hrest none)
  | inlineCase _ hdo _ _ ih ih' ih'' =>
    obtain ⟨mid', hleft, hrest⟩ := hts.append_inv
    obtain ⟨mid'', hcondition, hvalue⟩ := hleft.append_inv
    have hbody := ih' hvalue.tail none
    exact ((ih hcondition hr).append hbody).append (ih'' hrest none)
  | noBranch => exact .nil (Nat.le_trans hr.le hts.spread.le)
  | elif hword _ ih => exact ih hts.tail hr
  | otherwise hword _ ih => exact ih hts.tail hr
  | @counting word name arrow untilWord doWord ts us vs ws _ _ _ _ hword hname harrow _ huntil _ _
      hdo _ ihfirst ihbound ihstep ihbody =>
    have hlast : (word :: name :: arrow :: ts ++ untilWord :: us ++ vs ++ doWord :: ws).getLast? =
        some (ws.getLastD doWord) := by
      rw [List.getLast?_append, getLast?_cons_eq, Option.some_or]
    obtain ⟨mid₁, hleft, hbody⟩ := (hts.fit rfl hlast).append_inv
    obtain ⟨mid₂, hleft, hstep⟩ := hleft.append_inv
    obtain ⟨mid₃, hfirst, hbound⟩ := hleft.append_inv
    have hrow := (ihfirst hfirst.tail.tail.tail none).append (ihbound hbound.tail none)
    refine .mono ?_ hr.le (Nat.le_refl _)
    exact hts.whole rfl hlast rfl
      (hrow.append ((ihstep hstep none).append (ihbody hbody.tail none)))
  | noStep => exact .nil (Nat.le_trans hr.le hts.spread.le)
  | step hword _ ih => exact ih hts.tail hr
  | inlineBody _ ih => exact ih hts hr
  | blockBody hseparator _ hfin ih =>
    obtain ⟨mid', hblock, hclose⟩ := hts.append_inv
    exact (ih hblock.tail hr).mono (Nat.le_refl _) hclose.spread.le
  | @definition word ts us vs name params body hword hname hparams _ ih =>
    have hlast := getLast?_cons_eq word (ts ++ us ++ vs)
    obtain ⟨mid', hhead, hbody⟩ := (hts.fit rfl hlast).append_inv
    have hrow := (ih hbody none).mono hhead.spread.le (Nat.le_refl _)
    refine .mono ?_ hr.le (Nat.le_refl _)
    exact hts.whole rfl hlast rfl hrow
  | arrowBody harrow _ ih => exact ih hts.tail hr
  | functionBlock hseparator _ hfin ih =>
    obtain ⟨mid', hblock, hclose⟩ := hts.append_inv
    exact (ih hblock.tail hr).mono (Nat.le_refl _) hclose.spread.le
  | statements hseps _ _ hlast ih ih' =>
    rw [List.append_assoc] at hts
    obtain ⟨mid₁, hseps, hblock⟩ := hts.append_inv
    obtain ⟨hstop, hle⟩ := hblock.last hlast
    obtain ⟨mid₂, hfirst, hrest⟩ := (hblock.upTo_last hlast).append_inv
    have hrow := (ih hfirst none).append (ih' hrest none)
    refine .mono ?_ (Nat.le_trans hr.le hseps.spread.le) hle
    exact hrow.covering rfl rfl hstop rfl
  | noStatement => exact .nil (Nat.le_trans hr.le hts.spread.le)
  | trailing hseparator hseps => exact .nil (Nat.le_trans hr.le hts.spread.le)
  | moreStatements hseparator hseps _ _ ih ih' =>
    obtain ⟨mid', hleft, hrest⟩ := hts.append_inv
    obtain ⟨mid'', hseps, hfirst⟩ := hleft.append_inv
    exact (ih hfirst (hr.mono (Nat.le_refl _) hseps.spread.le)).append (ih' hrest none)

end Syntax

/-! ## Programs -/

open Syntax in
/-- The tokens that a program was read from. -/
theorem exists_tokens_of_read {source : Source} {p : Program} (h : Program.read source = .ok p) :
    ∃ tokens, Token.scan source = .ok tokens ∧ parse tokens = .ok p := by
  unfold Program.read at h
  cases hscan : Token.scan source with
  | error f =>
    rw [hscan] at h
    cases h
  | ok tokens =>
    simp only [hscan] at h
    cases hparse : parse tokens with
    | error f =>
      rw [hparse] at h
      cases h
    | ok root =>
      rw [hparse] at h
      cases h
      exact ⟨tokens, rfl, hparse⟩

/-- The node goes from the start of a token to the end of one, and neither stands for the end of
the text; its children stand inside it, one behind the other. -/
structure Node.Nests (source : Source) (tokens : List Token) (x : Node) : Prop where
  start : ∃ t ∈ tokens, t.kind ≠ .finish ∧ x.span.start = t.span.start
  stop : ∃ t ∈ tokens, t.kind ≠ .finish ∧ x.span.stop = t.span.stop
  lt : x.span.start.index < x.span.stop.index
  stop_le : x.span.stop.index ≤ source.text.toList.length
  inside : ∀ y ∈ x.children,
    x.span.start.index ≤ y.span.start.index ∧ y.span.stop.index ≤ x.span.stop.index
  apart : x.children.Pairwise fun y z => y.span.stop.index ≤ z.span.start.index

/-- What is inside a member of a row is itself a row of one node. -/
theorem Row.of_holds {tokens : List Token} {lo hi : Nat} {x y : Node}
    (h : Row tokens lo [x] hi) (hxy : x.Holds y) : ∃ lo' hi', Row tokens lo' [y] hi' := by
  induction hxy with
  | refl => exact ⟨lo, hi, h⟩
  | tail _ hmem ih =>
    obtain ⟨lo', hi', hrow⟩ := ih
    obtain ⟨-, -, -, -, hchildren⟩ := hrow.of_mem List.mem_cons_self
    obtain ⟨hends, hle, hlt, hstop, hinner⟩ := hchildren.of_mem hmem
    exact ⟨_, _, .cons hends hle hlt hinner (.nil hstop)⟩

open Syntax in
/-- Spans nest.  Every node of a program goes from the start of a token to the end of one, within
the text; its children stand inside it, and none begins before the one in front of it has ended. -/
theorem read_nodes_nest {source : Source} {p : Program} (h : Program.read source = .ok p) :
    ∃ tokens, Token.scan source = .ok tokens ∧
      ∀ x, p.node.Holds x → x.Nests source tokens := by
  obtain ⟨tokens, hscan, hparse⟩ := exists_tokens_of_read h
  obtain ⟨ts, rest, rfl, hkind, -, hgenerates⟩ := generates_of_parse hparse
  obtain ⟨mid, hspread, -⟩ := (Token.spread_of_scan hscan).append_inv
  have hrow := row_of_generates hgenerates ⟨hspread, List.Subset.refl ts⟩ (.nil (Nat.le_refl 0))
  refine ⟨_, hscan, fun x hx => ?_⟩
  obtain ⟨lo, hi, hx⟩ := hrow.of_holds hx
  obtain ⟨⟨⟨t, ht, hstart⟩, ⟨u, hu, hstop⟩⟩, -, hlt, -, hchildren⟩ :=
    hx.of_mem List.mem_cons_self
  have hslice := Token.slices_of_scan hscan u (List.mem_append_left _ hu) (hkind u hu)
  exact {
    start := ⟨t, List.mem_append_left _ ht, hkind t ht, hstart⟩
    stop := ⟨u, List.mem_append_left _ hu, hkind u hu, hstop⟩
    lt := hlt
    stop_le := hstop ▸ hslice.stop_le
    inside := fun y hy => ⟨(hchildren.of_mem hy).2.1, (hchildren.of_mem hy).2.2.2.1⟩
    apart := hchildren.pairwise }

/-- Parentheses are no part of a condition, and the separators behind its last statement are part
of a block. -/
theorem read_nodes_nest_block :
    let source : Source := ⟨"<stdin>", "if (a) do\n(b) + f(c)\n\nfin"⟩
    ∃ p, Program.read source = .ok p ∧
      (p.statements.map fun e => e.children.map fun x => (x.span.start.index, x.span.stop.index)) =
        [[(4, 5), (11, 22)]] ∧
      ∃ tokens, Token.scan source = .ok tokens ∧
        ∀ x, p.node.Holds x → x.Nests source tokens := by
  intro source
  have hmap : ((Program.read source).map fun p => p.statements.map fun e => e.children.map fun x =>
      (x.span.start.index, x.span.stop.index)).toOption = some [[(4, 5), (11, 22)]] := by
    decide +kernel
  cases hread : Program.read source with
  | error failure =>
    rw [hread] at hmap
    cases hmap
  | ok p =>
    rw [hread] at hmap
    exact ⟨p, rfl, Option.some.inj hmap, read_nodes_nest hread⟩

end UniformScript
