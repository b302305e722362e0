import UniformScript.Proofs.Syntax.Nested

/-!
# Where the parts of a program are

Every node of a program goes from the start of a token to the end of one, and tokens stand one
behind the other.  So every part of a program covers a part of the source that the program was read
from.

* `Expr.throughout_iff`: what holds throughout an expression holds of all its parts.
* `Expr.parts_eq`: the parts of an expression are those of its children, and the expression itself.
* `Row.ends_of_mem_parts`: where the parts of nodes in a row begin and end.
* `covers_of_read`: the spans of the parts of a program.
-/

namespace UniformScript

/-! ## Parts -/

mutual

/-- The expression and all expressions inside it. -/
def Expr.parts : Expr → List Expr
  | .number span lexeme value => [.number span lexeme value]
  | .text span value => [.text span value]
  | .list span elements => .list span elements :: partsAll elements
  | .access span name => [.access span name]
  | .bind span name value => .bind span name value :: value.parts
  | .rebind span name value => .rebind span name value :: value.parts
  | .unary span op operand => .unary span op operand :: operand.parts
  | .binary span op left right => .binary span op left right :: (left.parts ++ right.parts)
  | .choice span condition body rest =>
    .choice span condition body rest :: (condition.parts ++ body.parts ++ rest.parts)
  | .forLoop span name first bound step body =>
    .forLoop span name first bound step body ::
      (first.parts ++ bound.parts ++ partsOfStep step ++ body.parts)
  | .whileLoop span condition body =>
    .whileLoop span condition body :: (condition.parts ++ body.parts)
  | .function span name params body => .function span name params body :: body.parts
  | .call span callee args => .call span callee args :: (callee.parts ++ partsAll args)

/-- The expressions in a body. -/
def Body.parts : Body → List Expr
  | .inline value => value.parts
  | .block _ statements => partsAll statements

/-- The expressions in branches. -/
def Branches.parts : Branches → List Expr
  | .nothing => []
  | .elif condition body rest => condition.parts ++ body.parts ++ rest.parts
  | .otherwise body => body.parts

/-- The expressions in the step of a counting loop. -/
def partsOfStep : Option Expr → List Expr
  | none => []
  | some step => step.parts

/-- The expressions in a list. -/
def partsAll : List Expr → List Expr
  | [] => []
  | e :: rest => e.parts ++ partsAll rest

end

/-- All expressions of a program. -/
def Program.parts (p : Program) : List Expr := partsAll p.statements

/-- A property of expressions, with nothing asked of bodies, everywhere. -/
abbrev Expr.Throughout (P : Expr → Prop) (e : Expr) : Prop := e.Everywhere P fun _ => True

@[inherit_doc Expr.Throughout]
abbrev Body.Throughout (P : Expr → Prop) (b : Body) : Prop := b.Everywhere P fun _ => True

@[inherit_doc Expr.Throughout]
abbrev Branches.Throughout (P : Expr → Prop) (b : Branches) : Prop := b.Everywhere P fun _ => True

@[inherit_doc Expr.Throughout]
abbrev ThroughoutStep (P : Expr → Prop) (e : Option Expr) : Prop :=
  EverywhereInStep P (fun _ => True) e

@[inherit_doc Expr.Throughout]
abbrev ThroughoutAll (P : Expr → Prop) (es : List Expr) : Prop := EverywhereIn P (fun _ => True) es

mutual

/-- What holds throughout an expression holds of all its parts, and the other way round. -/
theorem Expr.throughout_iff {P : Expr → Prop} :
    ∀ e : Expr, e.Throughout P ↔ ∀ x ∈ e.parts, P x
  | .number _ _ _ => by simp [Expr.parts, Expr.Everywhere]
  | .text _ _ => by simp [Expr.parts, Expr.Everywhere]
  | .list _ elements => by
    simp [Expr.parts, Expr.Everywhere, throughoutAll_iff elements]
  | .access _ _ => by simp [Expr.parts, Expr.Everywhere]
  | .bind _ _ value => by simp [Expr.parts, Expr.Everywhere, value.throughout_iff]
  | .rebind _ _ value => by simp [Expr.parts, Expr.Everywhere, value.throughout_iff]
  | .unary _ _ operand => by simp [Expr.parts, Expr.Everywhere, operand.throughout_iff]
  | .binary _ _ left right => by
    simp only [Expr.parts, Expr.Everywhere, left.throughout_iff, right.throughout_iff,
      List.forall_mem_cons, List.forall_mem_append]
  | .choice _ condition body rest => by
    simp only [Expr.parts, Expr.Everywhere, condition.throughout_iff, body.throughout_iff,
      rest.throughout_iff, List.forall_mem_cons, List.forall_mem_append, and_assoc]
  | .forLoop _ _ first bound step body => by
    simp only [Expr.parts, Expr.Everywhere, first.throughout_iff, bound.throughout_iff,
      throughoutStep_iff step, body.throughout_iff, List.forall_mem_cons, List.forall_mem_append,
      and_assoc]
  | .whileLoop _ condition body => by
    simp only [Expr.parts, Expr.Everywhere, condition.throughout_iff, body.throughout_iff,
      List.forall_mem_cons, List.forall_mem_append]
  | .function _ _ _ body => by simp [Expr.parts, Expr.Everywhere, body.throughout_iff]
  | .call _ callee args => by
    simp only [Expr.parts, Expr.Everywhere, callee.throughout_iff, throughoutAll_iff args,
      List.forall_mem_cons, List.forall_mem_append]

theorem Body.throughout_iff {P : Expr → Prop} :
    ∀ b : Body, b.Throughout P ↔ ∀ x ∈ b.parts, P x
  | .inline value => by simp only [Body.parts, Body.Everywhere, value.throughout_iff, true_and]
  | .block _ statements => by
    simp only [Body.parts, Body.Everywhere, throughoutAll_iff statements, true_and]

theorem Branches.throughout_iff {P : Expr → Prop} :
    ∀ b : Branches, b.Throughout P ↔ ∀ x ∈ b.parts, P x
  | .nothing => by simp [Branches.parts, Branches.Everywhere]
  | .elif condition body rest => by
    simp only [Branches.parts, Branches.Everywhere, condition.throughout_iff, body.throughout_iff,
      rest.throughout_iff, List.forall_mem_append, and_assoc]
  | .otherwise body => by simp only [Branches.parts, Branches.Everywhere, body.throughout_iff]

theorem throughoutStep_iff {P : Expr → Prop} :
    ∀ e : Option Expr, ThroughoutStep P e ↔ ∀ x ∈ partsOfStep e, P x
  | none => by simp [partsOfStep, EverywhereInStep]
  | some step => by simp only [partsOfStep, EverywhereInStep, step.throughout_iff]

theorem throughoutAll_iff {P : Expr → Prop} :
    ∀ es : List Expr, ThroughoutAll P es ↔ ∀ x ∈ partsAll es, P x
  | [] => by simp [partsAll, EverywhereIn]
  | e :: rest => by
    simp only [partsAll, EverywhereIn, e.throughout_iff, throughoutAll_iff rest,
      List.forall_mem_append]

end

/-! ## Spans -/

/-- The expression covers a part of the source. -/
def Expr.Covers (source : Source) (e : Expr) : Prop :=
  e.span.Coherent ∧ e.span.start.source = source

/-- From the start of one token to the end of another behind it. -/
theorem Expr.Covers.of_ends {source : Source} {tokens : List Token} {lo hi : ℕ} {e : Expr}
    (hts : Token.Spread source lo tokens hi) (h : e.span.Ends tokens)
    (hlt : e.span.start.index < e.span.stop.index) : e.Covers source := by
  obtain ⟨⟨t, ht, hstart⟩, ⟨u, hu, hstop⟩⟩ := h
  have hspan : e.span = t.span.through u.span := by
    cases hs : e.span with
    | mk start stop =>
      rw [hs] at hstart hstop
      exact congrArg₂ Span.mk hstart hstop
  rw [hstart, hstop] at hlt
  have hbetween := (hts.between t ht).through_of_lt (hts.between u hu) hlt
  rw [← hspan] at hbetween
  exact ⟨hbetween.coherent, hbetween.source_eq⟩

/-! ## The parts of nodes -/

/-- The expressions in a node, its own among them. -/
def Node.parts : Node → List Expr
  | expr e => e.parts
  | block _ statements => partsAll statements

@[simp] theorem Node.parts_expr (e : Expr) : (Node.expr e).parts = e.parts := rfl

@[simp] theorem Body.parts_node (b : Body) : b.node.parts = b.parts := by
  cases b <;> rfl

theorem partsAll_eq (es : List Expr) : partsAll es = (es.map Node.expr).flatMap Node.parts := by
  induction es with
  | nil => rfl
  | cons e rest ih => simp [partsAll, ih]

theorem partsOfStep_eq (e : Option Expr) :
    partsOfStep e = (e.toList.map Node.expr).flatMap Node.parts := by
  cases e <;> simp [partsOfStep]

theorem Branches.parts_eq : ∀ b : Branches, b.parts = b.nodes.flatMap Node.parts
  | .nothing => rfl
  | .elif condition body rest => by simp [Branches.parts, Branches.nodes, rest.parts_eq]
  | .otherwise body => by simp [Branches.parts, Branches.nodes]

/-- The parts of an expression are the expression itself and those of its children. -/
theorem Expr.parts_eq (e : Expr) : e.parts = e :: e.children.flatMap Node.parts := by
  cases e <;> simp [Expr.parts, Expr.children, partsAll_eq, partsOfStep_eq, Branches.parts_eq]

/-- So it is for every node; a block is no part of itself. -/
theorem Node.of_mem_parts {e : Expr} {x : Node} (h : e ∈ x.parts) :
    x = .expr e ∨ ∃ y ∈ x.children, e ∈ y.parts := by
  cases x with
  | expr e' =>
    rw [parts_expr, e'.parts_eq] at h
    exact (List.mem_cons.1 h).imp (congrArg _ ·.symm) List.mem_flatMap.1
  | block span statements =>
    exact .inr (List.mem_flatMap.1 (partsAll_eq statements ▸ h))

/-- What is in a node of a row goes from token to token, like the node. -/
theorem Row.ends_of_mem_parts {tokens : List Token} {lo hi : ℕ} {xs : List Node}
    (h : Row tokens lo xs hi) :
    ∀ x ∈ xs, ∀ e ∈ x.parts, e.span.Ends tokens ∧ e.span.start.index < e.span.stop.index := by
  induction h with
  | nil _ => simp
  | cons hends _ hlt _ _ ihchildren ihrest =>
    refine List.forall_mem_cons.2 ⟨fun e he => ?_, ihrest⟩
    rcases Node.of_mem_parts he with rfl | ⟨y, hy, he⟩
    · exact ⟨hends, hlt⟩
    · exact ihchildren y hy e he

open Syntax Token

/-- All parts of a program cover parts of the source that it was read from. -/
theorem covers_of_read {source : Source} {p : Program} (h : Program.read source = .ok p) :
    ∀ e ∈ p.parts, e.Covers source := by
  obtain ⟨tokens, hscan, hparse⟩ := exists_tokens_of_read h
  obtain ⟨ts, rest, rfl, -, -, hgenerates⟩ := generates_of_parse hparse
  obtain ⟨mid, hts, -⟩ := (spread_of_scan hscan).append_inv
  have hrow := row_of_generates hgenerates ⟨hts, List.Subset.refl ts⟩ (.nil (Nat.le_refl 0))
  intro e he
  obtain ⟨hends, hlt⟩ := hrow.ends_of_mem_parts p.node List.mem_cons_self e he
  exact .of_ends hts hends hlt

end UniformScript
