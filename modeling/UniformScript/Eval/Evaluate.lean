import UniformScript.Eval.Builtins
import UniformScript.Value.Operation

/-!
# Evaluation of expressions

Operands, elements and arguments are evaluated from left to right, and both operands of every
operator are evaluated.  A choice and a loop with a block for a body have no value of their own,
and give zero; with an expression for a body, a loop gives the list of the values of its rounds.
A function called with a block for a body gives the list of the values of its statements.

A counting loop goes upwards if it starts at zero or above and downwards otherwise.  Its bound and
step are evaluated once, and the counter does not depend on what the body does to the variable.

Evaluation is given a bound on its depth; each step down to a part of an expression, along a list
or into the next round of a loop takes one from it.
-/

namespace UniformScript.Eval

/-- Whether a counting loop goes on at `i`. -/
def inRange (upwards : Bool) (i bound : Float) : Bool := if upwards then i < bound else bound < i

/-- The value of a loop that has collected the values of its rounds, the last first. -/
def loopValue (body : Body) (collected : List Value) : Value :=
  if body.isBlock then .null else .list collected.reverse

mutual

/-- The value of an expression. -/
def eval (fuel : Nat) (ctx : Context) (e : Expr) : Eval Value :=
  match fuel with
  | 0 => exhausted
  | n + 1 =>
    match e with
    | .number _ _ x => Pure.pure (.number x)
    | .text _ s => Pure.pure (.text s)
    | .list _ elements => do
      let vs ← evalAll n ctx elements
      return .list vs
    | .access span name => do
      match ← ask fun a => a.get ctx.frame name with
      | some v => return v
      | none => raise ctx (.undefined name) span
    | .bind _ name value => do
      let v ← eval n ctx value
      set ctx.frame name v
      return v
    | .rebind _ name value => do
      let v ← eval n ctx value
      let _ ← change fun a => a.reassign ctx.frame name v
      return v
    | .unary span op operand => do
      let v ← eval n ctx operand
      match op.apply v with
      | .ok r => return r
      | .error _ => raise ctx (.illegalUnary op v.type) span
    | .binary span op left right => do
      let v ← eval n ctx left
      let w ← eval n (ctx.holding v) right
      match op.apply v w with
      | .ok r => return r
      | .error .zeroDivisor => raise ctx .divisionByZero right.span
      | .error .illegal => raise ctx (.illegalBinary op v.type w.type) span
    | .choice _ condition body rest => choose n ctx condition body rest
    | .forLoop _ name first bound step body => do
      let first ← evalNumber n ctx first
      let bound ← evalNumber n ctx bound
      let step ← evalStep n ctx step
      count n ctx name (0 ≤ first) bound step body first []
    | .whileLoop _ condition body => rounds n ctx condition body []
    | .function span name params body => do
      let home ← ask fun a => a.handle ctx.frame
      let v := Value.function ⟨name, params, body, ⟨ctx.run, span.start.index⟩, home⟩
      match name with
      | some name => set ctx.frame name v
      | none => Pure.pure ()
      return v
    | .call span callee args => do
      let v ← eval n ctx callee
      let vs ← evalAll n (ctx.holding v) args
      match v with
      | .function f => callFunction n (ctx.holding v) f vs span
      | .builtin b => callBuiltin (ctx.holding v) b vs span
      | other => raise ctx (.notCallable other.type) callee.span

/-- The values of expressions, from left to right. -/
def evalAll (fuel : Nat) (ctx : Context) (es : List Expr) : Eval (List Value) :=
  match fuel with
  | 0 => exhausted
  | n + 1 =>
    match es with
    | [] => Pure.pure []
    | e :: rest => do
      let v ← eval n ctx e
      let vs ← evalAll n (ctx.holding v) rest
      return v :: vs

/-- The value of an expression that has to be a number. -/
def evalNumber (fuel : Nat) (ctx : Context) (e : Expr) : Eval Float :=
  match fuel with
  | 0 => exhausted
  | n + 1 => do
    match ← eval n ctx e with
    | .number x => return x
    | other => raise ctx (.expectedNumber other.type) e.span

/-- The step of a counting loop, which is one if it is left out. -/
def evalStep (fuel : Nat) (ctx : Context) (step : Option Expr) : Eval Float :=
  match fuel with
  | 0 => exhausted
  | n + 1 =>
    match step with
    | none => Pure.pure 1
    | some e => evalNumber n ctx e

/-- The value of a body: of its expression, or the list of the values of its statements. -/
def evalBody (fuel : Nat) (ctx : Context) (body : Body) : Eval Value :=
  match fuel with
  | 0 => exhausted
  | n + 1 =>
    match body with
    | .inline e => eval n ctx e
    | .block _ statements => do
      let vs ← evalAll n ctx statements
      return .list vs

/-- The value of a branch that is taken: none of its own if it is a block. -/
def evalBranch (fuel : Nat) (ctx : Context) (body : Body) : Eval Value :=
  match fuel with
  | 0 => exhausted
  | n + 1 => do
    let v ← evalBody n ctx body
    return if body.isBlock then .null else v

/-- Takes a case if its condition holds, and otherwise goes on to the branches behind it. -/
def choose (fuel : Nat) (ctx : Context) (condition : Expr) (body : Body) (rest : Branches) :
    Eval Value :=
  match fuel with
  | 0 => exhausted
  | n + 1 => do
    let c ← eval n ctx condition
    if c.isTrue then evalBranch n (ctx.holding c) body
    else
      match rest with
      | .nothing => return .null
      | .elif condition body rest => choose n ctx condition body rest
      | .otherwise body => evalBranch n ctx body

/-- The rounds of a counting loop from `i` on, behind those whose values are collected, the last
first. -/
def count (fuel : Nat) (ctx : Context) (name : String) (upwards : Bool) (bound step : Float)
    (body : Body) (i : Float) (collected : List Value) : Eval Value :=
  match fuel with
  | 0 => exhausted
  | n + 1 =>
    if inRange upwards i bound then do
      set ctx.frame name (.number i)
      let v ← evalBody n ctx body
      if body.isBlock then count n ctx name upwards bound step body (i + step) collected
      else count n (ctx.holding v) name upwards bound step body (i + step) (v :: collected)
    else Pure.pure (loopValue body collected)

/-- The rounds of a conditional loop, behind those whose values are collected, the last first. -/
def rounds (fuel : Nat) (ctx : Context) (condition : Expr) (body : Body) (collected : List Value) :
    Eval Value :=
  match fuel with
  | 0 => exhausted
  | n + 1 => do
    let c ← eval n ctx condition
    if c.isTrue then
      let v ← evalBody n (ctx.holding c) body
      if body.isBlock then rounds n ctx condition body collected
      else rounds n (ctx.holding v) condition body (v :: collected)
    else return loopValue body collected

/-- Calls a function: its body is evaluated in a frame of its own, around which is the frame the
function was defined in. -/
def callFunction (fuel : Nat) (ctx : Context) (f : Function) (args : List Value) (span : Span) :
    Eval Value :=
  match fuel with
  | 0 => exhausted
  | n + 1 => do
    checkArity ctx f.shownName f.params.length args.length span
    let frame ← change fun a => a.push (some f.home.index)
    setAll frame (f.params.zip args)
    releasing ctx.held frame
      (evalBody n (ctx.entering f.shownName span.start frame f.site.run) f.body)

end

end UniformScript.Eval
