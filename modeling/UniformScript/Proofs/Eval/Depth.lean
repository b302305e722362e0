import UniformScript.Session
import UniformScript.Proofs.Eval.Task

/-!
# The bound on the depth

Evaluation is given a bound on its depth.  Where it does not meet the bound, a larger bound changes
nothing, so there is only one way for an evaluation to end.

* `Below`: a step that is like another one, as long as it does not meet the bound.
* `below_run`: evaluation with a smaller bound is below evaluation with a larger one.
* `Session.runKeeping_unique`: a session has only one answer to a source.
-/

namespace UniformScript

namespace Eval

variable {α β : Type} {n n' : Nat} {ctx : Context}

/-- The step `q` ends like `p`, wherever `p` does not meet the bound on the depth. -/
def Below (p q : Eval α) : Prop := ∀ m, p m ≠ .exhausted → q m = p m

namespace Below

theorem refl (p : Eval α) : Below p p := fun _ _ => rfl

theorem trans {p q r : Eval α} (h : Below p q) (h' : Below q r) : Below p r := by
  intro m hm
  have hq := h m hm
  rw [h' m (hq ▸ hm), hq]

theorem of_exhausted (q : Eval α) : Below exhausted q := fun _ hm => absurd rfl hm

/-- One step after the other. -/
theorem bind {p p' : Eval α} {f f' : α → Eval β} (hp : Below p p') (hf : ∀ a, Below (f a) (f' a)) :
    Below (p >>= f) (p' >>= f') := by
  intro m hm
  show Eval.bind p' f' m = Eval.bind p f m
  have hm' : Eval.bind p f m ≠ .exhausted := hm
  unfold Eval.bind at hm' ⊢
  cases hpm : p m with
  | value a m₁ =>
    rw [hpm] at hm'
    rw [hp m (by rw [hpm]; simp), hpm]
    exact hf a m₁ hm'
  | raised failure m₁ => rw [hp m (by rw [hpm]; simp), hpm]
  | faulted fault => rw [hp m (by rw [hpm]; simp), hpm]
  | exhausted =>
    rw [hpm] at hm'
    exact absurd rfl hm'

theorem releasing {p q : Eval Value} (h : Below p q) (held : List Handle) (frame : Nat) :
    Below (releasing held frame p) (releasing held frame q) := by
  intro m hm
  have hp : p m ≠ .exhausted := by
    intro hp
    apply hm
    unfold Eval.releasing
    rw [hp]
  unfold Eval.releasing
  rw [h m hp]

end Below

/-- Evaluation with the bound `n` is below evaluation with a bound one larger. -/
def BelowAt (n : Nat) : Prop :=
  ∀ (t : Task) (ctx : Context), Below (t.run n ctx) (t.run (n + 1) ctx)

namespace BelowAt

variable {e : Expr} {body : Body} {collected : List Value}

theorem expr (ih : BelowAt n) (ctx : Context) (e : Expr) :
    Below (eval (n + 1) ctx e) (eval (n + 2) ctx e) := by
  have one (ctx : Context) (e : Expr) : Below (eval n ctx e) (eval (n + 1) ctx e) :=
    ih (.expr e) ctx
  have all (ctx : Context) (es : List Expr) : Below (evalAll n ctx es) (evalAll (n + 1) ctx es) :=
    ih (.all es) ctx
  have number (e : Expr) : Below (evalNumber n ctx e) (evalNumber (n + 1) ctx e) :=
    ih (.number e) ctx
  cases e with
  | number span lexeme x => exact .refl _
  | text span s => exact .refl _
  | list span es => exact (all ctx es).bind fun vs => .refl _
  | access span name => exact .refl _
  | bind span name value => exact (one ctx value).bind fun v => .refl _
  | rebind span name value => exact (one ctx value).bind fun v => .refl _
  | unary span op operand => exact (one ctx operand).bind fun v => .refl _
  | binary span op left right =>
    apply (one ctx left).bind
    intro v
    exact (one (ctx.holding v) right).bind fun w => .refl _
  | choice span condition body rest => exact ih (.choice condition body rest) ctx
  | forLoop span name first bound step body =>
    apply (number first).bind
    intro x
    apply (number bound).bind
    intro y
    apply Below.bind (ih (.step step) ctx)
    intro z
    exact ih (.counting name (0 ≤ x) y z body x []) ctx
  | whileLoop span condition body => exact ih (.looping condition body []) ctx
  | function span name params body => exact .refl _
  | call span callee args =>
    apply (one ctx callee).bind
    intro v
    apply (all (ctx.holding v) args).bind
    intro vs
    cases v with
    | function f => exact ih (.call f vs span) _
    | _ => exact .refl _

theorem all (ih : BelowAt n) (ctx : Context) (es : List Expr) :
    Below (evalAll (n + 1) ctx es) (evalAll (n + 2) ctx es) := by
  cases es with
  | nil => exact .refl _
  | cons e es =>
    apply Below.bind (ih (.expr e) ctx)
    intro v
    exact Below.bind (ih (.all es) (ctx.holding v)) fun vs => .refl _

theorem choice (ih : BelowAt n) (ctx : Context) (condition : Expr) (body : Body)
    (rest : Branches) :
    Below (choose (n + 1) ctx condition body rest) (choose (n + 2) ctx condition body rest) := by
  apply Below.bind (ih (.expr condition) ctx)
  intro c
  by_cases hc : c.isTrue = true
  · rw [if_pos hc, if_pos hc]
    exact ih (.branch body) (ctx.holding c)
  · rw [if_neg hc, if_neg hc]
    cases rest with
    | nothing => exact .refl _
    | elif condition body rest => exact ih (.choice condition body rest) ctx
    | otherwise body => exact ih (.branch body) ctx

theorem counting (ih : BelowAt n) (ctx : Context) (name : String) (upwards : Bool)
    (bound step : Float) (body : Body) (i : Float) (collected : List Value) :
    Below (count (n + 1) ctx name upwards bound step body i collected)
      (count (n + 2) ctx name upwards bound step body i collected) := by
  rw [count_succ, count_succ]
  by_cases hrange : inRange upwards i bound = true
  · rw [if_pos hrange, if_pos hrange]
    apply (Below.refl _).bind
    intro _
    apply Below.bind (ih (.body body) ctx)
    intro v
    by_cases hblock : body.isBlock = true
    · rw [if_pos hblock, if_pos hblock]
      exact ih (.counting name upwards bound step body (i + step) collected) ctx
    · rw [if_neg hblock, if_neg hblock]
      exact ih (.counting name upwards bound step body (i + step) (v :: collected))
        (ctx.holding v)
  · rw [if_neg hrange, if_neg hrange]
    exact .refl _

theorem looping (ih : BelowAt n) (ctx : Context) (condition : Expr) (body : Body)
    (collected : List Value) :
    Below (rounds (n + 1) ctx condition body collected)
      (rounds (n + 2) ctx condition body collected) := by
  apply Below.bind (ih (.expr condition) ctx)
  intro c
  by_cases hc : c.isTrue = true
  · rw [if_pos hc, if_pos hc]
    apply Below.bind (ih (.body body) (ctx.holding c))
    intro v
    by_cases hblock : body.isBlock = true
    · rw [if_pos hblock, if_pos hblock]
      exact ih (.looping condition body collected) ctx
    · rw [if_neg hblock, if_neg hblock]
      exact ih (.looping condition body (v :: collected)) (ctx.holding v)
  · rw [if_neg hc, if_neg hc]
    exact .refl _

theorem call (ih : BelowAt n) (ctx : Context) (f : Function) (args : List Value) (span : Span) :
    Below (callFunction (n + 1) ctx f args span) (callFunction (n + 2) ctx f args span) := by
  apply (Below.refl _).bind
  intro _
  apply (Below.refl _).bind
  intro frame
  apply (Below.refl _).bind
  intro _
  exact Below.releasing (ih (.body f.body) _) ctx.held frame

end BelowAt

theorem belowAt (n : Nat) : BelowAt n := by
  induction n with
  | zero =>
    intro t ctx
    cases t with
    | builtin b args span => exact .refl _
    | running b span => exact .refl _
    | binding args => exact .refl _
    | _ => exact .of_exhausted _
  | succ n ih =>
    intro t ctx
    cases t with
    | expr e => exact ih.expr ctx e
    | all es => exact ih.all ctx es
    | number e => exact Below.bind (ih (.expr e) ctx) fun v => .refl _
    | step e =>
      cases e with
      | none => exact .refl _
      | some e => exact ih (.number e) ctx
    | body body =>
      cases body with
      | inline e => exact ih (.expr e) ctx
      | block span es => exact Below.bind (ih (.all es) ctx) fun vs => .refl _
    | branch body => exact Below.bind (ih (.body body) ctx) fun v => .refl _
    | choice condition body rest => exact ih.choice ctx condition body rest
    | counting name upwards bound step body i collected =>
      exact ih.counting ctx name upwards bound step body i collected
    | looping condition body collected => exact ih.looping ctx condition body collected
    | call f args span => exact ih.call ctx f args span
    | builtin b args span => exact .refl _
    | running b span => exact .refl _
    | binding args => exact .refl _

/-- Where evaluation of a task does not meet a bound on the depth, it does not depend on it. -/
theorem below_run (h : n ≤ n') (t : Task) (ctx : Context) :
    Below (t.run n ctx) (t.run n' ctx) := by
  induction h with
  | refl => exact .refl _
  | step _ ih => exact ih.trans (belowAt _ t ctx)

theorem evalAll_mono (h : n ≤ n') {es : List Expr} {m : Machine}
    (hne : evalAll n ctx es m ≠ .exhausted) : evalAll n' ctx es m = evalAll n ctx es m :=
  below_run h (.all es) ctx m hne

end Eval

namespace Session

variable {s s₁ s₂ : Session} {kept : List Value} {n n' : Nat} {p : Program} {source : Source}

/-- With a larger bound on the depth a session still answers a program as it did. -/
theorem evaluateKeeping_mono (h : n ≤ n')
    (hr : s.evaluateKeeping kept n p ≠ .error .exhausted) :
    s.evaluateKeeping kept n' p = s.evaluateKeeping kept n p := by
  let ctx := (Eval.Context.root s.runs).holdingAll kept
  have hne : Eval.evalAll n ctx p.statements s.machine ≠ .exhausted := by
    intro he
    apply hr
    unfold evaluateKeeping
    rw [he]
  unfold evaluateKeeping
  rw [Eval.evalAll_mono h hne]

theorem runKeeping_mono (h : n ≤ n') (hr : s.runKeeping kept n source ≠ .error .exhausted) :
    s.runKeeping kept n' source = s.runKeeping kept n source := by
  by_cases hblank : Text.isBlankText source.text = true
  · unfold runKeeping
    rw [if_pos hblank, if_pos hblank]
  · unfold runKeeping at hr ⊢
    rw [if_neg hblank] at hr
    rw [if_neg hblank, if_neg hblank]
    cases hread : Program.read source with
    | error failure => rfl
    | ok p =>
      rw [hread] at hr
      have hne : s.evaluateKeeping kept n p ≠ .error .exhausted := by
        intro he
        apply hr
        simp only [he]
        rfl
      simp only [evaluateKeeping_mono h hne]

/-- A session has only one answer to a source, whatever the bound on the depth. -/
theorem runKeeping_unique {r r' : Answer × Session} (h : s.runKeeping kept n source = .ok r)
    (h' : s.runKeeping kept n' source = .ok r') : r = r' := by
  rcases Nat.le_total n n' with hle | hle
  · have heq := runKeeping_mono hle (by rw [h]; simp)
    rw [h, h'] at heq
    exact (Except.ok.inj heq).symm
  · have heq := runKeeping_mono hle (by rw [h']; simp)
    rw [h, h'] at heq
    exact Except.ok.inj heq

end Session

end UniformScript
