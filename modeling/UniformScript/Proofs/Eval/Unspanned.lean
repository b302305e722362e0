import UniformScript.Proofs.Arena.Unspanned
import UniformScript.Proofs.Eval.Task

/-!
# Evaluation looks at no span

Spans, the places of definitions, the numbers of runs and the names and entries of active calls are
there for reports.  The same is evaluated with all of them and without: both evaluations bind the
same names to the same values up to spans, leave the same frames and the same world, and end alike,
where of a failure its cause counts.

* `Blind`: that a step does with spans what another one does without, and `Blind.bind`: one step
  after the other.
* `blindAt`: evaluation of any task, however deep.
* `diagnostics_invisible`: two evaluations of what is the same up to spans, called from anywhere.
-/

namespace UniformScript.Eval

variable {α α' β β' : Type} {frees : Bool} {ctx ctx₀ : Context} {m : Machine}

/-! ## Steps that look at no span -/

/-- The machine without the spans of the functions in its frames. -/
def Machine.unspanned (m : Machine) : Machine := ⟨m.arena.unspanned, m.host⟩

theorem Machine.arena_unspanned (m : Machine) : m.unspanned.arena = m.arena.unspanned := rfl

/-- The context `ctx₀` has the frame of `ctx` and, where frames are freed, the same values under
way; and it is in no run. -/
structure Plain (frees : Bool) (ctx ctx₀ : Context) : Prop where
  frame : ctx₀.frame = ctx.frame
  run : ctx₀.run = 0
  held : frees = true → ctx₀.held = ctx.held

namespace Plain

theorem holding (h : Plain frees ctx ctx₀) (v : Value) :
    Plain frees (ctx.holding v) (ctx₀.holding v.unspanned) where
  frame := h.frame
  run := h.run
  held hf := congrArg₂ (· ++ ·) v.handles_unspanned (h.held hf)

theorem entering (h : Plain frees ctx ctx₀) (name name₀ : String) (entry entry₀ : Position)
    (frame run : Nat) :
    Plain frees (ctx.entering name entry frame run) (ctx₀.entering name₀ entry₀ frame 0) where
  frame := rfl
  run := rfl
  held := h.held

end Plain

/-- The second step ends like the first, but without spans. -/
inductive Fades (frees : Bool) (forget : α → α') : Outcome α → Outcome α' → Prop where
  | value (a : α) {m : Machine} (hm : m.arena.reclaiming = frees) :
    Fades frees forget (.value a m) (.value (forget a) m.unspanned)
  | raised {failure failure₀ : RuntimeFailure} {m : Machine} (hm : m.arena.reclaiming = frees)
    (hcause : failure₀.cause = failure.cause) :
    Fades frees forget (.raised failure m) (.raised failure₀ m.unspanned)
  | faulted (fault : Fault) : Fades frees forget (.faulted fault) (.faulted fault)
  | exhausted : Fades frees forget .exhausted .exhausted

/-- The second step does on a machine without spans what the first does on the machine itself,
where `forget` takes the spans from the result; the arena frees frames, or it does not. -/
def Blind (frees : Bool) (forget : α → α') (p : Eval α) (p₀ : Eval α') : Prop :=
  ∀ m : Machine, m.arena.reclaiming = frees → Fades frees forget (p m) (p₀ m.unspanned)

namespace Blind

variable {forget : α → α'} {forget' : β → β'}

theorem pure {a : α} {a₀ : α'} (ha : a₀ = forget a) :
    Blind frees forget (Pure.pure a) (Pure.pure a₀) := by
  subst ha
  exact fun m hm => .value a hm

theorem exhausted : Blind frees forget Eval.exhausted Eval.exhausted := fun _ _ => .exhausted

/-- A failure, wherever it is and whatever calls are active. -/
theorem raise (ctx ctx₀ : Context) (cause : RuntimeCause) (span span₀ : Span) :
    Blind frees forget (Eval.raise ctx cause span) (Eval.raise ctx₀ cause span₀) :=
  fun _ hm => .raised hm rfl

/-- One step after the other. -/
theorem bind {p : Eval α} {p₀ : Eval α'} {f : α → Eval β} {f₀ : α' → Eval β'}
    (hp : Blind frees forget p p₀) (hf : ∀ a, Blind frees forget' (f a) (f₀ (forget a))) :
    Blind frees forget' (p >>= f) (p₀ >>= f₀) := by
  intro m hm
  have hend := hp m hm
  show Fades frees forget' (Eval.bind p f m) (Eval.bind p₀ f₀ m.unspanned)
  unfold Eval.bind
  generalize p m = o at hend
  generalize p₀ m.unspanned = o₀ at hend
  cases hend with
  | value a hm₁ => exact hf a _ hm₁
  | raised hm₁ hcause => exact .raised hm₁ hcause
  | faulted fault => exact .faulted fault
  | exhausted => exact .exhausted

/-- Asking the arena. -/
theorem ask {f : Arena → Except Fault α} {f₀ : Arena → Except Fault α'}
    (hf : ∀ a, f₀ a.unspanned = (f a).map forget) : Blind frees forget (ask f) (ask f₀) := by
  intro m hm
  unfold Eval.ask
  rw [Machine.arena_unspanned, hf]
  cases f m.arena with
  | ok a => exact .value a hm
  | error fault => exact .faulted fault

/-- Changing the arena. -/
theorem change {f : Arena → Except Fault (α × Arena)} {f₀ : Arena → Except Fault (α' × Arena)}
    (hf : ∀ a, f₀ a.unspanned = (f a).map (Prod.map forget Arena.unspanned))
    (hsame : ∀ {a r}, f a = .ok r → r.2.reclaiming = a.reclaiming) :
    Blind frees forget (change f) (change f₀) := by
  intro m hm
  unfold Eval.change
  rw [Machine.arena_unspanned, hf]
  cases hfa : f m.arena with
  | ok r =>
    have hr := hsame hfa
    exact .value r.1 (hr.trans hm)
  | error fault => exact .faulted fault

/-- Turning to the world. -/
theorem turn (f : Host → α × Host) : Blind frees id (Eval.turn f) (Eval.turn f) :=
  fun _ hm => .value _ hm

/-! ### Names and frames -/

theorem set (i : Nat) (name : String) (v : Value) :
    Blind frees id (Eval.set i name v) (Eval.set i name v.unspanned) := by
  apply change
  · intro a
    rw [Arena.set_unspanned]
    cases a.set i name v <;> rfl
  · intro a r hr
    cases hset : a.set i name v with
    | error fault =>
      rw [hset] at hr
      cases hr
    | ok b =>
      rw [hset] at hr
      cases hr
      exact Arena.reclaiming_of_set hset

theorem setAll (i : Nat) (args : List (String × Value)) :
    Blind frees id (Eval.setAll i args) (Eval.setAll i (Bindings.unspanned args)) := by
  induction args with
  | nil => exact pure rfl
  | cons arg args ih => exact bind (set i arg.1 arg.2) fun _ => ih

theorem ask_get (i : Nat) (name : String) :
    Blind frees (Option.map Value.unspanned) (Eval.ask fun a => a.get i name)
      (Eval.ask fun a => a.get i name) :=
  ask fun a => a.get_unspanned i name

theorem reassign (i : Nat) (name : String) (v : Value) :
    Blind frees id (Eval.change fun a => a.reassign i name v)
      (Eval.change fun a => a.reassign i name v.unspanned) :=
  change (fun a => a.reassign_unspanned i name v) Arena.reclaiming_of_reassign

theorem handle (i : Nat) :
    Blind frees id (Eval.ask fun a => a.handle i) (Eval.ask fun a => a.handle i) := by
  apply ask
  intro a
  rw [Arena.handle_unspanned]
  cases a.handle i <;> rfl

theorem push (parent : Option Nat) :
    Blind frees id (Eval.change fun a => a.push parent) (Eval.change fun a => a.push parent) :=
  change (fun a => a.push_unspanned parent) Arena.reclaiming_of_push

/-- A step after which a frame is released. -/
theorem releasing {p p₀ : Eval Value} {held held₀ : List Handle} (i : Nat)
    (hheld : frees = true → held₀ = held) (hp : Blind frees Value.unspanned p p₀) :
    Blind frees Value.unspanned (Eval.releasing held i p) (Eval.releasing held₀ i p₀) := by
  -- handles that are held make a difference only where frames are freed
  have hrelease {a : Arena} {hs hs₀ : List Handle} (ha : a.reclaiming = frees)
      (hhs : frees = true → hs₀ = hs) :
      a.unspanned.release hs₀ i = (a.release hs i).map Arena.unspanned := by
    rw [Arena.release_unspanned]
    cases hfrees : frees with
    | true => rw [hhs hfrees]
    | false => rw [Arena.release_eq_of_not_reclaiming (ha.trans hfrees) hs₀ hs]
  intro m hm
  have hend := hp m hm
  unfold Eval.releasing
  generalize p m = o at hend
  generalize p₀ m.unspanned = o₀ at hend
  cases hend with
  | @value v m₁ hm₁ =>
    have hboth : m₁.arena.unspanned.release (v.unspanned.handles ++ held₀) i =
        (m₁.arena.release (v.handles ++ held) i).map Arena.unspanned :=
      hrelease hm₁ fun hf => congrArg₂ (· ++ ·) v.handles_unspanned (hheld hf)
    simp only [Machine.arena_unspanned, hboth]
    cases hb : m₁.arena.release (v.handles ++ held) i with
    | error fault => exact .faulted fault
    | ok b =>
      have hsame := Arena.reclaiming_of_release hb
      exact .value v (m := ⟨b, m₁.host⟩) (hsame.trans hm₁)
  | @raised failure failure₀ m₁ hm₁ hcause =>
    have hboth := hrelease hm₁ hheld
    simp only [Machine.arena_unspanned, hboth]
    cases hb : m₁.arena.release held i with
    | error fault => exact .faulted fault
    | ok b =>
      have hsame := Arena.reclaiming_of_release hb
      exact .raised (m := ⟨b, m₁.host⟩) (hsame.trans hm₁) hcause
  | faulted fault => exact .faulted fault
  | exhausted => exact .exhausted

/-! ### Calls -/

theorem checkArity (ctx ctx₀ : Context) (name : String) (expected given : Nat)
    (span span₀ : Span) :
    Blind frees id (Eval.checkArity ctx name expected given span)
      (Eval.checkArity ctx₀ name expected given span₀) := by
  unfold Eval.checkArity
  split
  · exact raise ctx ctx₀ _ span span₀
  · split
    · exact raise ctx ctx₀ _ span span₀
    · exact pure rfl

/-- A call: what is evaluated in its frame, from the check of its arguments to the release. -/
theorem calling {body body₀ : Nat → Eval Value} (hc : Plain frees ctx ctx₀) (name : String)
    (params : List String) (vs : List Value) (span span₀ : Span) (parent : Option Nat)
    (hbody : ∀ i, Blind frees Value.unspanned (body i) (body₀ i)) :
    Blind frees Value.unspanned
      (Eval.calling ctx name params vs span parent body)
      (Eval.calling ctx₀ name params (Value.unspannedAll vs) span₀ parent body₀) := by
  unfold Eval.calling Eval.inFrame
  rw [Value.length_unspannedAll]
  apply bind (checkArity ctx ctx₀ name _ _ span span₀)
  intro _
  apply bind (push parent)
  intro i
  have hset : Blind frees id (Eval.setAll i (params.zip vs))
      (Eval.setAll i (Bindings.unspanned (params.zip vs))) := setAll i (params.zip vs)
  have hzip : Bindings.unspanned (params.zip vs) = params.zip (Value.unspannedAll vs) :=
    Bindings.mapValues_zip params vs
  rw [hzip] at hset
  apply bind hset
  intro _
  exact releasing i hc.held (hbody i)

theorem argument (hc : Plain frees ctx ctx₀) (name : String) :
    Blind frees Value.unspanned (Eval.argument ctx name) (Eval.argument ctx₀ name) := by
  unfold Eval.argument
  rw [hc.frame]
  apply bind (ask_get ctx.frame name)
  intro r
  cases r with
  | none => exact fun _ _ => .faulted _
  | some v => exact pure rfl

/-- Running a built-in function. -/
theorem runBuiltin (hc : Plain frees ctx ctx₀) (b : Builtin) (span span₀ : Span) :
    Blind frees Value.unspanned (Eval.runBuiltin ctx b span) (Eval.runBuiltin ctx₀ b span₀) := by
  cases b with
  | print =>
    apply bind (argument hc "data")
    intro v
    rw [Value.printed_unspanned]
    apply bind (turn _)
    intro _
    exact pure rfl
  | capture =>
    apply bind (argument hc "data")
    intro v
    rw [Value.printed_unspanned]
    apply bind (turn _)
    intro line
    cases line with
    | some line => exact pure rfl
    | none =>
      apply bind (turn _)
      intro reason
      exact raise ctx ctx₀ _ span span₀
  | random =>
    apply bind (turn _)
    intro x
    exact pure rfl
  | round =>
    apply bind (argument hc "val")
    intro v
    cases v with
    | number x => exact pure rfl
    | _ => exact raise ctx ctx₀ _ span span₀

/-- Calling a built-in function. -/
theorem callBuiltin (hc : Plain frees ctx ctx₀) (b : Builtin) (vs : List Value)
    (span span₀ : Span) :
    Blind frees Value.unspanned (Eval.callBuiltin ctx b vs span)
      (Eval.callBuiltin ctx₀ b (Value.unspannedAll vs) span₀) := by
  apply calling hc b.name b.params vs span span₀ none
  intro i
  rw [hc.run]
  exact runBuiltin (hc.entering b.name b.name span.start span₀.start i ctx.run) b span span₀

end Blind

/-! ## Tasks -/

/-- The task without spans. -/
def Task.unspanned : Task → Task
  | expr e => expr e.unspanned
  | all es => all (unspannedAll es)
  | number e => number e.unspanned
  | step e => step (unspannedStep e)
  | body b => body b.unspanned
  | branch b => branch b.unspanned
  | choice condition b rest => choice condition.unspanned b.unspanned rest.unspanned
  | counting name upwards bound inc b i collected =>
    counting name upwards bound inc b.unspanned i (Value.unspannedAll collected)
  | looping condition b collected =>
    looping condition.unspanned b.unspanned (Value.unspannedAll collected)
  | call f args _ => call f.unspanned (Value.unspannedAll args) default
  | builtin b args _ => builtin b (Value.unspannedAll args) default
  | running b _ => running b default
  | binding args => binding (Bindings.unspanned args)

/-- Takes the spans from the result of a task. -/
def Task.forget : (t : Task) → t.Result → t.unspanned.Result
  | expr _ => Value.unspanned
  | all _ => Value.unspannedAll
  | number _ => id
  | step _ => id
  | body _ => Value.unspanned
  | branch _ => Value.unspanned
  | choice _ _ _ => Value.unspanned
  | counting _ _ _ _ _ _ _ => Value.unspanned
  | looping _ _ _ => Value.unspanned
  | call _ _ _ => Value.unspanned
  | builtin _ _ _ => Value.unspanned
  | running _ _ => Value.unspanned
  | binding _ => id

theorem loopValue_unspanned (body : Body) (collected : List Value) :
    loopValue body.unspanned (Value.unspannedAll collected) =
      (loopValue body collected).unspanned := by
  unfold loopValue
  rw [Body.isBlock_unspanned]
  split
  · rfl
  · rw [Value.unspanned_list]
    unfold Value.unspannedAll
    rw [List.map_reverse]

/-- Evaluation of every task, with the bound `n` on the depth, looks at no span. -/
def BlindAt (frees : Bool) (n : Nat) : Prop :=
  ∀ (t : Task) (ctx ctx₀ : Context), Plain frees ctx ctx₀ →
    Blind frees t.forget (t.run n ctx) (t.unspanned.run n ctx₀)

namespace BlindAt

variable {n : Nat} {forget : β → β'}

/-- The value of an expression, and what comes after it. -/
theorem eval (ih : BlindAt frees n) (hc : Plain frees ctx ctx₀) (e : Expr) {f : Value → Eval β}
    {f₀ : Value → Eval β'} (hf : ∀ v, Blind frees forget (f v) (f₀ v.unspanned)) :
    Blind frees forget (Eval.eval n ctx e >>= f) (Eval.eval n ctx₀ e.unspanned >>= f₀) :=
  Blind.bind (ih (.expr e) ctx ctx₀ hc) hf

/-- The values of expressions, and what comes after them. -/
theorem evalAll (ih : BlindAt frees n) (hc : Plain frees ctx ctx₀) (es : List Expr)
    {f : List Value → Eval β} {f₀ : List Value → Eval β'}
    (hf : ∀ vs, Blind frees forget (f vs) (f₀ (Value.unspannedAll vs))) :
    Blind frees forget (Eval.evalAll n ctx es >>= f)
      (Eval.evalAll n ctx₀ (unspannedAll es) >>= f₀) :=
  Blind.bind (ih (.all es) ctx ctx₀ hc) hf

/-- A number, and what comes after it. -/
theorem evalNumber (ih : BlindAt frees n) (hc : Plain frees ctx ctx₀) (e : Expr)
    {f : Float → Eval β} {f₀ : Float → Eval β'} (hf : ∀ x, Blind frees forget (f x) (f₀ x)) :
    Blind frees forget (Eval.evalNumber n ctx e >>= f)
      (Eval.evalNumber n ctx₀ e.unspanned >>= f₀) :=
  Blind.bind (ih (.number e) ctx ctx₀ hc) hf

/-- The value of a body, and what comes after it. -/
theorem evalBody (ih : BlindAt frees n) (hc : Plain frees ctx ctx₀) (body : Body)
    {f : Value → Eval β} {f₀ : Value → Eval β'}
    (hf : ∀ v, Blind frees forget (f v) (f₀ v.unspanned)) :
    Blind frees forget (Eval.evalBody n ctx body >>= f)
      (Eval.evalBody n ctx₀ body.unspanned >>= f₀) :=
  Blind.bind (ih (.body body) ctx ctx₀ hc) hf

theorem list (ih : BlindAt frees n) (hc : Plain frees ctx ctx₀) (es : List Expr) :
    Blind frees Value.unspanned
      (do
        let vs ← Eval.evalAll n ctx es
        return Value.list vs)
      (do
        let vs ← Eval.evalAll n ctx₀ (unspannedAll es)
        return Value.list vs) :=
  ih.evalAll hc es fun vs => Blind.pure (Value.unspanned_list vs).symm

theorem expr (ih : BlindAt frees n) (hc : Plain frees ctx ctx₀) (e : Expr) :
    Blind frees Value.unspanned (Eval.eval (n + 1) ctx e)
      (Eval.eval (n + 1) ctx₀ e.unspanned) := by
  cases e with
  | number span lexeme x => exact Blind.pure rfl
  | text span s => exact Blind.pure rfl
  | list span es => exact ih.list hc es
  | access span name =>
    simp only [Expr.unspanned, eval_access, hc.frame]
    apply Blind.bind (Blind.ask_get ctx.frame name)
    intro r
    cases r with
    | none => exact Blind.raise ctx ctx₀ _ span default
    | some v => exact Blind.pure rfl
  | bind span name value =>
    simp only [Expr.unspanned, eval_bind, hc.frame]
    apply ih.eval hc
    intro v
    apply Blind.bind (Blind.set ctx.frame name v)
    intro _
    exact Blind.pure rfl
  | rebind span name value =>
    simp only [Expr.unspanned, eval_rebind, hc.frame]
    apply ih.eval hc
    intro v
    apply Blind.bind (Blind.reassign ctx.frame name v)
    intro _
    exact Blind.pure rfl
  | unary span op operand =>
    simp only [Expr.unspanned, eval_unary]
    apply ih.eval hc
    intro v
    rw [Value.applyUnary_unspanned, Value.type_unspanned]
    cases op.apply v with
    | ok r => exact Blind.pure rfl
    | error fault => exact Blind.raise ctx ctx₀ _ span default
  | binary span op left right =>
    simp only [Expr.unspanned, eval_binary]
    apply ih.eval hc
    intro v
    apply ih.eval (hc.holding v)
    intro w
    rw [Value.apply_unspanned, Value.type_unspanned, Value.type_unspanned]
    cases op.apply v w with
    | ok r => exact Blind.pure rfl
    | error fault => cases fault <;> exact Blind.raise ctx ctx₀ _ _ _
  | choice span condition body rest => exact ih (.choice condition body rest) ctx ctx₀ hc
  | forLoop span name first bound step body =>
    simp only [Expr.unspanned, eval_forLoop]
    apply ih.evalNumber hc
    intro x
    apply ih.evalNumber hc
    intro y
    apply Blind.bind (ih (.step step) ctx ctx₀ hc)
    intro z
    exact ih (.counting name (0 ≤ x) y z body x []) ctx ctx₀ hc
  | whileLoop span condition body => exact ih (.looping condition body []) ctx ctx₀ hc
  | function span name params body =>
    simp only [Expr.unspanned, eval_function, hc.frame, hc.run]
    apply Blind.bind (Blind.handle ctx.frame)
    intro home
    let v := Value.function ⟨name, params, body, ⟨ctx.run, span.start.index⟩, home⟩
    cases name with
    | none => exact Blind.pure rfl
    | some name =>
      apply Blind.bind (Blind.set ctx.frame name v)
      intro _
      exact Blind.pure rfl
  | call span callee args =>
    simp only [Expr.unspanned, eval_call]
    apply ih.eval hc
    intro v
    have hc₁ := hc.holding v
    apply ih.evalAll hc₁
    intro vs
    cases v with
    | function f => exact ih (.call f vs span) _ _ hc₁
    | builtin b => exact Blind.callBuiltin hc₁ b vs span default
    | _ => exact Blind.raise _ _ _ _ _

theorem all (ih : BlindAt frees n) (hc : Plain frees ctx ctx₀) (es : List Expr) :
    Blind frees Value.unspannedAll (Eval.evalAll (n + 1) ctx es)
      (Eval.evalAll (n + 1) ctx₀ (unspannedAll es)) := by
  cases es with
  | nil => exact Blind.pure rfl
  | cons e es =>
    simp only [unspannedAll, evalAll_cons]
    apply ih.eval hc
    intro v
    apply ih.evalAll (hc.holding v)
    intro vs
    exact Blind.pure rfl

theorem number (ih : BlindAt frees n) (hc : Plain frees ctx ctx₀) (e : Expr) :
    Blind frees id (Eval.evalNumber (n + 1) ctx e)
      (Eval.evalNumber (n + 1) ctx₀ e.unspanned) := by
  rw [evalNumber_succ, evalNumber_succ]
  apply ih.eval hc
  intro v
  cases v with
  | number x => exact Blind.pure rfl
  | _ => exact Blind.raise ctx ctx₀ _ _ _

theorem branch (ih : BlindAt frees n) (hc : Plain frees ctx ctx₀) (body : Body) :
    Blind frees Value.unspanned (Eval.evalBranch (n + 1) ctx body)
      (Eval.evalBranch (n + 1) ctx₀ body.unspanned) := by
  rw [evalBranch_succ, evalBranch_succ, Body.isBlock_unspanned]
  apply ih.evalBody hc
  intro v
  apply Blind.pure
  split
  · rfl
  · rfl

theorem choice (ih : BlindAt frees n) (hc : Plain frees ctx ctx₀) (condition : Expr) (body : Body)
    (rest : Branches) :
    Blind frees Value.unspanned (choose (n + 1) ctx condition body rest)
      (choose (n + 1) ctx₀ condition.unspanned body.unspanned rest.unspanned) := by
  rw [choose_succ, choose_succ]
  apply ih.eval hc
  intro c
  rw [Value.isTrue_unspanned]
  by_cases htrue : c.isTrue = true
  · rw [if_pos htrue, if_pos htrue]
    exact ih (.branch body) _ _ (hc.holding c)
  · rw [if_neg htrue, if_neg htrue]
    cases rest with
    | nothing => exact Blind.pure rfl
    | elif condition body rest => exact ih (.choice condition body rest) ctx ctx₀ hc
    | otherwise body => exact ih (.branch body) ctx ctx₀ hc

theorem counting (ih : BlindAt frees n) (hc : Plain frees ctx ctx₀) (name : String)
    (upwards : Bool) (bound step : Float) (body : Body) (i : Float) (collected : List Value) :
    Blind frees Value.unspanned (count (n + 1) ctx name upwards bound step body i collected)
      (count (n + 1) ctx₀ name upwards bound step body.unspanned i
        (Value.unspannedAll collected)) := by
  rw [count_succ, count_succ, Body.isBlock_unspanned]
  by_cases hrange : inRange upwards i bound = true
  · rw [if_pos hrange, if_pos hrange, hc.frame]
    apply Blind.bind (Blind.set ctx.frame name (.number i))
    intro _
    apply ih.evalBody hc
    intro v
    by_cases hblock : body.isBlock = true
    · rw [if_pos hblock, if_pos hblock]
      exact ih (.counting name upwards bound step body (i + step) collected) ctx ctx₀ hc
    · rw [if_neg hblock, if_neg hblock]
      exact ih (.counting name upwards bound step body (i + step) (v :: collected)) _ _
        (hc.holding v)
  · rw [if_neg hrange, if_neg hrange]
    exact Blind.pure (loopValue_unspanned body collected)

theorem looping (ih : BlindAt frees n) (hc : Plain frees ctx ctx₀) (condition : Expr) (body : Body)
    (collected : List Value) :
    Blind frees Value.unspanned (rounds (n + 1) ctx condition body collected)
      (rounds (n + 1) ctx₀ condition.unspanned body.unspanned
        (Value.unspannedAll collected)) := by
  rw [rounds_succ, rounds_succ, Body.isBlock_unspanned]
  apply ih.eval hc
  intro c
  rw [Value.isTrue_unspanned]
  by_cases htrue : c.isTrue = true
  · rw [if_pos htrue, if_pos htrue]
    apply ih.evalBody (hc.holding c)
    intro v
    by_cases hblock : body.isBlock = true
    · rw [if_pos hblock, if_pos hblock]
      exact ih (.looping condition body collected) ctx ctx₀ hc
    · rw [if_neg hblock, if_neg hblock]
      exact ih (.looping condition body (v :: collected)) _ _ (hc.holding v)
  · rw [if_neg htrue, if_neg htrue]
    exact Blind.pure (loopValue_unspanned body collected)

theorem call (ih : BlindAt frees n) (hc : Plain frees ctx ctx₀) (f : Function) (args : List Value)
    (span span₀ : Span) :
    Blind frees Value.unspanned (callFunction (n + 1) ctx f args span)
      (callFunction (n + 1) ctx₀ f.unspanned (Value.unspannedAll args) span₀) := by
  rw [callFunction_succ, callFunction_succ]
  apply Blind.calling hc f.shownName f.params args span span₀ (some f.home.index)
  intro i
  exact ih (.body f.body) _ _ (hc.entering f.shownName f.shownName span.start span₀.start i
    f.site.run)

end BlindAt

/-- Evaluation of any task, however deep, looks at no span. -/
theorem blindAt (frees : Bool) (n : Nat) : BlindAt frees n := by
  induction n with
  | zero =>
    intro t ctx ctx₀ hc
    cases t with
    | builtin b args span => exact Blind.callBuiltin hc b args span default
    | running b span => exact Blind.runBuiltin hc b span default
    | binding args =>
      simp only [Task.run, Task.unspanned, hc.frame]
      exact Blind.setAll ctx.frame args
    | _ => exact Blind.exhausted
  | succ n ih =>
    intro t ctx ctx₀ hc
    cases t with
    | expr e => exact ih.expr hc e
    | all es => exact ih.all hc es
    | number e => exact ih.number hc e
    | step e =>
      cases e with
      | none => exact Blind.pure rfl
      | some e => exact ih (.number e) ctx ctx₀ hc
    | body body =>
      cases body with
      | inline e => exact ih (.expr e) ctx ctx₀ hc
      | block span es => exact ih.list hc es
    | branch body => exact ih.branch hc body
    | choice condition body rest => exact ih.choice hc condition body rest
    | counting name upwards bound inc body i collected =>
      exact ih.counting hc name upwards bound inc body i collected
    | looping condition body collected => exact ih.looping hc condition body collected
    | call f args span => exact ih.call hc f args span default
    | builtin b args span => exact Blind.callBuiltin hc b args span default
    | running b span => exact Blind.runBuiltin hc b span default
    | binding args =>
      simp only [Task.run, Task.unspanned, hc.frame]
      exact Blind.setAll ctx.frame args

/-! ## Two evaluations of the same -/

/-- The outcome without spans; of a failure only its cause is left. -/
def Outcome.unspanned (forget : α → α') : Outcome α → Outcome α'
  | value a m => value (forget a) m.unspanned
  | raised failure m => raised ⟨failure.cause, default, []⟩ m.unspanned
  | faulted fault => faulted fault
  | exhausted => exhausted

/-- The outcome, where of a failure only its cause is left. -/
def Outcome.plain : Outcome α → Outcome α
  | raised failure m => raised ⟨failure.cause, default, []⟩ m
  | o => o

theorem Fades.unspanned_eq {forget : α → α'} {o : Outcome α} {o₀ : Outcome α'}
    (h : Fades frees forget o o₀) : o.unspanned forget = o₀.plain := by
  cases h with
  | value a hm => rfl
  | @raised failure failure₀ m hm hcause =>
    show Outcome.raised ⟨failure.cause, default, []⟩ _ = Outcome.raised ⟨failure₀.cause, _, _⟩ _
    rw [hcause]
  | faulted fault => rfl
  | exhausted => rfl

/-- Two steps that do, without spans, what a third one does, end alike but for spans. -/
theorem Blind.unspanned_eq {forget : α → α'} {p p' : Eval α} {p₀ : Eval α'} {m m' : Machine}
    (h : Blind frees forget p p₀) (h' : Blind frees forget p' p₀)
    (hfrees : m.arena.reclaiming = frees) (hm : m.unspanned = m'.unspanned) :
    (p m).unspanned forget = (p' m').unspanned forget := by
  have harena : m.unspanned.arena.reclaiming = m'.unspanned.arena.reclaiming := by rw [hm]
  have hfrees' : m'.arena.reclaiming = frees := harena.symm.trans hfrees
  rw [(h m hfrees).unspanned_eq, (h' m' hfrees').unspanned_eq, hm]

/-- The context in no run and in no call. -/
def Context.plain (ctx : Context) : Context := ⟨ctx.frame, 0, [], ctx.held⟩

theorem Plain.of_eq {ctx ctx' : Context} (hframe : ctx.frame = ctx'.frame)
    (hheld : frees = true → ctx.held = ctx'.held) : Plain frees ctx ctx'.plain :=
  ⟨hframe.symm, rfl, fun hf => (hheld hf).symm⟩

section

variable {ctx' : Context} {m' : Machine}

/-- Expressions that are the same but for spans, in the same frame. -/
theorem evalAll_unspanned_eq (n : Nat) {es es' : List Expr}
    (hes : unspannedAll es = unspannedAll es') (hframe : ctx.frame = ctx'.frame)
    (hheld : m.arena.reclaiming = true → ctx.held = ctx'.held) (hm : m.unspanned = m'.unspanned) :
    (evalAll n ctx es m).unspanned Value.unspannedAll =
      (evalAll n ctx' es' m').unspanned Value.unspannedAll := by
  have h : Blind m.arena.reclaiming Value.unspannedAll (evalAll n ctx es)
      (evalAll n ctx'.plain (unspannedAll es)) := blindAt _ n (.all es) _ _ (.of_eq hframe hheld)
  have h' : Blind m.arena.reclaiming Value.unspannedAll (evalAll n ctx' es')
      (evalAll n ctx'.plain (unspannedAll es')) :=
    blindAt _ n (.all es') _ _ (.of_eq rfl fun _ => rfl)
  rw [hes] at h
  exact h.unspanned_eq h' rfl hm

/-- An expression that is the same but for spans, in the same frame. -/
theorem eval_unspanned_eq (n : Nat) {e e' : Expr} (he : e.unspanned = e'.unspanned)
    (hframe : ctx.frame = ctx'.frame) (hheld : m.arena.reclaiming = true → ctx.held = ctx'.held)
    (hm : m.unspanned = m'.unspanned) :
    (eval n ctx e m).unspanned Value.unspanned =
      (eval n ctx' e' m').unspanned Value.unspanned := by
  have h : Blind m.arena.reclaiming Value.unspanned (eval n ctx e)
      (eval n ctx'.plain e.unspanned) := blindAt _ n (.expr e) _ _ (.of_eq hframe hheld)
  have h' : Blind m.arena.reclaiming Value.unspanned (eval n ctx' e')
      (eval n ctx'.plain e'.unspanned) := blindAt _ n (.expr e') _ _ (.of_eq rfl fun _ => rfl)
  rw [he] at h
  exact h.unspanned_eq h' rfl hm

/-- A call does not look at the frame it is made in. -/
theorem callFunction_frame (n i : Nat) (ctx : Context) (f : Function) (args : List Value)
    (span : Span) :
    callFunction n ctx f args span = callFunction n { ctx with frame := i } f args span := by
  cases n <;> rfl

/-- Nor does a call of a built-in function. -/
theorem callBuiltin_frame (i : Nat) (ctx : Context) (b : Builtin) (args : List Value)
    (span : Span) :
    callBuiltin ctx b args span = callBuiltin { ctx with frame := i } b args span := rfl

/-- A call of a function that is the same but for spans, from anywhere. -/
theorem callFunction_unspanned_eq (n : Nat) {f f' : Function} {args args' : List Value}
    {span span' : Span} (hf : f.unspanned = f'.unspanned)
    (hargs : Value.unspannedAll args = Value.unspannedAll args')
    (hheld : m.arena.reclaiming = true → ctx.held = ctx'.held) (hm : m.unspanned = m'.unspanned) :
    (callFunction n ctx f args span m).unspanned Value.unspanned =
      (callFunction n ctx' f' args' span' m').unspanned Value.unspanned := by
  rw [callFunction_frame n ctx'.frame ctx]
  have h : Blind m.arena.reclaiming Value.unspanned
      (callFunction n { ctx with frame := ctx'.frame } f args span)
      (callFunction n ctx'.plain f.unspanned (Value.unspannedAll args) default) :=
    blindAt _ n (.call f args span) _ _ (.of_eq rfl hheld)
  have h' : Blind m.arena.reclaiming Value.unspanned (callFunction n ctx' f' args' span')
      (callFunction n ctx'.plain f'.unspanned (Value.unspannedAll args') default) :=
    blindAt _ n (.call f' args' span') _ _ (.of_eq rfl fun _ => rfl)
  rw [hf, hargs] at h
  exact h.unspanned_eq h' rfl hm

/-- A call of a built-in function with arguments that are the same but for spans, from anywhere. -/
theorem callBuiltin_unspanned_eq (b : Builtin) {args args' : List Value} {span span' : Span}
    (hargs : Value.unspannedAll args = Value.unspannedAll args')
    (hheld : m.arena.reclaiming = true → ctx.held = ctx'.held) (hm : m.unspanned = m'.unspanned) :
    (callBuiltin ctx b args span m).unspanned Value.unspanned =
      (callBuiltin ctx' b args' span' m').unspanned Value.unspanned := by
  rw [callBuiltin_frame ctx'.frame ctx]
  have hc : Plain m.arena.reclaiming { ctx with frame := ctx'.frame } ctx'.plain :=
    .of_eq rfl hheld
  have hc' : Plain m.arena.reclaiming ctx' ctx'.plain := .of_eq rfl fun _ => rfl
  have h := Blind.callBuiltin hc b args span default
  have h' := Blind.callBuiltin hc' b args' span' default
  rw [hargs] at h
  exact h.unspanned_eq h' rfl hm

end

/-- What serves reports has no influence on evaluation.  From two machines that are the same but
for spans, with the same values under way, and with any bound on the depth, the outcomes are the
same but for spans, of expressions that are the same but for spans, in contexts of the same frame,
whatever the active calls and the runs are.  The outcome of a call depends on the function and its
arguments, and not even on the frame that it is made in. -/
theorem diagnostics_invisible (n : Nat) {ctx ctx' : Context} {m m' : Machine}
    (hheld : ctx.held = ctx'.held) (hm : m.unspanned = m'.unspanned) :
    (ctx.frame = ctx'.frame →
      (∀ e e' : Expr, e.unspanned = e'.unspanned →
        (eval n ctx e m).unspanned Value.unspanned =
          (eval n ctx' e' m').unspanned Value.unspanned) ∧
      ∀ es es' : List Expr, unspannedAll es = unspannedAll es' →
        (evalAll n ctx es m).unspanned Value.unspannedAll =
          (evalAll n ctx' es' m').unspanned Value.unspannedAll) ∧
    (∀ (f f' : Function) (args args' : List Value) (span span' : Span),
      f.unspanned = f'.unspanned → Value.unspannedAll args = Value.unspannedAll args' →
        (callFunction n ctx f args span m).unspanned Value.unspanned =
          (callFunction n ctx' f' args' span' m').unspanned Value.unspanned) ∧
    ∀ (b : Builtin) (args args' : List Value) (span span' : Span),
      Value.unspannedAll args = Value.unspannedAll args' →
        (callBuiltin ctx b args span m).unspanned Value.unspanned =
          (callBuiltin ctx' b args' span' m').unspanned Value.unspanned := by
  refine ⟨?_, ?_, ?_⟩
  · intro hframe
    refine ⟨?_, ?_⟩
    · intro e e' he
      exact eval_unspanned_eq n he hframe (fun _ => hheld) hm
    · intro es es' hes
      exact evalAll_unspanned_eq n hes hframe (fun _ => hheld) hm
  · intro f f' args args' span span' hf hargs
    exact callFunction_unspanned_eq n hf hargs (fun _ => hheld) hm
  · intro b args args' span span' hargs
    exact callBuiltin_unspanned_eq b hargs (fun _ => hheld) hm

/-- A function without a name is called, and finds no `y`.  Moved to another place, and evaluated
in another run within a call, it fails for the same cause, although the reports differ. -/
theorem diagnostics_invisible_moved :
    let m : Machine := ⟨Arena.start true [], Host.start .script [] (Host.listed [])⟩
    let place (i : Nat) : Position := ⟨⟨"<stdin>", "(x => y)()"⟩, i, 0, i⟩
    let span (i : Nat) : Span := ⟨place i, place (i + 10)⟩
    let e (i : Nat) : Expr :=
      .call (span i) (.function (span i) none [] (.inline (.access (span i) "y"))) []
    let ctx : Context := ⟨0, 0, [], []⟩
    let ctx' : Context := ⟨0, 7, [⟨"f", some (place 3)⟩], []⟩
    (∃ f f' n n', eval 9 ctx (e 0) m = .raised f n ∧ eval 9 ctx' (e 5) m = .raised f' n' ∧
      f.cause = .undefined "y" ∧ f.span.start = place 0 ∧ f'.span.start = place 5 ∧
      f'.calls.length = f.calls.length + 1) ∧
    (eval 9 ctx (e 0) m).unspanned Value.unspanned =
      (eval 9 ctx' (e 5) m).unspanned Value.unspanned := by
  intro m place span e ctx ctx'
  refine ⟨⟨_, _, _, _, rfl, rfl, rfl, rfl, rfl, rfl⟩, ?_⟩
  have hheld : ctx.held = ctx'.held := rfl
  have hm : m.unspanned = m.unspanned := rfl
  have hframe : ctx.frame = ctx'.frame := rfl
  have he : (e 0).unspanned = (e 5).unspanned := rfl
  exact ((diagnostics_invisible 9 hheld hm).1 hframe).1 (e 0) (e 5) he

end UniformScript.Eval
