import UniformScript.Eval.Evaluate

/-!
# Tasks of evaluation

Expressions, bodies, branches, loops and calls are evaluated by functions that call each other.  A
`Task` is what one of them is given to evaluate, so that something can be said of all of them at
once, by induction on the bound on the depth.

* `bind_assoc`, `bind_of_value` and the like: steps of evaluation one after the other.
* `push_of_change`, `releasing_eq_value`, `releasing_eq_raised`: what the steps of a call come to.
* `Task.run`: the evaluation of a task.
* `calling`: a call, whether of a function or of a built-in one.
* `eval_bind`, `evalAll_cons`, `rounds_succ` and the like: one step of each evaluation.
-/

namespace UniformScript.Eval

/-! ## Steps in a row -/

section

variable {α β γ : Type} {m m' : Machine}

theorem bind_assoc (p : Eval α) (f : α → Eval β) (g : β → Eval γ) :
    (p >>= f) >>= g = p >>= fun a => f a >>= g := by
  funext m
  show Eval.bind (Eval.bind p f) g m = Eval.bind p (fun a => Eval.bind (f a) g) m
  unfold Eval.bind
  cases p m <;> rfl

theorem bind_pure (p : Eval α) : p >>= Pure.pure = p := by
  funext m
  show Eval.bind p _ m = p m
  unfold Eval.bind
  cases p m <;> rfl

theorem pure_bind (a : α) (f : α → Eval β) : Pure.pure a >>= f = f a := rfl

theorem bind_of_value {p : Eval α} {f : α → Eval β} {a : α} (h : p m = .value a m') :
    (p >>= f) m = f a m' := by
  show Eval.bind p f m = _
  unfold Eval.bind
  rw [h]

theorem bind_of_raised {p : Eval α} {f : α → Eval β} {failure : RuntimeFailure}
    (h : p m = .raised failure m') : (p >>= f) m = .raised failure m' := by
  show Eval.bind p f m = _
  unfold Eval.bind
  rw [h]

theorem bind_of_faulted {p : Eval α} {f : α → Eval β} {fault : Fault} (h : p m = .faulted fault) :
    (p >>= f) m = .faulted fault := by
  show Eval.bind p f m = _
  unfold Eval.bind
  rw [h]

theorem bind_of_exhausted {p : Eval α} {f : α → Eval β} (h : p m = .exhausted) :
    (p >>= f) m = .exhausted := by
  show Eval.bind p f m = _
  unfold Eval.bind
  rw [h]

end

/-! ## The ends of steps -/

theorem change_ne_raised {α : Type} {f : Arena → Except Fault (α × Arena)}
    {m m' : Machine}
    {failure : RuntimeFailure} (h : change f m = .raised failure m') : False := by
  unfold change at h
  split at h <;> cases h

theorem push_of_change {parent : Option Nat} {i : Nat} {m m' : Machine}
    (h : change (fun a => a.push parent) m = .value i m') :
    ∃ b, m.arena.push parent = .ok (i, b) ∧ m' = ⟨b, m.host⟩ := by
  unfold change at h
  split at h
  · rename_i hpush
    cases h
    exact ⟨_, hpush, rfl⟩
  · cases h

/-- A call ends when its frame is released. -/
theorem releasing_eq_value {held : List Handle} {i : Nat} {p : Eval Value} {v : Value}
    {m m' : Machine} (h : releasing held i p m = .value v m') :
    ∃ m₁ b, p m = .value v m₁ ∧ m₁.arena.release (v.handles ++ held) i = .ok b ∧
      m' = ⟨b, m₁.host⟩ := by
  unfold releasing at h
  cases hp : p m with
  | value w m₁ =>
    simp only [hp] at h
    split at h
    · rename_i b hrelease
      cases h
      exact ⟨m₁, b, rfl, hrelease, rfl⟩
    · cases h
  | raised failure m₁ =>
    simp only [hp] at h
    split at h <;> cases h
  | faulted fault => simp [hp] at h
  | exhausted => simp [hp] at h

/-- So it does when it fails. -/
theorem releasing_eq_raised {held : List Handle} {i : Nat} {p : Eval Value}
    {failure : RuntimeFailure} {m m' : Machine} (h : releasing held i p m = .raised failure m') :
    ∃ m₁ b, p m = .raised failure m₁ ∧ m₁.arena.release held i = .ok b ∧ m' = ⟨b, m₁.host⟩ := by
  unfold releasing at h
  cases hp : p m with
  | value w m₁ =>
    simp only [hp] at h
    split at h <;> cases h
  | raised failure' m₁ =>
    simp only [hp] at h
    split at h
    · rename_i b hrelease
      cases h
      exact ⟨m₁, b, rfl, hrelease, rfl⟩
    · cases h
  | faulted fault => simp [hp] at h
  | exhausted => simp [hp] at h

/-! ## Calls -/

/-- What is evaluated in a frame of its own, where arguments are bound; the frame is given up. -/
def inFrame (held : List Handle) (parent : Option Nat) (args : List (String × Value))
    (body : Nat → Eval Value) : Eval Value := do
  let frame ← change fun a => a.push parent
  setAll frame args
  releasing held frame (body frame)

/-- A call, by what is evaluated in its frame. -/
def calling (ctx : Context) (name : String) (params : List String) (args : List Value)
    (span : Span) (parent : Option Nat) (body : Nat → Eval Value) : Eval Value := do
  checkArity ctx name params.length args.length span
  inFrame ctx.held parent (params.zip args) body

theorem callFunction_succ (n : Nat) (ctx : Context) (f : Function) (args : List Value)
    (span : Span) : callFunction (n + 1) ctx f args span =
      calling ctx f.shownName f.params args span (some f.home.index)
        fun i => evalBody n (ctx.entering f.shownName span.start i f.site.run) f.body := rfl

theorem callBuiltin_eq (ctx : Context) (b : Builtin) (args : List Value) (span : Span) :
    callBuiltin ctx b args span = calling ctx b.name b.params args span none
      fun i => runBuiltin (ctx.entering b.name span.start i ctx.run) b span := rfl

/-! ## Steps of evaluation -/

section

variable {n : Nat} {ctx : Context} {span : Span} {name : String} {body : Body}
  {value left right condition callee e : Expr} {rest : Branches} {es args : List Expr}
  {collected : List Value}

theorem eval_access : eval (n + 1) ctx (.access span name) = (do
    match ← ask fun a => a.get ctx.frame name with
    | some v => return v
    | none => raise ctx (.undefined name) span) := rfl

theorem eval_bind : eval (n + 1) ctx (.bind span name value) = (do
    let v ← eval n ctx value
    set ctx.frame name v
    return v) := rfl

theorem eval_rebind : eval (n + 1) ctx (.rebind span name value) = (do
    let v ← eval n ctx value
    let _ ← change fun a => a.reassign ctx.frame name v
    return v) := rfl

theorem eval_unary {op : UnaryOp} : eval (n + 1) ctx (.unary span op e) = (do
    let v ← eval n ctx e
    match op.apply v with
    | .ok r => return r
    | .error _ => raise ctx (.illegalUnary op v.type) span) := rfl

theorem eval_binary {op : BinaryOp} : eval (n + 1) ctx (.binary span op left right) = (do
    let v ← eval n ctx left
    let w ← eval n (ctx.holding v) right
    match op.apply v w with
    | .ok r => return r
    | .error .zeroDivisor => raise ctx .divisionByZero right.span
    | .error .illegal => raise ctx (.illegalBinary op v.type w.type) span) := rfl

theorem eval_forLoop {first bound : Expr} {step : Option Expr} :
    eval (n + 1) ctx (.forLoop span name first bound step body) = (do
      let first ← evalNumber n ctx first
      let bound ← evalNumber n ctx bound
      let step ← evalStep n ctx step
      count n ctx name (0 ≤ first) bound step body first []) := rfl

theorem eval_function {name : Option String} {params : List String} :
    eval (n + 1) ctx (.function span name params body) = (do
      let home ← ask fun a => a.handle ctx.frame
      let v := Value.function ⟨name, params, body, ⟨ctx.run, span.start.index⟩, home⟩
      match name with
      | some name => set ctx.frame name v
      | none => Pure.pure ()
      return v) := rfl

theorem eval_call : eval (n + 1) ctx (.call span callee args) = (do
    let v ← eval n ctx callee
    let vs ← evalAll n (ctx.holding v) args
    match v with
    | .function f => callFunction n (ctx.holding v) f vs span
    | .builtin b => callBuiltin (ctx.holding v) b vs span
    | other => raise ctx (.notCallable other.type) callee.span) := rfl

theorem evalAll_cons : evalAll (n + 1) ctx (e :: es) = (do
    let v ← eval n ctx e
    let vs ← evalAll n (ctx.holding v) es
    return v :: vs) := rfl

theorem evalNumber_succ : evalNumber (n + 1) ctx e = (do
    match ← eval n ctx e with
    | .number x => return x
    | other => raise ctx (.expectedNumber other.type) e.span) := rfl

theorem evalBranch_succ : evalBranch (n + 1) ctx body = (do
    let v ← evalBody n ctx body
    return if body.isBlock then .null else v) := rfl

theorem choose_succ : choose (n + 1) ctx condition body rest = (do
    let c ← eval n ctx condition
    if c.isTrue then evalBranch n (ctx.holding c) body
    else
      match rest with
      | .nothing => return .null
      | .elif condition body rest => choose n ctx condition body rest
      | .otherwise body => evalBranch n ctx body) := rfl

theorem count_succ {upwards : Bool} {bound step i : Float} :
    count (n + 1) ctx name upwards bound step body i collected =
      if inRange upwards i bound then (do
        set ctx.frame name (.number i)
        let v ← evalBody n ctx body
        if body.isBlock then count n ctx name upwards bound step body (i + step) collected
        else count n (ctx.holding v) name upwards bound step body (i + step) (v :: collected))
      else Pure.pure (loopValue body collected) := rfl

theorem rounds_succ : rounds (n + 1) ctx condition body collected = (do
    let c ← eval n ctx condition
    if c.isTrue then
      let v ← evalBody n (ctx.holding c) body
      if body.isBlock then rounds n ctx condition body collected
      else rounds n (ctx.holding v) condition body (v :: collected)
    else return loopValue body collected) := rfl

end

/-! ## Tasks -/

/-- What is evaluated, besides the context. -/
inductive Task where
  /-- An expression. -/
  | expr (e : Expr)
  /-- Expressions, from left to right. -/
  | all (es : List Expr)
  /-- An expression that has to be a number. -/
  | number (e : Expr)
  /-- The step of a counting loop. -/
  | step (e : Option Expr)
  /-- A body. -/
  | body (body : Body)
  /-- A branch that is taken. -/
  | branch (body : Body)
  /-- A case and the branches behind it. -/
  | choice (condition : Expr) (body : Body) (rest : Branches)
  /-- The rounds of a counting loop that are left. -/
  | counting (name : String) (upwards : Bool) (bound step : Float) (body : Body) (i : Float)
    (collected : List Value)
  /-- The rounds of a conditional loop that are left. -/
  | looping (condition : Expr) (body : Body) (collected : List Value)
  /-- A call of a function. -/
  | call (f : Function) (args : List Value) (span : Span)
  /-- A call of a built-in function. -/
  | builtin (b : Builtin) (args : List Value) (span : Span)
  /-- A built-in function in its frame. -/
  | running (b : Builtin) (span : Span)
  /-- The arguments of a call that are left to be bound in its frame. -/
  | binding (args : List (String × Value))

namespace Task

/-- What evaluating a task gives. -/
def Result : Task → Type
  | all _ => List Value
  | number _ => Float
  | step _ => Float
  | binding _ => Unit
  | _ => Value

/-- Evaluates a task. -/
def run (n : Nat) (ctx : Context) : (t : Task) → Eval t.Result
  | expr e => eval n ctx e
  | all es => evalAll n ctx es
  | number e => evalNumber n ctx e
  | step e => evalStep n ctx e
  | body b => evalBody n ctx b
  | branch b => evalBranch n ctx b
  | choice condition b rest => choose n ctx condition b rest
  | counting name upwards bound inc b i collected =>
    count n ctx name upwards bound inc b i collected
  | looping condition b collected => rounds n ctx condition b collected
  | call f args span => callFunction n ctx f args span
  | builtin b args span => callBuiltin ctx b args span
  | running b span => runBuiltin ctx b span
  | binding args => setAll ctx.frame args

end Task

end UniformScript.Eval
