import UniformScript.Proofs.Arena.Names
import UniformScript.Proofs.Eval.Points

/-!
# Evaluation binds names in the running frame only

Evaluation of an expression may bind names in the running frame, and it may run any number of
calls, each in a frame of its own.  Whatever happens in them, in the frames that were there before
and are still there no name is bound or lost: a call can only give other values to names that are
bound.

* `BindsOnlyIn`: what is shown of a step, and `BindsOnlyIn.bind`: of one step after the other.
* `BindsOnlyIn.calling`: a call, whatever is evaluated in its frame.
* `bindsOnlyIn_run`: evaluation of any task, however deep.
* `keeps_of_reaches`: at all points in the course of an evaluation.
-/

namespace UniformScript.Eval

open Arena

variable {α β : Type} {own : Option Nat} {s : Nat} {ctx : Context}

/-! ## Steps -/

/-- Wherever the step ends, no frame has lost a name, and only the frame in slot `own` may have got
more. -/
structure BindsOnlyIn (own : Option Nat) (p : Eval α) : Prop where
  value : ∀ {m m' a}, p m = .value a m' → KeepsNames own m.arena m'.arena
  raised : ∀ {m m' failure}, p m = .raised failure m' → KeepsNames own m.arena m'.arena

namespace BindsOnlyIn

theorem weaken {p : Eval α} (h : BindsOnlyIn none p) (own : Option Nat) : BindsOnlyIn own p :=
  ⟨fun hp => (h.value hp).weaken own, fun hp => (h.raised hp).weaken own⟩

theorem pure (own : Option Nat) (a : α) : BindsOnlyIn own (Pure.pure a : Eval α) := by
  refine ⟨?_, nofun⟩
  rintro m _ _ ⟨⟩
  exact .refl own m.arena

theorem raise (own : Option Nat) (ctx : Context) (cause : RuntimeCause) (span : Span) :
    BindsOnlyIn own (Eval.raise ctx cause span : Eval α) := by
  refine ⟨nofun, ?_⟩
  rintro m _ _ ⟨⟩
  exact .refl own m.arena

theorem fault (own : Option Nat) (f : Fault) : BindsOnlyIn own (Eval.fault f : Eval α) :=
  ⟨nofun, nofun⟩

theorem exhausted (own : Option Nat) : BindsOnlyIn own (Eval.exhausted : Eval α) := ⟨nofun, nofun⟩

/-- One step after the other. -/
theorem bind {p : Eval α} {f : α → Eval β} (hp : BindsOnlyIn own p)
    (hf : ∀ a, BindsOnlyIn own (f a)) : BindsOnlyIn own (p >>= f) where
  value h := by
    obtain ⟨a, m₁, h₁, h₂⟩ := bind_eq_value_iff.1 h
    exact (hp.value h₁).trans ((hf a).value h₂)
  raised h := by
    rcases bind_eq_raised_iff.1 h with h₁ | ⟨a, m₁, h₁, h₂⟩
    · exact hp.raised h₁
    · exact (hp.value h₁).trans ((hf a).raised h₂)

theorem ask (own : Option Nat) (f : Arena → Except Fault α) : BindsOnlyIn own (Eval.ask f) := by
  refine ⟨fun {m m' a} h => ?_, fun {m m' failure} h => ?_⟩
  · unfold Eval.ask at h
    split at h
    · cases h
      exact .refl own m.arena
    · cases h
  · unfold Eval.ask at h
    split at h <;> cases h

theorem turn (own : Option Nat) (f : Host → α × Host) : BindsOnlyIn own (Eval.turn f) := by
  refine ⟨?_, nofun⟩
  rintro m _ _ ⟨⟩
  exact .refl own m.arena

/-- A change of the arena, if it keeps the names. -/
theorem change {f : Arena → Except Fault (α × Arena)}
    (hf : ∀ {a r b}, f a = .ok (r, b) → KeepsNames own a b) : BindsOnlyIn own (Eval.change f) := by
  refine ⟨fun {m m' a} h => ?_, fun {m m' failure} h => ?_⟩
  · unfold Eval.change at h
    split at h
    · rename_i hm
      cases h
      exact hf hm
    · cases h
  · unfold Eval.change at h
    split at h <;> cases h

theorem set (s : Nat) (name : String) (v : Value) : BindsOnlyIn (some s) (Eval.set s name v) := by
  apply change
  intro a r b h
  cases hset : a.set s name v with
  | ok c =>
    simp only [hset] at h
    cases h
    exact keepsNames_set hset
  | error fault =>
    simp only [hset] at h
    cases h

theorem setAll (s : Nat) (args : List (String × Value)) :
    BindsOnlyIn (some s) (Eval.setAll s args) := by
  induction args with
  | nil => exact pure _ ()
  | cons arg args ih => exact bind (set s arg.1 arg.2) fun _ => ih

/-! ## Calls -/

/-- A frame is pushed, the arguments are bound, something is evaluated in the frame, and it is
released.  Nothing else is bound. -/
theorem inFrame {parent : Option Nat} {held : List Handle} {args : List (String × Value)}
    {body : Nat → Eval Value} (hbody : ∀ i, BindsOnlyIn (some i) (body i)) :
    BindsOnlyIn none (Eval.inFrame held parent args body) where
  value h := by
    obtain ⟨i, m₁, hchange, h⟩ := bind_eq_value_iff.1 h
    obtain ⟨b, hpush, rfl⟩ := push_of_change hchange
    obtain ⟨u, m₂, hset, h⟩ := bind_eq_value_iff.1 h
    obtain ⟨m₃, a, hend, hrelease, rfl⟩ := releasing_eq_value h
    exact .of_call hpush (((setAll i args).value hset).trans ((hbody i).value hend)) hrelease
  raised h := by
    rcases bind_eq_raised_iff.1 h with hchange | ⟨i, m₁, hchange, h⟩
    · exact (change_ne_raised hchange).elim
    obtain ⟨b, hpush, rfl⟩ := push_of_change hchange
    rcases bind_eq_raised_iff.1 h with hset | ⟨u, m₂, hset, h⟩
    · exact .of_entered hpush ((setAll i args).raised hset)
    obtain ⟨m₃, a, hend, hrelease, rfl⟩ := releasing_eq_raised h
    exact .of_call hpush (((setAll i args).value hset).trans ((hbody i).raised hend)) hrelease

theorem checkArity (own : Option Nat) (ctx : Context) (name : String) (expected given : Nat)
    (span : Span) : BindsOnlyIn own (Eval.checkArity ctx name expected given span) := by
  unfold Eval.checkArity
  split
  · exact raise own ..
  · split
    · exact raise own ..
    · exact pure own ()

theorem argument (own : Option Nat) (ctx : Context) (name : String) :
    BindsOnlyIn own (Eval.argument ctx name) := by
  refine bind (ask own _) fun found => ?_
  cases found with
  | some v => exact pure own v
  | none => exact fault ..

theorem runBuiltin (own : Option Nat) (ctx : Context) (b : Builtin) (span : Span) :
    BindsOnlyIn own (Eval.runBuiltin ctx b span) := by
  cases b with
  | print =>
    exact bind (argument own ctx "data") fun v => bind (turn own _) fun _ => pure own _
  | capture =>
    refine bind (argument own ctx "data") fun v => bind (turn own _) fun line => ?_
    cases line with
    | some line => exact pure own _
    | none => exact bind (turn own _) fun reason => raise own ..
  | random => exact bind (turn own _) fun x => pure own _
  | round =>
    refine bind (argument own ctx "val") fun v => ?_
    cases v with
    | number x => exact pure own _
    | _ => exact raise own ..

theorem calling (ctx : Context) (name : String) (params : List String) (args : List Value)
    (span : Span) (parent : Option Nat) {body : Nat → Eval Value}
    (hbody : ∀ i, BindsOnlyIn (some i) (body i)) :
    BindsOnlyIn none (Eval.calling ctx name params args span parent body) :=
  bind (checkArity none ..) fun _ => inFrame hbody

/-- A built-in function binds nothing in any frame but its own. -/
theorem callBuiltin (ctx : Context) (b : Builtin) (args : List Value) (span : Span) :
    BindsOnlyIn none (Eval.callBuiltin ctx b args span) :=
  calling _ _ _ _ _ _ fun i => runBuiltin (some i) _ b span

end BindsOnlyIn

/-! ## Tasks -/

/-- With the bound `n` on the depth, every task binds names in the frame of its context only. -/
def BindsAt (n : Nat) : Prop :=
  ∀ (t : Task) (ctx : Context), BindsOnlyIn (some ctx.frame) (t.run n ctx)

namespace BindsAt

variable {n : Nat}

theorem expr (ih : BindsAt n) (ctx : Context) (e : Expr) :
    BindsOnlyIn (some ctx.frame) (eval (n + 1) ctx e) := by
  cases e with
  | number span lexeme x => exact .pure _ _
  | text span text => exact .pure _ _
  | list span es => exact .bind (ih (.all es) ctx) fun vs => .pure _ _
  | access span name =>
    refine .bind (.ask _ _) fun found => ?_
    cases found with
    | some v => exact .pure _ _
    | none => exact .raise ..
  | bind span name value =>
    exact .bind (ih (.expr value) ctx) fun v => .bind (.set ..) fun _ => .pure _ _
  | rebind span name value =>
    refine .bind (ih (.expr value) ctx) fun v => .bind ?_ fun _ => .pure _ _
    exact .change fun h => (keepsNames_reassign h).weaken _
  | unary span op operand =>
    refine .bind (ih (.expr operand) ctx) fun v => ?_
    cases op.apply v with
    | ok r => exact .pure _ _
    | error fault => exact .raise ..
  | binary span op left right =>
    refine .bind (ih (.expr left) ctx) fun v =>
      .bind (ih (.expr right) (ctx.holding v)) fun w => ?_
    cases op.apply v w with
    | ok r => exact .pure _ _
    | error fault => cases fault <;> exact .raise ..
  | choice span condition body rest => exact ih (.choice condition body rest) ctx
  | forLoop span name first bound step body =>
    exact .bind (ih (.number first) ctx) fun x => .bind (ih (.number bound) ctx) fun y =>
      .bind (ih (.step step) ctx) fun z => ih (.counting name (0 ≤ x) y z body x []) ctx
  | whileLoop span condition body => exact ih (.looping condition body []) ctx
  | function span name params body =>
    refine .bind (.ask _ _) fun home => ?_
    cases name with
    | none => exact .pure _ _
    | some name => exact .bind (.set ..) fun _ => .pure _ _
  | call span callee args =>
    refine .bind (ih (.expr callee) ctx) fun v =>
      .bind (ih (.all args) (ctx.holding v)) fun vs => ?_
    cases v with
    | function f => exact ih (.call f vs span) (ctx.holding (.function f))
    | builtin b => exact (BindsOnlyIn.callBuiltin ..).weaken _
    | _ => exact .raise ..

theorem all (ih : BindsAt n) (ctx : Context) (es : List Expr) :
    BindsOnlyIn (some ctx.frame) (evalAll (n + 1) ctx es) := by
  cases es with
  | nil => exact .pure _ _
  | cons e es =>
    exact .bind (ih (.expr e) ctx) fun v =>
      .bind (ih (.all es) (ctx.holding v)) fun vs => .pure _ _

theorem number (ih : BindsAt n) (ctx : Context) (e : Expr) :
    BindsOnlyIn (some ctx.frame) (evalNumber (n + 1) ctx e) := by
  refine .bind (ih (.expr e) ctx) fun v => ?_
  cases v with
  | number x => exact .pure _ _
  | _ => exact .raise ..

theorem choice (ih : BindsAt n) (ctx : Context) (condition : Expr) (body : Body)
    (rest : Branches) : BindsOnlyIn (some ctx.frame) (choose (n + 1) ctx condition body rest) := by
  refine .bind (ih (.expr condition) ctx) fun c => ?_
  split
  · exact ih (.branch body) (ctx.holding c)
  · cases rest with
    | nothing => exact .pure _ _
    | elif condition body rest => exact ih (.choice condition body rest) ctx
    | otherwise body => exact ih (.branch body) ctx

theorem counting (ih : BindsAt n) (ctx : Context) (name : String) (upwards : Bool)
    (bound step i : Float) (body : Body) (collected : List Value) :
    BindsOnlyIn (some ctx.frame) (count (n + 1) ctx name upwards bound step body i collected) := by
  rw [count_succ]
  split
  · refine .bind (.set ..) fun _ => .bind (ih (.body body) ctx) fun v => ?_
    split
    · exact ih (.counting name upwards bound step body (i + step) collected) ctx
    · exact ih (.counting name upwards bound step body (i + step) (v :: collected)) (ctx.holding v)
  · exact .pure _ _

theorem looping (ih : BindsAt n) (ctx : Context) (condition : Expr) (body : Body)
    (collected : List Value) :
    BindsOnlyIn (some ctx.frame) (rounds (n + 1) ctx condition body collected) := by
  refine .bind (ih (.expr condition) ctx) fun c => ?_
  split
  · refine .bind (ih (.body body) (ctx.holding c)) fun v => ?_
    split
    · exact ih (.looping condition body collected) ctx
    · exact ih (.looping condition body (v :: collected)) (ctx.holding v)
  · exact .pure _ _

/-- A call binds nothing in any frame but its own. -/
theorem call (ih : BindsAt n) (ctx : Context) (f : Function) (args : List Value) (span : Span) :
    BindsOnlyIn none (callFunction (n + 1) ctx f args span) :=
  .calling _ _ _ _ _ _ fun i =>
    ih (.body f.body) (ctx.entering f.shownName span.start i f.site.run)

end BindsAt

/-- Evaluation binds names in the running frame only. -/
theorem bindsOnlyIn_run (n : Nat) : BindsAt n := by
  induction n with
  | zero =>
    intro t ctx
    cases t with
    | builtin b args span => exact (BindsOnlyIn.callBuiltin ..).weaken _
    | running b span => exact .runBuiltin ..
    | binding args => exact .setAll ..
    | _ => exact .exhausted _
  | succ n ih =>
    intro t ctx
    cases t with
    | expr e => exact ih.expr ctx e
    | all es => exact ih.all ctx es
    | number e => exact ih.number ctx e
    | step e =>
      cases e with
      | none => exact .pure _ _
      | some e => exact ih (.number e) ctx
    | body body =>
      cases body with
      | inline e => exact ih (.expr e) ctx
      | block span es => exact .bind (ih (.all es) ctx) fun vs => .pure _ _
    | branch body => exact .bind (ih (.body body) ctx) fun v => .pure _ _
    | choice condition body rest => exact ih.choice ctx condition body rest
    | counting name upwards bound step body i collected =>
      exact ih.counting ctx name upwards bound step i body collected
    | looping condition body collected => exact ih.looping ctx condition body collected
    | call f args span => exact (ih.call ctx f args span).weaken _
    | builtin b args span => exact (BindsOnlyIn.callBuiltin ..).weaken _
    | running b span => exact .runBuiltin ..
    | binding args => exact .setAll ..

/-- A call of a function binds nothing in any frame but its own. -/
theorem bindsOnlyIn_callFunction (n : Nat) (ctx : Context) (f : Function) (args : List Value)
    (span : Span) : BindsOnlyIn none (callFunction n ctx f args span) := by
  cases n with
  | zero => exact .exhausted none
  | succ n => exact (bindsOnlyIn_run n).call ctx f args span

/-! ## Points -/

/-- From point to point, the frames that stay keep their names, and only the running frame of the
first point may get more; also, the running frame of the second point is that of the first, or no
frame from before. -/
structure Point.Keeps (q r : Point) : Prop where
  names : KeepsNames (some q.spot.ctx.frame) q.machine.arena r.machine.arena
  frame : ∀ h : Handle, h.serial < q.machine.arena.nextSerial → r.machine.arena.Names h →
    h.index = r.spot.ctx.frame → h.index = q.spot.ctx.frame

namespace Point.Keeps

variable {p q r : Point}

theorem refl (q : Point) : q.Keeps q := ⟨.refl _ _, fun _ _ _ h => h⟩

theorem trans (h₁ : p.Keeps q) (h₂ : q.Keeps r) : p.Keeps r where
  names := h₁.names.trans_of h₂.names fun h hlt hn heq =>
    congrArg some (h₁.frame h hlt hn (Option.some.inj heq))
  frame h hlt hn hi := by
    have hlt' := Nat.lt_of_lt_of_le hlt h₁.names.nextSerial
    exact h₁.frame h hlt (h₂.names.old hlt' hn) (h₂.frame h hlt' hn hi)

/-- The names that are bound in the running frame of the second point before its evaluation ends.
-/
theorem trans_names {a : Arena} (h₁ : p.Keeps q)
    (h₂ : KeepsNames (some q.spot.ctx.frame) q.machine.arena a) :
    KeepsNames (some p.spot.ctx.frame) p.machine.arena a :=
  h₁.names.trans_of h₂ fun h hlt hn heq =>
    congrArg some (h₁.frame h hlt hn (Option.some.inj heq))

/-- In the same frame. -/
theorem same {n n' : Nat} {s s' : Spot} {m m' : Machine} {t t' : Task}
    (h : KeepsNames (some s.ctx.frame) m.arena m'.arena) (hframe : s'.ctx.frame = s.ctx.frame) :
    Point.Keeps ⟨n, s, m, t⟩ ⟨n', s', m', t'⟩ :=
  ⟨h, fun _ _ _ hi => hi.trans hframe⟩

/-- In the frame of a call. -/
theorem entered {n n' : Nat} {s : Spot} {m m' : Machine} {t t' : Task} {parent : Option Nat}
    {i : Nat} {a : Arena} {name : String} {entry : Position} {run : Nat}
    (hpush : m.arena.push parent = .ok (i, a)) (h : KeepsNames (some i) a m'.arena) :
    Point.Keeps ⟨n, s, m, t⟩ ⟨n', s.entering name entry ⟨i, m.arena.nextSerial⟩ run, m', t'⟩ where
  names := (KeepsNames.of_entered hpush h).weaken _
  frame k hlt hn hi := by
    have hserial : a.nextSerial = m.arena.nextSerial + 1 := (of_push hpush).1
    have hlt' : k.serial < m.arena.nextSerial := hlt
    exact absurd hi (index_ne_of_push hpush hlt (h.old (by omega) hn))

end Point.Keeps

/-- One step from a point to the next. -/
theorem Visits.keeps {q r : Point} (h : Visits q r) : q.Keeps r := by
  have ends {t : Task} {n : Nat} {ctx : Context} {m m' : Machine} {a : t.Result}
      (hr : t.run n ctx m = .value a m') : KeepsNames (some ctx.frame) m.arena m'.arena :=
    (bindsOnlyIn_run n t ctx).value hr
  have sets {i : Nat} {name : String} {v : Value} {m m' : Machine}
      (hr : set i name v m = .value () m') : KeepsNames (some i) m.arena m'.arena :=
    (BindsOnlyIn.set i name v).value hr
  cases h with
  | right hleft => exact .same (ends (t := .expr _) hleft) rfl
  | loopBound hfirst => exact .same (ends (t := .number _) hfirst) rfl
  | loopStep hfirst hbound =>
    exact .same ((ends (t := .number _) hfirst).trans (ends (t := .number _) hbound)) rfl
  | loopRounds hfirst hbound hstep =>
    exact .same (((ends (t := .number _) hfirst).trans (ends (t := .number _) hbound)).trans
      (ends (t := .step _) hstep)) rfl
  | arguments hcallee => exact .same (ends (t := .expr _) hcallee) rfl
  | call hcallee hargs =>
    have hkeeps := ends (t := .all _) hargs
    exact .same ((ends (t := .expr _) hcallee).trans hkeeps) rfl
  | builtin hcallee hargs =>
    have hkeeps := ends (t := .all _) hargs
    exact .same ((ends (t := .expr _) hcallee).trans hkeeps) rfl
  | tail hhead => exact .same (ends (t := .expr _) hhead) rfl
  | taken hcondition _ => exact .same (ends (t := .expr _) hcondition) rfl
  | elif hcondition _ => exact .same (ends (t := .expr _) hcondition) rfl
  | otherwise hcondition _ => exact .same (ends (t := .expr _) hcondition) rfl
  | round _ hset => exact .same (sets hset) rfl
  | nextBlock _ hset hbody _ => exact .same ((sets hset).trans (ends (t := .body _) hbody)) rfl
  | nextInline _ hset hbody _ => exact .same ((sets hset).trans (ends (t := .body _) hbody)) rfl
  | loopRound hcondition _ => exact .same (ends (t := .expr _) hcondition) rfl
  | loopBlock hcondition _ hbody _ =>
    have hkeeps := ends (t := .body _) hbody
    exact .same ((ends (t := .expr _) hcondition).trans hkeeps) rfl
  | loopInline hcondition _ hbody _ =>
    have hkeeps := ends (t := .body _) hbody
    exact .same ((ends (t := .expr _) hcondition).trans hkeeps) rfl
  | entered _ hpush => exact .entered hpush (.refl _ _)
  | called _ hpush hset => exact .entered hpush ((BindsOnlyIn.setAll ..).value hset)
  | enteredBuiltin _ hpush => exact .entered hpush (.refl _ _)
  | calledBuiltin _ hpush hset => exact .entered hpush ((BindsOnlyIn.setAll ..).value hset)
  | nextArgument hset => exact .same (sets hset) rfl
  | _ => exact .same (.refl _ _) rfl

/-- At all points in the course of an evaluation. -/
theorem keeps_of_reaches {q r : Point} (h : Relation.ReflTransGen Visits q r) : q.Keeps r := by
  induction h with
  | refl => exact .refl q
  | tail _ hstep ih => exact ih.trans hstep.keeps

end UniformScript.Eval
