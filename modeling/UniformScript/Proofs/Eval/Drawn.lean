import UniformScript.Proofs.Arena.Effects
import UniformScript.Proofs.Eval.Points
import UniformScript.Proofs.Syntax.Placed

/-!
# Evaluation makes up no code

The bodies of functions come from the programs that define them, and so does whatever a failure
points to.  `P` stands for the expressions that some programs consist of; what is built from
nothing else is `Drawn` from them.  Evaluation of what is drawn leaves behind frames in which only
drawn values are bound, and gives drawn values; when it fails, the failure is about the span of a
drawn expression, and so is every call that was active.

* `Value.Drawn`, `Arena.Drawn`, `Task.Drawn`, `RuntimeFailure.Drawn`: what is drawn.
* `Draws`: what is shown of a step, and `Draws.bind`: of one step after the other.
* `draws_run`: evaluation of any task, however deep.
* `Visits.drawn`: from one point of an evaluation to the next.
-/

namespace UniformScript

variable {P : Expr → Prop}

/-! ## Values and frames -/

mutual

/-- The functions in the value have bodies of expressions with the property. -/
def Value.Drawn (P : Expr → Prop) : Value → Prop
  | .list elements => DrawnAll P elements
  | .function f => f.body.Throughout P
  | _ => True

/-- So have those in a list of values. -/
def DrawnAll (P : Expr → Prop) : List Value → Prop
  | [] => True
  | v :: vs => v.Drawn P ∧ DrawnAll P vs

end

theorem drawnAll_iff {vs : List Value} : DrawnAll P vs ↔ ∀ v ∈ vs, v.Drawn P := by
  induction vs with
  | nil => simp [DrawnAll]
  | cons v vs ih => simp only [DrawnAll, List.forall_mem_cons, ih]

mutual

/-- A value without functions is drawn from anything. -/
theorem Value.drawn_of_handles : ∀ {v : Value}, v.handles = [] → v.Drawn P
  | .list elements, h => drawnAll_of_handles (show Value.handlesAll elements = [] from h)
  | .number _, _ => trivial
  | .text _, _ => trivial
  | .builtin _, _ => trivial

theorem drawnAll_of_handles : ∀ {vs : List Value}, Value.handlesAll vs = [] → DrawnAll P vs
  | [], _ => trivial
  | _ :: _, h =>
    have hparts := List.append_eq_nil_iff.1 h
    ⟨Value.drawn_of_handles hparts.1, drawnAll_of_handles hparts.2⟩

end

namespace Arena

variable {a b : Arena} {i : Nat} {name : String} {v : Value}

/-- All values bound in frames are drawn. -/
def Drawn (P : Expr → Prop) (a : Arena) : Prop :=
  ∀ i f, a.frame i = .ok f → ∀ p ∈ f.bindings, p.2.Drawn P

theorem drawn_put {bindings : Bindings} (hb : ∀ p ∈ bindings, p.2.Drawn P) (hv : v.Drawn P) :
    ∀ p ∈ bindings.put name v, p.2.Drawn P := by
  induction bindings with
  | nil =>
    intro p hp
    obtain rfl := List.mem_singleton.1 hp
    exact hv
  | cons q rest ih =>
    obtain ⟨hq, hrest⟩ := List.forall_mem_cons.1 hb
    unfold Bindings.put
    split
    · exact List.forall_mem_cons.2 ⟨hv, hrest⟩
    · exact List.forall_mem_cons.2 ⟨hq, ih hrest⟩

theorem Drawn.putFrame {f g : Frame} (h : a.Drawn P) (hf : a.frame i = .ok f)
    (hg : ∀ p ∈ g.bindings, p.2.Drawn P) : (a.putFrame i g).Drawn P := by
  intro j k hk
  rcases (frame_putFrame_iff hf).1 hk with ⟨-, rfl⟩ | ⟨-, hk⟩
  · exact hg
  · exact h j k hk

theorem Drawn.set (h : a.Drawn P) (hv : v.Drawn P) (hset : a.set i name v = .ok b) :
    b.Drawn P := by
  obtain ⟨f, hf, rfl⟩ := exists_of_set hset
  exact h.putFrame hf (drawn_put (h i f hf) hv)

theorem Drawn.reassign {r : Bool} (h : a.Drawn P) (hv : v.Drawn P)
    (hre : a.reassign i name v = .ok (r, b)) : b.Drawn P := by
  rcases exists_of_reassign hre with rfl | ⟨j, f, hf, -, rfl⟩
  · exact h
  · exact h.putFrame hf (drawn_put (h j f hf) hv)

theorem Drawn.push {parent : Option Nat} (h : a.Drawn P) (hpush : a.push parent = .ok (i, b)) :
    b.Drawn P := by
  intro j g hg
  rcases (of_push hpush).2 hg with ⟨-, hnone, -⟩ | ⟨-, f, hf, hbindings, -⟩
  · rw [hnone]
    exact fun p hp => nomatch hp
  · rw [← hbindings]
    exact h j f hf

theorem Drawn.thin (h : a.Drawn P) (hthin : Thinned a b) : b.Drawn P := by
  intro j g hg
  obtain ⟨f, hf, hbindings, -⟩ := hthin.old hg
  rw [← hbindings]
  exact h j f hf

theorem Drawn.get (h : a.Drawn P) (hget : a.get i name = .ok (some v)) : v.Drawn P := by
  obtain ⟨j, f, hf, hmem⟩ := exists_bound_of_get hget
  exact h j f hf _ hmem

end Arena

/-! ## Failures -/

/-- The span is that of an expression with the property. -/
def Span.IsOf (P : Expr → Prop) (span : Span) : Prop := ∃ e, P e ∧ e.span = span

/-- The call was entered where an expression with the property starts. -/
def Activation.Drawn (P : Expr → Prop) (call : Activation) : Prop :=
  ∃ e, P e ∧ call.entry = some e.span.start

/-- The failure is about an expression with the property, and its calls are drawn. -/
structure RuntimeFailure.Drawn (P : Expr → Prop) (failure : RuntimeFailure) : Prop where
  span : failure.span.IsOf P
  calls : ∀ call ∈ failure.calls, call.Drawn P

namespace Expr

theorem mem_parts_self (e : Expr) : e ∈ e.parts := by
  cases e <;> exact List.mem_cons_self

theorem of_throughout {e : Expr} (h : e.Throughout P) : P e :=
  e.throughout_iff.1 h e e.mem_parts_self

theorem span_isOf {e : Expr} (h : e.Throughout P) : e.span.IsOf P := ⟨e, of_throughout h, rfl⟩

end Expr

namespace Eval

/-! ## Steps -/

/-- The active calls are drawn. -/
def Context.Drawn (P : Expr → Prop) (ctx : Context) : Prop := ∀ call ∈ ctx.calls, call.Drawn P

theorem Context.Drawn.entering {ctx : Context} {span : Span} (h : ctx.Drawn P) (hs : span.IsOf P)
    (name : String) (frame run : Nat) : (ctx.entering name span.start frame run).Drawn P := by
  obtain ⟨e, he, rfl⟩ := hs
  exact List.forall_mem_cons.2 ⟨⟨e, he, rfl⟩, h⟩

theorem drawn_zip {names : List String} {vs : List Value} (h : ∀ v ∈ vs, v.Drawn P) :
    ∀ p ∈ names.zip vs, p.2.Drawn P := fun _ hp => h _ (List.of_mem_zip hp).2

variable {α β : Type} {returned : α → List Value} {ctx : Context} {span : Span}

/-- Where the values bound in frames are drawn when the step starts, they are when it ends; the
values it gives are drawn as well, or the failure is. -/
structure Draws (P : Expr → Prop) (returned : α → List Value) (p : Eval α) : Prop where
  value : ∀ {m m' a}, m.arena.Drawn P → p m = .value a m' →
    m'.arena.Drawn P ∧ ∀ v ∈ returned a, v.Drawn P
  raised : ∀ {m m' failure}, m.arena.Drawn P → p m = .raised failure m' →
    m'.arena.Drawn P ∧ failure.Drawn P

namespace Draws

theorem pure {a : α} (ha : ∀ v ∈ returned a, v.Drawn P) :
    Draws P returned (Pure.pure a : Eval α) := by
  refine ⟨?_, nofun⟩
  rintro m _ _ hm ⟨⟩
  exact ⟨hm, ha⟩

/-- A step that gives one value. -/
theorem pure_value {v : Value} (hv : v.Drawn P) :
    Draws P (fun w => [w]) (Pure.pure v : Eval Value) :=
  pure (List.forall_mem_singleton.2 hv)

theorem raise {cause : RuntimeCause} (hctx : ctx.Drawn P) (hspan : span.IsOf P) :
    Draws P returned (Eval.raise ctx cause span : Eval α) := by
  refine ⟨nofun, ?_⟩
  rintro m _ _ hm ⟨⟩
  exact ⟨hm, hspan, hctx⟩

theorem fault (f : Fault) : Draws P returned (Eval.fault f : Eval α) := ⟨nofun, nofun⟩

theorem exhausted : Draws P returned (Eval.exhausted : Eval α) := ⟨nofun, nofun⟩

/-- One step after the other. -/
theorem bind {after : β → List Value} {p : Eval α} {f : α → Eval β} (hp : Draws P returned p)
    (hf : ∀ a, (∀ v ∈ returned a, v.Drawn P) → Draws P after (f a)) :
    Draws P after (p >>= f) where
  value hm h := by
    obtain ⟨a, m₁, h₁, h₂⟩ := bind_eq_value_iff.1 h
    obtain ⟨hm₁, ha⟩ := hp.value hm h₁
    exact (hf a ha).value hm₁ h₂
  raised hm h := by
    rcases bind_eq_raised_iff.1 h with h₁ | ⟨a, m₁, h₁, h₂⟩
    · exact hp.raised hm h₁
    · obtain ⟨hm₁, ha⟩ := hp.value hm h₁
      exact (hf a ha).raised hm₁ h₂

/-- What is found in the frames. -/
theorem ask {f : Arena → Except Fault α}
    (hf : ∀ {a r}, a.Drawn P → f a = .ok r → ∀ v ∈ returned r, v.Drawn P) :
    Draws P returned (Eval.ask f) := by
  refine ⟨fun {m m' a} hm h => ?_, fun {m m' failure} _ h => ?_⟩
  · unfold Eval.ask at h
    split at h
    · rename_i hask
      cases h
      exact ⟨hm, hf hm hask⟩
    · cases h
  · unfold Eval.ask at h
    split at h <;> cases h

theorem get (i : Nat) (name : String) :
    Draws P Option.toList (Eval.ask fun a => a.get i name) := by
  apply ask
  intro a r ha hget v hv
  cases r with
  | none => cases hv
  | some w =>
    obtain rfl := List.mem_singleton.1 hv
    exact ha.get hget

theorem turn (f : Host → α × Host) : Draws P (fun _ => []) (Eval.turn f) := by
  refine ⟨?_, nofun⟩
  rintro m _ _ hm ⟨⟩
  exact ⟨hm, nofun⟩

/-- A change of the arena, if it keeps what is drawn. -/
theorem change {f : Arena → Except Fault (α × Arena)}
    (hf : ∀ {a r b}, a.Drawn P → f a = .ok (r, b) → b.Drawn P) :
    Draws P (fun _ => []) (Eval.change f) := by
  refine ⟨fun {m m' a} hm h => ?_, fun {m m' failure} _ h => (change_ne_raised h).elim⟩
  unfold Eval.change at h
  split at h
  · rename_i hchange
    cases h
    exact ⟨hf hm hchange, nofun⟩
  · cases h

theorem set {v : Value} (i : Nat) (name : String) (hv : v.Drawn P) :
    Draws P (fun _ => []) (Eval.set i name v) := by
  apply change
  intro a r b ha h
  cases hset : a.set i name v with
  | ok c =>
    simp only [hset] at h
    cases h
    exact ha.set hv hset
  | error fault =>
    simp only [hset] at h
    cases h

theorem setAll {args : List (String × Value)} (i : Nat) (hargs : ∀ p ∈ args, p.2.Drawn P) :
    Draws P (fun _ => []) (Eval.setAll i args) := by
  induction args with
  | nil => exact pure (a := ()) nofun
  | cons arg args ih =>
    obtain ⟨harg, hrest⟩ := List.forall_mem_cons.1 hargs
    exact bind (set i arg.1 harg) fun _ _ => ih hrest

/-! ## Calls -/

theorem releasing {held : List Handle} {i : Nat} {p : Eval Value}
    (hp : Draws P (fun v => [v]) p) : Draws P (fun v => [v]) (Eval.releasing held i p) where
  value hm h := by
    obtain ⟨m₁, b, hend, hrelease, rfl⟩ := releasing_eq_value h
    obtain ⟨hm₁, hv⟩ := hp.value hm hend
    exact ⟨hm₁.thin (Arena.thinned_release hrelease), hv⟩
  raised hm h := by
    obtain ⟨m₁, b, hend, hrelease, rfl⟩ := releasing_eq_raised h
    obtain ⟨hm₁, hfailure⟩ := hp.raised hm hend
    exact ⟨hm₁.thin (Arena.thinned_release hrelease), hfailure⟩

/-- What is evaluated in a frame of its own. -/
theorem inFrame {parent : Option Nat} {held : List Handle} {args : List (String × Value)}
    {body : Nat → Eval Value} (hargs : ∀ p ∈ args, p.2.Drawn P)
    (hbody : ∀ i, Draws P (fun v => [v]) (body i)) :
    Draws P (fun v => [v]) (Eval.inFrame held parent args body) :=
  bind (change fun ha hpush => ha.push hpush) fun i _ =>
    bind (setAll i hargs) fun _ _ => releasing (hbody i)

theorem checkArity {name : String} {expected given : Nat} (hctx : ctx.Drawn P)
    (hspan : span.IsOf P) :
    Draws P (fun _ => []) (Eval.checkArity ctx name expected given span) := by
  unfold Eval.checkArity
  split
  · exact raise hctx hspan
  · split
    · exact raise hctx hspan
    · exact pure (a := ()) nofun

/-- A call, whatever it evaluates in its frame. -/
theorem calling {params : List String} {args : List Value} {parent : Option Nat}
    {body : Nat → Eval Value} (name : String) (hctx : ctx.Drawn P) (hspan : span.IsOf P)
    (hargs : ∀ v ∈ args, v.Drawn P) (hbody : ∀ i, Draws P (fun v => [v]) (body i)) :
    Draws P (fun v => [v]) (Eval.calling ctx name params args span parent body) :=
  bind (checkArity hctx hspan) fun _ _ => inFrame (drawn_zip hargs) hbody

theorem argument (ctx : Context) (name : String) :
    Draws P (fun v => [v]) (Eval.argument ctx name) := by
  refine bind (get ctx.frame name) fun found hfound => ?_
  cases found with
  | some v => exact pure_value (hfound v List.mem_cons_self)
  | none => exact fault _

theorem runBuiltin (b : Builtin) (hctx : ctx.Drawn P) (hspan : span.IsOf P) :
    Draws P (fun v => [v]) (Eval.runBuiltin ctx b span) := by
  cases b with
  | print =>
    exact bind (argument ctx "data") fun v _ => bind (turn _) fun _ _ => pure_value trivial
  | capture =>
    refine bind (argument ctx "data") fun v _ => bind (turn _) fun line _ => ?_
    cases line with
    | some line => exact pure_value trivial
    | none => exact bind (turn _) fun reason _ => raise hctx hspan
  | random => exact bind (turn _) fun x _ => pure_value trivial
  | round =>
    refine bind (argument ctx "val") fun v _ => ?_
    cases v with
    | number x => exact pure_value trivial
    | _ => exact raise hctx hspan

theorem callBuiltin {args : List Value} (b : Builtin) (hctx : ctx.Drawn P)
    (hspan : span.IsOf P) (hargs : ∀ v ∈ args, v.Drawn P) :
    Draws P (fun v => [v]) (Eval.callBuiltin ctx b args span) :=
  calling b.name hctx hspan hargs fun _ => runBuiltin b (hctx.entering hspan _ _ _) hspan

end Draws

/-! ## Tasks -/

/-- The code of a task consists of expressions with the property. -/
def Task.Code (P : Expr → Prop) : Task → Prop
  | expr e => e.Throughout P
  | all es => ThroughoutAll P es
  | number e => e.Throughout P
  | step e => ThroughoutStep P e
  | body b => b.Throughout P
  | branch b => b.Throughout P
  | choice condition b rest => condition.Throughout P ∧ b.Throughout P ∧ rest.Throughout P
  | counting _ _ _ _ b _ _ => b.Throughout P
  | looping condition b _ => condition.Throughout P ∧ b.Throughout P
  | call _ _ span => span.IsOf P
  | builtin _ _ span => span.IsOf P
  | running _ span => span.IsOf P
  | binding _ => True

/-- Neither its code nor the values it was given have been made up. -/
structure Task.Drawn (P : Expr → Prop) (t : Task) : Prop where
  code : t.Code P
  values : ∀ v ∈ t.values, v.Drawn P

/-- With the bound `n` on the depth, every task that is drawn gives what is drawn. -/
def DrawsAt (P : Expr → Prop) (n : Nat) : Prop :=
  ∀ (t : Task) (ctx : Context), ctx.Drawn P → t.Drawn P → Draws P t.returned (t.run n ctx)

theorem drawn_loopValue {body : Body} {collected : List Value}
    (h : ∀ v ∈ collected, v.Drawn P) : (loopValue body collected).Drawn P := by
  unfold loopValue
  split
  · trivial
  · exact drawnAll_iff.2 fun v hv => h v (List.mem_reverse.1 hv)

namespace DrawsAt

variable {n : Nat} {body : Body} {condition : Expr} {collected : List Value}

theorem expr (ih : DrawsAt P n) (hctx : ctx.Drawn P) {e : Expr} (he : e.Throughout P) :
    Draws P (fun v => [v]) (eval (n + 1) ctx e) := by
  have hspan := Expr.span_isOf he
  cases e with
  | number span lexeme x => exact .pure_value trivial
  | text span text => exact .pure_value trivial
  | list span es =>
    exact .bind (ih (.all es) ctx hctx ⟨he.2, nofun⟩) fun vs hvs =>
      .pure_value (drawnAll_iff.2 hvs)
  | access span name =>
    refine .bind (.get ..) fun found hfound => ?_
    cases found with
    | some v => exact .pure_value (hfound v List.mem_cons_self)
    | none => exact .raise hctx hspan
  | bind span name value =>
    exact .bind (ih (.expr value) ctx hctx ⟨he.2, nofun⟩) fun v hv =>
      .bind (.set _ _ (hv v List.mem_cons_self)) fun _ _ => .pure hv
  | rebind span name value =>
    refine .bind (ih (.expr value) ctx hctx ⟨he.2, nofun⟩) fun v hv =>
      .bind (.change fun ha h => ?_) fun _ _ => .pure hv
    exact ha.reassign (hv v List.mem_cons_self) h
  | unary span op operand =>
    refine .bind (ih (.expr operand) ctx hctx ⟨he.2, nofun⟩) fun v _ => ?_
    cases hr : op.apply v with
    | ok r => exact .pure_value (Value.drawn_of_handles (handles_unary hr))
    | error fault => exact .raise hctx hspan
  | binary span op left right =>
    refine .bind (ih (.expr left) ctx hctx ⟨he.2.1, nofun⟩) fun v _ =>
      .bind (ih (.expr right) (ctx.holding v) hctx ⟨he.2.2, nofun⟩) fun w _ => ?_
    cases hr : op.apply v w with
    | ok r => exact .pure_value (Value.drawn_of_handles (handles_binary hr))
    | error fault =>
      cases fault with
      | zeroDivisor => exact .raise hctx (Expr.span_isOf he.2.2)
      | illegal => exact .raise hctx hspan
  | choice span condition body rest =>
    exact ih (.choice condition body rest) ctx hctx ⟨he.2, nofun⟩
  | forLoop span name first bound step body =>
    obtain ⟨-, hfirst, hbound, hstep, hbody⟩ := he
    exact .bind (ih (.number first) ctx hctx ⟨hfirst, nofun⟩) fun x _ =>
      .bind (ih (.number bound) ctx hctx ⟨hbound, nofun⟩) fun y _ =>
      .bind (ih (.step step) ctx hctx ⟨hstep, nofun⟩) fun z _ =>
        ih (.counting name (0 ≤ x) y z body x []) ctx hctx ⟨hbody, nofun⟩
  | whileLoop span condition body =>
    exact ih (.looping condition body []) ctx hctx ⟨he.2, nofun⟩
  | function span name params body =>
    have hask : Draws P (fun _ => []) (Eval.ask fun a => a.handle ctx.frame) :=
      .ask fun _ _ => nofun
    refine .bind hask fun home _ => ?_
    cases name with
    | none => exact .pure_value he.2
    | some name => exact .bind (.set _ _ he.2) fun _ _ => .pure_value he.2
  | call span callee args =>
    refine .bind (ih (.expr callee) ctx hctx ⟨he.2.1, nofun⟩) fun v hv =>
      .bind (ih (.all args) (ctx.holding v) hctx ⟨he.2.2, nofun⟩) fun vs hvs => ?_
    cases v with
    | function f =>
      exact ih (.call f vs span) (ctx.holding (.function f)) hctx
        ⟨hspan, List.forall_mem_cons.2 ⟨hv _ List.mem_cons_self, hvs⟩⟩
    | builtin b => exact .callBuiltin b hctx hspan hvs
    | _ => exact .raise hctx (Expr.span_isOf he.2.1)

theorem all (ih : DrawsAt P n) (hctx : ctx.Drawn P) {es : List Expr} (hes : ThroughoutAll P es) :
    Draws P (fun vs => vs) (evalAll (n + 1) ctx es) := by
  cases es with
  | nil => exact .pure nofun
  | cons e es =>
    exact .bind (ih (.expr e) ctx hctx ⟨hes.1, nofun⟩) fun v hv =>
      .bind (ih (.all es) (ctx.holding v) hctx ⟨hes.2, nofun⟩) fun vs hvs =>
        .pure (List.forall_mem_cons.2 ⟨hv v List.mem_cons_self, hvs⟩)

theorem number (ih : DrawsAt P n) (hctx : ctx.Drawn P) {e : Expr} (he : e.Throughout P) :
    Draws P (fun _ => []) (evalNumber (n + 1) ctx e) := by
  refine .bind (ih (.expr e) ctx hctx ⟨he, nofun⟩) fun v _ => ?_
  cases v with
  | number x => exact .pure nofun
  | _ => exact .raise hctx (Expr.span_isOf he)

theorem choice (ih : DrawsAt P n) (hctx : ctx.Drawn P) {rest : Branches}
    (h : (Task.choice condition body rest).Code P) :
    Draws P (fun v => [v]) (choose (n + 1) ctx condition body rest) := by
  refine .bind (ih (.expr condition) ctx hctx ⟨h.1, nofun⟩) fun c _ => ?_
  split
  · exact ih (.branch body) (ctx.holding c) hctx ⟨h.2.1, nofun⟩
  · cases rest with
    | nothing => exact .pure_value trivial
    | elif condition body rest => exact ih (.choice condition body rest) ctx hctx ⟨h.2.2, nofun⟩
    | otherwise body => exact ih (.branch body) ctx hctx ⟨h.2.2, nofun⟩

theorem counting (ih : DrawsAt P n) (hctx : ctx.Drawn P) (name : String) (upwards : Bool)
    (bound step i : Float) (hbody : body.Throughout P) (hcollected : ∀ v ∈ collected, v.Drawn P) :
    Draws P (fun v => [v]) (count (n + 1) ctx name upwards bound step body i collected) := by
  rw [count_succ]
  split
  · refine .bind (.set _ _ trivial) fun _ _ => .bind (ih (.body body) ctx hctx ⟨hbody, nofun⟩)
      fun v hv => ?_
    split
    · exact ih (.counting name upwards bound step body (i + step) collected) ctx hctx
        ⟨hbody, hcollected⟩
    · exact ih (.counting name upwards bound step body (i + step) (v :: collected))
        (ctx.holding v) hctx ⟨hbody, List.forall_mem_cons.2 ⟨hv v List.mem_cons_self, hcollected⟩⟩
  · exact .pure_value (drawn_loopValue hcollected)

theorem looping (ih : DrawsAt P n) (hctx : ctx.Drawn P)
    (h : (Task.looping condition body collected).Drawn P) :
    Draws P (fun v => [v]) (rounds (n + 1) ctx condition body collected) := by
  refine .bind (ih (.expr condition) ctx hctx ⟨h.code.1, nofun⟩) fun c _ => ?_
  split
  · refine .bind (ih (.body body) (ctx.holding c) hctx ⟨h.code.2, nofun⟩) fun v hv => ?_
    split
    · exact ih (.looping condition body collected) ctx hctx h
    · exact ih (.looping condition body (v :: collected)) (ctx.holding v) hctx
        ⟨h.code, List.forall_mem_cons.2 ⟨hv v List.mem_cons_self, h.values⟩⟩
  · exact .pure_value (drawn_loopValue h.values)

theorem call (ih : DrawsAt P n) (hctx : ctx.Drawn P) {f : Function} {args : List Value}
    (h : (Task.call f args span).Drawn P) :
    Draws P (fun v => [v]) (callFunction (n + 1) ctx f args span) := by
  obtain ⟨hf, hargs⟩ := List.forall_mem_cons.1 h.values
  exact .calling f.shownName hctx h.code hargs fun i =>
    ih (.body f.body) _ (hctx.entering h.code _ _ _) ⟨hf, nofun⟩

end DrawsAt

/-- Evaluation makes up no code. -/
theorem draws_run (n : Nat) : DrawsAt P n := by
  induction n with
  | zero =>
    intro t ctx hctx ht
    cases t with
    | builtin b args span => exact .callBuiltin b hctx ht.code ht.values
    | running b span => exact .runBuiltin b hctx ht.code
    | binding args => exact .setAll _ (List.forall_mem_map.1 ht.values)
    | _ => exact .exhausted
  | succ n ih =>
    intro t ctx hctx ht
    cases t with
    | expr e => exact ih.expr hctx ht.code
    | all es => exact ih.all hctx ht.code
    | number e => exact ih.number hctx ht.code
    | step e =>
      cases e with
      | none => exact .pure nofun
      | some e => exact ih (.number e) ctx hctx ⟨ht.code, nofun⟩
    | body body =>
      cases body with
      | inline e => exact ih (.expr e) ctx hctx ⟨ht.code.2, nofun⟩
      | block span es =>
        exact .bind (ih (.all es) ctx hctx ⟨ht.code.2, nofun⟩) fun vs hvs =>
          .pure_value (drawnAll_iff.2 hvs)
    | branch body =>
      refine .bind (ih (.body body) ctx hctx ⟨ht.code, nofun⟩) fun v hv => .pure_value ?_
      split
      · trivial
      · exact hv v List.mem_cons_self
    | choice condition body rest => exact ih.choice hctx ht.code
    | counting name upwards bound step body i collected =>
      exact ih.counting hctx name upwards bound step i ht.code ht.values
    | looping condition body collected => exact ih.looping hctx ht
    | call f args span => exact ih.call hctx ht
    | builtin b args span => exact .callBuiltin b hctx ht.code ht.values
    | running b span => exact .runBuiltin b hctx ht.code
    | binding args => exact .setAll _ (List.forall_mem_map.1 ht.values)

/-! ## Points -/

/-- Everything at the point is drawn: the active calls, the values bound in frames, and what is
evaluated. -/
structure Point.Drawn (P : Expr → Prop) (q : Point) : Prop where
  ctx : q.spot.ctx.Drawn P
  arena : q.machine.arena.Drawn P
  task : q.task.Drawn P

/-- From one point to the next. -/
theorem Visits.drawn {q r : Point} (h : Visits q r) (hq : q.Drawn P) : r.Drawn P := by
  obtain ⟨hctx, harena, hcode, hvalues⟩ := hq
  -- what the evaluation of a part, or of expressions, leaves behind and gives
  have ends {n : Nat} {ctx : Context} {m m' : Machine} {t : Task} {a : t.Result}
      (hr : t.run n ctx m = .value a m') (hctx : ctx.Drawn P) (hm : m.arena.Drawn P)
      (ht : t.Drawn P) : m'.arena.Drawn P ∧ ∀ v ∈ t.returned a, v.Drawn P :=
    (draws_run n t ctx hctx ht).value hm hr
  have sets {i : Nat} {name : String} {v : Value} {m m' : Machine}
      (hset : set i name v m = .value () m') (hm : m.arena.Drawn P) (hv : v.Drawn P) :
      m'.arena.Drawn P :=
    ((Draws.set i name hv).value hm hset).1
  have setsAll {i : Nat} {names : List String} {vs : List Value} {m m' : Machine}
      (hm : m.arena.Drawn P) (hvs : ∀ v ∈ vs, v.Drawn P)
      (hset : setAll i (names.zip vs) m = .value () m') : m'.arena.Drawn P :=
    ((Draws.setAll i (drawn_zip hvs)).value hm hset).1
  have zipped {names : List String} {vs : List Value} (hvs : ∀ v ∈ vs, v.Drawn P) :
      ∀ v ∈ (Task.binding (names.zip vs)).values, v.Drawn P :=
    List.forall_mem_map.2 (drawn_zip hvs)
  cases h with
  | elements => exact ⟨hctx, harena, hcode.2, nofun⟩
  | bindValue => exact ⟨hctx, harena, hcode.2, nofun⟩
  | rebindValue => exact ⟨hctx, harena, hcode.2, nofun⟩
  | operand => exact ⟨hctx, harena, hcode.2, nofun⟩
  | left => exact ⟨hctx, harena, hcode.2.1, nofun⟩
  | right hleft =>
    have hend := ends (t := .expr _) hleft hctx harena ⟨hcode.2.1, nofun⟩
    exact ⟨hctx, hend.1, hcode.2.2, nofun⟩
  | choice => exact ⟨hctx, harena, hcode.2, nofun⟩
  | loopFirst => exact ⟨hctx, harena, hcode.2.1, nofun⟩
  | loopBound hfirst =>
    have hend := ends (t := .number _) hfirst hctx harena ⟨hcode.2.1, nofun⟩
    exact ⟨hctx, hend.1, hcode.2.2.1, nofun⟩
  | loopStep hfirst hbound =>
    obtain ⟨-, cfirst, cbound, cstep, -⟩ := hcode
    have hend := ends (t := .number _) hfirst hctx harena ⟨cfirst, nofun⟩
    have hend := ends (t := .number _) hbound hctx hend.1 ⟨cbound, nofun⟩
    exact ⟨hctx, hend.1, cstep, nofun⟩
  | loopRounds hfirst hbound hstep =>
    obtain ⟨-, cfirst, cbound, cstep, cbody⟩ := hcode
    have hend := ends (t := .number _) hfirst hctx harena ⟨cfirst, nofun⟩
    have hend := ends (t := .number _) hbound hctx hend.1 ⟨cbound, nofun⟩
    have hend := ends (t := .step _) hstep hctx hend.1 ⟨cstep, nofun⟩
    exact ⟨hctx, hend.1, cbody, nofun⟩
  | whileRounds => exact ⟨hctx, harena, hcode.2, nofun⟩
  | callee => exact ⟨hctx, harena, hcode.2.1, nofun⟩
  | arguments hcallee =>
    have hend := ends (t := .expr _) hcallee hctx harena ⟨hcode.2.1, nofun⟩
    exact ⟨hctx, hend.1, hcode.2.2, nofun⟩
  | call hcallee hargs =>
    have hend := ends (t := .expr _) hcallee hctx harena ⟨hcode.2.1, nofun⟩
    have hend' := ends (t := .all _) hargs hctx hend.1 ⟨hcode.2.2, nofun⟩
    exact ⟨hctx, hend'.1, Expr.span_isOf hcode,
      List.forall_mem_cons.2 ⟨hend.2 _ List.mem_cons_self, hend'.2⟩⟩
  | builtin hcallee hargs =>
    have hend := ends (t := .expr _) hcallee hctx harena ⟨hcode.2.1, nofun⟩
    have hend' := ends (t := .all _) hargs hctx hend.1 ⟨hcode.2.2, nofun⟩
    exact ⟨hctx, hend'.1, Expr.span_isOf hcode, hend'.2⟩
  | head => exact ⟨hctx, harena, hcode.1, nofun⟩
  | tail hhead =>
    have hend := ends (t := .expr _) hhead hctx harena ⟨hcode.1, nofun⟩
    exact ⟨hctx, hend.1, hcode.2, nofun⟩
  | number => exact ⟨hctx, harena, hcode, nofun⟩
  | givenStep => exact ⟨hctx, harena, hcode, nofun⟩
  | inline => exact ⟨hctx, harena, hcode.2, nofun⟩
  | block => exact ⟨hctx, harena, hcode.2, nofun⟩
  | branch => exact ⟨hctx, harena, hcode, nofun⟩
  | condition => exact ⟨hctx, harena, hcode.1, nofun⟩
  | taken hcondition _ =>
    have hend := ends (t := .expr _) hcondition hctx harena ⟨hcode.1, nofun⟩
    exact ⟨hctx, hend.1, hcode.2.1, nofun⟩
  | elif hcondition _ =>
    have hend := ends (t := .expr _) hcondition hctx harena ⟨hcode.1, nofun⟩
    exact ⟨hctx, hend.1, hcode.2.2, nofun⟩
  | otherwise hcondition _ =>
    have hend := ends (t := .expr _) hcondition hctx harena ⟨hcode.1, nofun⟩
    exact ⟨hctx, hend.1, hcode.2.2, nofun⟩
  | round _ hset => exact ⟨hctx, sets hset harena trivial, hcode, nofun⟩
  | nextBlock _ hset hbody _ =>
    have hend := ends (t := .body _) hbody hctx (sets hset harena trivial) ⟨hcode, nofun⟩
    exact ⟨hctx, hend.1, hcode, hvalues⟩
  | nextInline _ hset hbody _ =>
    have hend := ends (t := .body _) hbody hctx (sets hset harena trivial) ⟨hcode, nofun⟩
    exact ⟨hctx, hend.1, hcode, List.forall_mem_cons.2 ⟨hend.2 _ List.mem_cons_self, hvalues⟩⟩
  | loopCondition => exact ⟨hctx, harena, hcode.1, nofun⟩
  | loopRound hcondition _ =>
    have hend := ends (t := .expr _) hcondition hctx harena ⟨hcode.1, nofun⟩
    exact ⟨hctx, hend.1, hcode.2, nofun⟩
  | loopBlock hcondition _ hbody _ =>
    have hend := ends (t := .expr _) hcondition hctx harena ⟨hcode.1, nofun⟩
    have hend' := ends (t := .body _) hbody hctx hend.1 ⟨hcode.2, nofun⟩
    exact ⟨hctx, hend'.1, hcode, hvalues⟩
  | loopInline hcondition _ hbody _ =>
    have hend := ends (t := .expr _) hcondition hctx harena ⟨hcode.1, nofun⟩
    have hend' := ends (t := .body _) hbody hctx hend.1 ⟨hcode.2, nofun⟩
    exact ⟨hctx, hend'.1, hcode, List.forall_mem_cons.2 ⟨hend'.2 _ List.mem_cons_self, hvalues⟩⟩
  | entered _ hpush =>
    have hargs := (List.forall_mem_cons.1 hvalues).2
    exact ⟨hctx.entering hcode _ _ _, harena.push hpush, trivial, zipped hargs⟩
  | called _ hpush hset =>
    obtain ⟨hf, hargs⟩ := List.forall_mem_cons.1 hvalues
    exact ⟨hctx.entering hcode _ _ _, setsAll (harena.push hpush) hargs hset, hf, nofun⟩
  | enteredBuiltin _ hpush =>
    exact ⟨hctx.entering hcode _ _ _, harena.push hpush, trivial, zipped hvalues⟩
  | calledBuiltin _ hpush hset =>
    exact ⟨hctx.entering hcode _ _ _, setsAll (harena.push hpush) hvalues hset, hcode, nofun⟩
  | nextArgument hset =>
    obtain ⟨hv, hrest⟩ := List.forall_mem_cons.1 hvalues
    exact ⟨hctx, sets hset harena hv, trivial, hrest⟩

/-- At all points in the course of an evaluation. -/
theorem drawn_of_reaches {q r : Point} (hq : q.Drawn P) (h : Relation.ReflTransGen Visits q r) :
    r.Drawn P := by
  induction h with
  | refl => exact hq
  | tail _ hstep ih => exact hstep.drawn ih

end Eval

end UniformScript
