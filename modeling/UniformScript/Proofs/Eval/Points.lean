import UniformScript.Proofs.Eval.Safety
import Mathlib.Logic.Relation

/-!
# The points of an evaluation

An evaluation comes to one point after the other: to every part of the program it evaluates, in the
context and with the values under way that there are at that time.  `Visits` has a rule for each
step from what is evaluated to a part of it.  At every point an evaluation comes to, before and
after the part is evaluated, the frames of all active calls run, and the frames of all functions
that are bound or under way are there, with all the frames around them.

* `Visits`: from what is evaluated to what is evaluated next in the course of it.
* `Visits.invariant`: one such step.
* `Point.Secure`: what holds at a point, before the evaluation there and after it.
* `secure_of_reaches`: it holds at every point that an evaluation comes to.
-/

namespace UniformScript

open Arena

namespace Arena

variable {a : Arena} {i j : Nat} {active : List Handle} {values : List Value}

/-- From slot `i`, one parent after the other leads to a slot. -/
inductive Ancestor (a : Arena) (i : Nat) : Nat → Prop where
  | self : Ancestor a i i
  | parent {j p : Nat} {f : Frame} (h : Ancestor a i j) (hf : a.frame j = .ok f)
    (hp : f.parent = some p) : Ancestor a i p

/-- No frame is missing that active calls, values under way, bindings or frames around others lead
to. -/
structure Alive (a : Arena) (active : List Handle) (values : List Value) : Prop where
  /-- The frames of the active calls are there, and not released. -/
  active : ∀ h ∈ active, a.Running h
  /-- So are the frames where the functions among the values under way were defined, -/
  values : ∀ h ∈ Value.handlesAll values, a.Names h
  /-- and those of the functions that are bound in frames. -/
  bound : ∀ h ∈ a.handles, a.Names h
  /-- Parents lead from a frame that is there to frames that are there. -/
  ancestors : ∀ {i j}, a.Ancestor i j → (∃ f, a.frame i = .ok f) → ∃ g, a.frame j = .ok g

theorem Sound.alive (hs : a.Sound) (hactive : ∀ h ∈ active, a.Running h)
    (hvalues : ∀ h ∈ Value.handlesAll values, a.Names h) : Alive a active values := by
  refine ⟨hactive, hvalues, hs.names_handles, ?_⟩
  intro i j hup hthere
  induction hup with
  | self => exact hthere
  | parent _ hf hp _ =>
    obtain ⟨g, hg, -⟩ := hs.parent_there hf hp
    exact ⟨g, hg⟩

end Arena

namespace Eval

/-! ## Points -/

/-- Where an evaluation is: its context, with what the context stands for. -/
structure Spot where
  /-- The context. -/
  ctx : Context
  /-- The frames of the active calls, the innermost first, and the global frame at the end. -/
  active : List Handle
  /-- The values under way. -/
  inHand : List Value

namespace Spot

/-- With one value more under way. -/
def holding (s : Spot) (v : Value) : Spot := ⟨s.ctx.holding v, s.active, v :: s.inHand⟩

/-- In a call that runs in the given frame. -/
def entering (s : Spot) (name : String) (entry : Position) (frame : Handle) (run : Nat) : Spot :=
  ⟨s.ctx.entering name entry frame.index run, frame :: s.active, s.inHand⟩

end Spot

/-- A point of an evaluation: what is evaluated there, with which bound on the depth, and in
what. -/
structure Point where
  /-- The bound on the depth. -/
  fuel : Nat
  /-- Where the evaluation is. -/
  spot : Spot
  /-- The frames and the world. -/
  machine : Machine
  /-- What is evaluated next. -/
  task : Task

/-- The values that a task was given. -/
def Task.values : Task → List Value
  | counting _ _ _ _ _ _ collected => collected
  | looping _ _ collected => collected
  | call f args _ => .function f :: args
  | builtin _ args _ => args
  | binding args => args.map Prod.snd
  | _ => []

/-- The values that the result of a task consists of. -/
def Task.returned : (t : Task) → t.Result → List Value
  | expr _ => fun v => [v]
  | all _ => fun vs => vs
  | number _ => fun _ => []
  | step _ => fun _ => []
  | body _ => fun v => [v]
  | branch _ => fun v => [v]
  | choice _ _ _ => fun v => [v]
  | counting _ _ _ _ _ _ _ => fun v => [v]
  | looping _ _ _ => fun v => [v]
  | call _ _ _ => fun v => [v]
  | builtin _ _ _ => fun v => [v]
  | running _ _ => fun v => [v]
  | binding _ => fun _ => []

theorem Task.handlesAll_returned (t : Task) (r : t.Result) :
    Value.handlesAll (t.returned r) = t.handles r := by
  cases t with
  | all es => rfl
  | number e => rfl
  | step e => rfl
  | binding args => rfl
  | _ => exact List.append_nil _

/-- Evaluation at the first point comes to the second one: from what is evaluated to each part of
it, when the parts before it have been evaluated and have given their values. -/
inductive Visits : Point → Point → Prop where
  | elements {n s m span es} :
    Visits ⟨n + 1, s, m, .expr (.list span es)⟩ ⟨n, s, m, .all es⟩
  | bindValue {n s m span name value} :
    Visits ⟨n + 1, s, m, .expr (.bind span name value)⟩ ⟨n, s, m, .expr value⟩
  | rebindValue {n s m span name value} :
    Visits ⟨n + 1, s, m, .expr (.rebind span name value)⟩ ⟨n, s, m, .expr value⟩
  | operand {n s m span op e} :
    Visits ⟨n + 1, s, m, .expr (.unary span op e)⟩ ⟨n, s, m, .expr e⟩
  | left {n s m span op left right} :
    Visits ⟨n + 1, s, m, .expr (.binary span op left right)⟩ ⟨n, s, m, .expr left⟩
  | right {n s m m₁ span op left right v} (hleft : eval n s.ctx left m = .value v m₁) :
    Visits ⟨n + 1, s, m, .expr (.binary span op left right)⟩ ⟨n, s.holding v, m₁, .expr right⟩
  | choice {n s m span condition body rest} :
    Visits ⟨n + 1, s, m, .expr (.choice span condition body rest)⟩
      ⟨n, s, m, .choice condition body rest⟩
  | loopFirst {n s m span name first bound step body} :
    Visits ⟨n + 1, s, m, .expr (.forLoop span name first bound step body)⟩
      ⟨n, s, m, .number first⟩
  | loopBound {n s m m₁ span name first bound step body x}
    (hfirst : evalNumber n s.ctx first m = .value x m₁) :
    Visits ⟨n + 1, s, m, .expr (.forLoop span name first bound step body)⟩
      ⟨n, s, m₁, .number bound⟩
  | loopStep {n s m m₁ m₂ span name first bound step body x y}
    (hfirst : evalNumber n s.ctx first m = .value x m₁)
    (hbound : evalNumber n s.ctx bound m₁ = .value y m₂) :
    Visits ⟨n + 1, s, m, .expr (.forLoop span name first bound step body)⟩
      ⟨n, s, m₂, .step step⟩
  | loopRounds {n s m m₁ m₂ m₃ span name first bound step body x y z}
    (hfirst : evalNumber n s.ctx first m = .value x m₁)
    (hbound : evalNumber n s.ctx bound m₁ = .value y m₂)
    (hstep : evalStep n s.ctx step m₂ = .value z m₃) :
    Visits ⟨n + 1, s, m, .expr (.forLoop span name first bound step body)⟩
      ⟨n, s, m₃, .counting name (0 ≤ x) y z body x []⟩
  | whileRounds {n s m span condition body} :
    Visits ⟨n + 1, s, m, .expr (.whileLoop span condition body)⟩
      ⟨n, s, m, .looping condition body []⟩
  | callee {n s m span callee args} :
    Visits ⟨n + 1, s, m, .expr (.call span callee args)⟩ ⟨n, s, m, .expr callee⟩
  | arguments {n s m m₁ span callee args v} (hcallee : eval n s.ctx callee m = .value v m₁) :
    Visits ⟨n + 1, s, m, .expr (.call span callee args)⟩ ⟨n, s.holding v, m₁, .all args⟩
  | call {n s m m₁ m₂ span callee args f vs}
    (hcallee : eval n s.ctx callee m = .value (.function f) m₁)
    (hargs : evalAll n (s.holding (.function f)).ctx args m₁ = .value vs m₂) :
    Visits ⟨n + 1, s, m, .expr (.call span callee args)⟩
      ⟨n, s.holding (.function f), m₂, .call f vs span⟩
  | builtin {n s m m₁ m₂ span callee args b vs}
    (hcallee : eval n s.ctx callee m = .value (.builtin b) m₁)
    (hargs : evalAll n (s.holding (.builtin b)).ctx args m₁ = .value vs m₂) :
    Visits ⟨n + 1, s, m, .expr (.call span callee args)⟩
      ⟨n, s.holding (.builtin b), m₂, .builtin b vs span⟩
  | head {n s m e es} : Visits ⟨n + 1, s, m, .all (e :: es)⟩ ⟨n, s, m, .expr e⟩
  | tail {n s m m₁ e es v} (hhead : eval n s.ctx e m = .value v m₁) :
    Visits ⟨n + 1, s, m, .all (e :: es)⟩ ⟨n, s.holding v, m₁, .all es⟩
  | number {n s m e} : Visits ⟨n + 1, s, m, .number e⟩ ⟨n, s, m, .expr e⟩
  | givenStep {n s m e} : Visits ⟨n + 1, s, m, .step (some e)⟩ ⟨n, s, m, .number e⟩
  | inline {n s m e} : Visits ⟨n + 1, s, m, .body (.inline e)⟩ ⟨n, s, m, .expr e⟩
  | block {n s m span es} : Visits ⟨n + 1, s, m, .body (.block span es)⟩ ⟨n, s, m, .all es⟩
  | branch {n s m body} : Visits ⟨n + 1, s, m, .branch body⟩ ⟨n, s, m, .body body⟩
  | condition {n s m condition body rest} :
    Visits ⟨n + 1, s, m, .choice condition body rest⟩ ⟨n, s, m, .expr condition⟩
  | taken {n s m m₁ condition body rest c}
    (hcondition : eval n s.ctx condition m = .value c m₁) (hc : c.isTrue = true) :
    Visits ⟨n + 1, s, m, .choice condition body rest⟩ ⟨n, s.holding c, m₁, .branch body⟩
  | elif {n s m m₁ condition body condition' body' rest c}
    (hcondition : eval n s.ctx condition m = .value c m₁) (hc : ¬ c.isTrue = true) :
    Visits ⟨n + 1, s, m, .choice condition body (.elif condition' body' rest)⟩
      ⟨n, s, m₁, .choice condition' body' rest⟩
  | otherwise {n s m m₁ condition body body' c}
    (hcondition : eval n s.ctx condition m = .value c m₁) (hc : ¬ c.isTrue = true) :
    Visits ⟨n + 1, s, m, .choice condition body (.otherwise body')⟩ ⟨n, s, m₁, .branch body'⟩
  | round {n s m m₁ name upwards bound step body i collected}
    (hrange : inRange upwards i bound = true)
    (hset : set s.ctx.frame name (.number i) m = .value () m₁) :
    Visits ⟨n + 1, s, m, .counting name upwards bound step body i collected⟩
      ⟨n, s, m₁, .body body⟩
  | nextBlock {n s m m₁ m₂ name upwards bound step body i collected v}
    (hrange : inRange upwards i bound = true)
    (hset : set s.ctx.frame name (.number i) m = .value () m₁)
    (hbody : evalBody n s.ctx body m₁ = .value v m₂) (hblock : body.isBlock = true) :
    Visits ⟨n + 1, s, m, .counting name upwards bound step body i collected⟩
      ⟨n, s, m₂, .counting name upwards bound step body (i + step) collected⟩
  | nextInline {n s m m₁ m₂ name upwards bound step body i collected v}
    (hrange : inRange upwards i bound = true)
    (hset : set s.ctx.frame name (.number i) m = .value () m₁)
    (hbody : evalBody n s.ctx body m₁ = .value v m₂) (hinline : ¬ body.isBlock = true) :
    Visits ⟨n + 1, s, m, .counting name upwards bound step body i collected⟩
      ⟨n, s.holding v, m₂, .counting name upwards bound step body (i + step) (v :: collected)⟩
  | loopCondition {n s m condition body collected} :
    Visits ⟨n + 1, s, m, .looping condition body collected⟩ ⟨n, s, m, .expr condition⟩
  | loopRound {n s m m₁ condition body collected c}
    (hcondition : eval n s.ctx condition m = .value c m₁) (hc : c.isTrue = true) :
    Visits ⟨n + 1, s, m, .looping condition body collected⟩ ⟨n, s.holding c, m₁, .body body⟩
  | loopBlock {n s m m₁ m₂ condition body collected c v}
    (hcondition : eval n s.ctx condition m = .value c m₁) (hc : c.isTrue = true)
    (hbody : evalBody n (s.holding c).ctx body m₁ = .value v m₂) (hblock : body.isBlock = true) :
    Visits ⟨n + 1, s, m, .looping condition body collected⟩
      ⟨n, s, m₂, .looping condition body collected⟩
  | loopInline {n s m m₁ m₂ condition body collected c v}
    (hcondition : eval n s.ctx condition m = .value c m₁) (hc : c.isTrue = true)
    (hbody : evalBody n (s.holding c).ctx body m₁ = .value v m₂)
    (hinline : ¬ body.isBlock = true) :
    Visits ⟨n + 1, s, m, .looping condition body collected⟩
      ⟨n, s.holding v, m₂, .looping condition body (v :: collected)⟩
  | entered {n s m f args span i a} (hlength : f.params.length = args.length)
    (hpush : m.arena.push (some f.home.index) = .ok (i, a)) :
    Visits ⟨n + 1, s, m, .call f args span⟩
      ⟨n, s.entering f.shownName span.start ⟨i, m.arena.nextSerial⟩ f.site.run, ⟨a, m.host⟩,
        .binding (f.params.zip args)⟩
  | called {n s m m₁ f args span i a} (hlength : f.params.length = args.length)
    (hpush : m.arena.push (some f.home.index) = .ok (i, a))
    (hset : setAll i (f.params.zip args) ⟨a, m.host⟩ = .value () m₁) :
    Visits ⟨n + 1, s, m, .call f args span⟩
      ⟨n, s.entering f.shownName span.start ⟨i, m.arena.nextSerial⟩ f.site.run, m₁,
        .body f.body⟩
  | enteredBuiltin {n s m b args span i a} (hlength : b.params.length = args.length)
    (hpush : m.arena.push none = .ok (i, a)) :
    Visits ⟨n, s, m, .builtin b args span⟩
      ⟨n, s.entering b.name span.start ⟨i, m.arena.nextSerial⟩ s.ctx.run, ⟨a, m.host⟩,
        .binding (b.params.zip args)⟩
  | calledBuiltin {n s m m₁ b args span i a} (hlength : b.params.length = args.length)
    (hpush : m.arena.push none = .ok (i, a))
    (hset : setAll i (b.params.zip args) ⟨a, m.host⟩ = .value () m₁) :
    Visits ⟨n, s, m, .builtin b args span⟩
      ⟨n, s.entering b.name span.start ⟨i, m.arena.nextSerial⟩ s.ctx.run, m₁, .running b span⟩
  | nextArgument {n s m m₁ arg args} (hset : set s.ctx.frame arg.1 arg.2 m = .value () m₁) :
    Visits ⟨n, s, m, .binding (arg :: args)⟩ ⟨n, s, m₁, .binding args⟩

/-! ## What holds at all points -/

/-- What holds where an evaluation is. -/
structure Spot.Stands (s : Spot) (m : Machine) : Prop where
  fits : Fits s.ctx m
  /-- The frames of the active calls run. -/
  running : ∀ h ∈ s.active, m.arena.Running h
  /-- The innermost of them is that of the context. -/
  current : ∃ serial outer, s.active = ⟨s.ctx.frame, serial⟩ :: outer
  /-- There is one for every active call, and the global one. -/
  length : s.active.length = s.ctx.calls.length + 1
  /-- The handles held are those of the values under way. -/
  held : s.ctx.held = Value.handlesAll s.inHand

namespace Spot.Stands

variable {n : Nat} {s : Spot} {m m₁ : Machine} {hs : List Handle}

/-- What the evaluation of a part leaves behind. -/
theorem leaves (st : s.Stands m) (t : Task) {r : t.Result} (hready : t.Ready s.ctx m)
    (hr : t.run n s.ctx m = .value r m₁) : Leaves s.ctx m (t.handles r) m₁ := by
  have hsafe := safe_run n t s.ctx m st.fits hready
  rw [hr] at hsafe
  exact hsafe

/-- It stands when a part has been evaluated. -/
theorem next (st : s.Stands m) (hl : Leaves s.ctx m hs m₁) : s.Stands m₁ where
  fits := hl.fits_same st.fits
  running h hh := (hl.running_iff h).2 (st.running h hh)
  current := st.current
  length := st.length
  held := st.held

/-- It stands when a name has been bound, and the same frames are there. -/
theorem set {name : String} {v : Value} (st : s.Stands m)
    (hv : ∀ h ∈ v.handles, m.arena.Names h) (hset : set s.ctx.frame name v m = .value () m₁) :
    s.Stands m₁ ∧ ∀ h, m.arena.Names h → m₁.arena.Names h := by
  have hl := Safe.set st.fits hv name
  rw [hset] at hl
  obtain ⟨f, hf⟩ := st.fits.frame
  obtain ⟨b, hb, hsame, -⟩ := st.fits.sound.exists_set hf hv name
  have hm : m₁ = ⟨b, m.host⟩ := by
    unfold Eval.set change at hset
    simp only [hb, Bind.bind, Except.bind] at hset
    cases hset
    rfl
  subst hm
  exact ⟨st.next hl, fun h hn => (hsame.names_iff h).2 hn⟩

/-- It stands when the counter of a loop has been bound. -/
theorem round {name : String} {i : Float} (st : s.Stands m)
    (hset : Eval.set s.ctx.frame name (.number i) m = .value () m₁) : s.Stands m₁ := by
  have hnone : ∀ h ∈ (Value.number i).handles, m.arena.Names h := fun _ hh => nomatch hh
  exact (st.set hnone hset).1

/-- It stands with the value of the part under way. -/
theorem holding {v : Value} (st : s.Stands m) (hl : Leaves s.ctx m v.handles m₁) :
    (s.holding v).Stands m₁ where
  fits := hl.fits_holding st.fits
  running h hh := (hl.running_iff h).2 (st.running h hh)
  current := st.current
  length := st.length
  held := congrArg (v.handles ++ ·) st.held

/-- It stands in the frame of a call. -/
theorem entering {args : List (String × Value)} {i : Nat} (st : s.Stands m)
    (he : Entered s.ctx m i args m₁) (name : String) (entry : Position) (run : Nat) :
    (s.entering name entry ⟨i, m.arena.nextSerial⟩ run).Stands m₁ where
  fits := he.fits
  running h hh := by
    refine (he.running_iff h).2 ?_
    rcases List.mem_cons.1 hh with rfl | hh
    · exact .inl rfl
    · exact .inr (st.running h hh)
  current := ⟨_, _, rfl⟩
  length := congrArg (· + 1) st.length
  held := st.held

end Spot.Stands

/-- The frame of a call, when names have been bound in it. -/
theorem entered_of_push {ctx : Context} {m m₁ : Machine} {parent : Option Nat} {i : Nat}
    {args : List (String × Value)} {a : Arena} (hfit : Fits ctx m)
    (hparent : ∀ p ∈ parent, ∃ f, m.arena.frame p = .ok f)
    (hargs : ∀ p ∈ args, ∀ h ∈ p.2.handles, m.arena.Names h)
    (hpush : m.arena.push parent = .ok (i, a))
    (hset : setAll i args ⟨a, m.host⟩ = .value () m₁) : Entered ctx m i args m₁ := by
  obtain ⟨j, m₀, m', hchange, hset', he⟩ := exists_entered hfit hparent hargs
  simp only [change, hpush] at hchange
  cases hchange
  rw [hset] at hset'
  cases hset'
  exact he

/-- The frame of a call, as soon as it is pushed. -/
theorem entered_nil {ctx : Context} {m : Machine} {parent : Option Nat} {i : Nat} {a : Arena}
    (hfit : Fits ctx m) (hparent : ∀ p ∈ parent, ∃ f, m.arena.frame p = .ok f)
    (hpush : m.arena.push parent = .ok (i, a)) : Entered ctx m i [] ⟨a, m.host⟩ :=
  entered_of_push hfit hparent (fun _ hp => nomatch hp) hpush rfl

/-- What holds at a point when the evaluation comes to it. -/
structure Point.Invariant (p : Point) : Prop where
  stands : p.spot.Stands p.machine
  ready : p.task.Ready p.spot.ctx p.machine

namespace Visits

variable {p q : Point}

/-- One step from a point to the next keeps what holds. -/
theorem invariant (h : Visits p q) (inv : p.Invariant) : q.Invariant := by
  have st := inv.stands
  cases h with
  | elements => exact ⟨st, trivial⟩
  | bindValue => exact ⟨st, trivial⟩
  | rebindValue => exact ⟨st, trivial⟩
  | operand => exact ⟨st, trivial⟩
  | left => exact ⟨st, trivial⟩
  | right hleft => exact ⟨st.holding (st.leaves (.expr _) trivial hleft), trivial⟩
  | choice => exact ⟨st, trivial⟩
  | loopFirst => exact ⟨st, trivial⟩
  | loopBound hfirst => exact ⟨st.next (st.leaves (.number _) trivial hfirst), trivial⟩
  | loopStep hfirst hbound =>
    have st₁ := st.next (st.leaves (.number _) trivial hfirst)
    exact ⟨st₁.next (st₁.leaves (.number _) trivial hbound), trivial⟩
  | loopRounds hfirst hbound hstep =>
    have st₁ := st.next (st.leaves (.number _) trivial hfirst)
    have st₂ := st₁.next (st₁.leaves (.number _) trivial hbound)
    exact ⟨st₂.next (st₂.leaves (.step _) trivial hstep), List.nil_subset _⟩
  | whileRounds => exact ⟨st, List.nil_subset _⟩
  | callee => exact ⟨st, trivial⟩
  | arguments hcallee => exact ⟨st.holding (st.leaves (.expr _) trivial hcallee), trivial⟩
  | call hcallee hargs =>
    have st₁ := st.holding (st.leaves (.expr _) trivial hcallee)
    have hl := st₁.leaves (.all _) trivial hargs
    have st₂ := st₁.next hl
    exact ⟨st₂, st₂.fits.names _ List.mem_cons_self, hl.names_result⟩
  | builtin hcallee hargs =>
    have st₁ := st.holding (st.leaves (.expr _) trivial hcallee)
    have hl := st₁.leaves (.all _) trivial hargs
    exact ⟨st₁.next hl, hl.names_result⟩
  | head => exact ⟨st, trivial⟩
  | tail hhead => exact ⟨st.holding (st.leaves (.expr _) trivial hhead), trivial⟩
  | number => exact ⟨st, trivial⟩
  | givenStep => exact ⟨st, trivial⟩
  | inline => exact ⟨st, trivial⟩
  | block => exact ⟨st, trivial⟩
  | branch => exact ⟨st, trivial⟩
  | condition => exact ⟨st, trivial⟩
  | taken hcondition _ => exact ⟨st.holding (st.leaves (.expr _) trivial hcondition), trivial⟩
  | elif hcondition _ => exact ⟨st.next (st.leaves (.expr _) trivial hcondition), trivial⟩
  | otherwise hcondition _ => exact ⟨st.next (st.leaves (.expr _) trivial hcondition), trivial⟩
  | round _ hset => exact ⟨st.round hset, trivial⟩
  | nextBlock _ hset hbody _ =>
    have st₁ := st.round hset
    exact ⟨st₁.next (st₁.leaves (.body _) trivial hbody), inv.ready⟩
  | nextInline _ hset hbody _ =>
    have st₁ := st.round hset
    exact ⟨st₁.holding (st₁.leaves (.body _) trivial hbody), collected_holding inv.ready⟩
  | loopCondition => exact ⟨st, trivial⟩
  | loopRound hcondition _ =>
    exact ⟨st.holding (st.leaves (.expr _) trivial hcondition), trivial⟩
  | loopBlock hcondition _ hbody _ =>
    have hl := st.leaves (.expr _) trivial hcondition
    have hl₁ := (st.holding hl).leaves (.body _) trivial hbody
    exact ⟨(st.next hl).next hl₁.of_holding, inv.ready⟩
  | loopInline hcondition _ hbody _ =>
    have hl := st.leaves (.expr _) trivial hcondition
    have hl₁ := (st.holding hl).leaves (.body _) trivial hbody
    exact ⟨(st.next hl).holding hl₁.of_holding, collected_holding inv.ready⟩
  | entered hlength hpush =>
    have he := entered_nil st.fits (there_of_names inv.ready.1) hpush
    refine ⟨st.entering he _ _ _, ?_⟩
    intro p hp h hh
    exact he.names h (handles_zip inv.ready.2 p hp h hh)
  | called hlength hpush hset =>
    have he := entered_of_push st.fits (there_of_names inv.ready.1) (handles_zip inv.ready.2)
      hpush hset
    exact ⟨st.entering he _ _ _, trivial⟩
  | enteredBuiltin hlength hpush =>
    have he := entered_nil st.fits (by simp) hpush
    refine ⟨st.entering he _ _ _, ?_⟩
    intro p hp h hh
    exact he.names h (handles_zip inv.ready p hp h hh)
  | calledBuiltin hlength hpush hset =>
    have he := entered_of_push st.fits (by simp) (handles_zip inv.ready) hpush hset
    refine ⟨st.entering he _ _ _, ?_⟩
    intro name hname
    obtain ⟨p, hp, rfl⟩ := mem_zip_of_mem hlength hname
    exact he.binds p hp
  | nextArgument hset =>
    obtain ⟨hv, hrest⟩ := List.forall_mem_cons.1 inv.ready
    obtain ⟨st₁, hnames⟩ := st.set hv hset
    exact ⟨st₁, fun p hp h hh => hnames h (hrest p hp h hh)⟩

end Visits

/-! ## What this comes to -/

/-- The handles of the values that a task was given name frames. -/
theorem Task.names_values {ctx : Context} {m : Machine} {t : Task} (hfit : Fits ctx m)
    (hready : t.Ready ctx m) : ∀ h ∈ Value.handlesAll t.values, m.arena.Names h := by
  intro h hh
  cases t with
  | counting name upwards bound step body i collected => exact hfit.names h (hready hh)
  | looping condition body collected => exact hfit.names h (hready hh)
  | call f args span =>
    rcases List.mem_cons.1 hh with rfl | hh
    · exact hready.1
    · exact hready.2 h hh
  | builtin b args span => exact hready h hh
  | binding args =>
    obtain ⟨v, hv, hhv⟩ := mem_handlesAll_iff.1 hh
    obtain ⟨p, hp, rfl⟩ := List.mem_map.1 hv
    exact hready p hp h hhv
  | _ => cases hh

/-- Nothing that the evaluation at a point leads to is missing, before it and after it. -/
structure Point.Secure (p : Point) : Prop where
  /-- The first of the active frames is that of the context, -/
  current : ∃ serial outer, p.spot.active = ⟨p.spot.ctx.frame, serial⟩ :: outer
  /-- and there is one for every active call, besides the global one. -/
  length : p.spot.active.length = p.spot.ctx.calls.length + 1
  /-- Before the evaluation, with the values given to it and those under way. -/
  start : Alive p.machine.arena p.spot.active (p.task.values ++ p.spot.inHand)
  /-- After it has given values. -/
  value : ∀ r m, p.task.run p.fuel p.spot.ctx p.machine = .value r m →
    Alive m.arena p.spot.active (p.task.returned r ++ p.spot.inHand)
  /-- After it has failed. -/
  raised : ∀ failure m, p.task.run p.fuel p.spot.ctx p.machine = .raised failure m →
    Alive m.arena p.spot.active p.spot.inHand
  /-- The arena is never misused. -/
  faulted : ∀ fault, p.task.run p.fuel p.spot.ctx p.machine ≠ .faulted fault

theorem Spot.Stands.alive {s : Spot} {m : Machine} {vs : List Value} (st : s.Stands m)
    (hvs : ∀ h ∈ Value.handlesAll vs, m.arena.Names h) :
    Alive m.arena s.active (vs ++ s.inHand) := by
  apply st.fits.sound.alive st.running
  intro h hh
  rw [handlesAll_append] at hh
  rcases List.mem_append.1 hh with hh | hh
  · exact hvs h hh
  · exact st.fits.names h (st.held ▸ hh)

theorem Point.Invariant.secure {p : Point} (inv : p.Invariant) : p.Secure := by
  have st := inv.stands
  have hsafe := safe_run p.fuel p.task _ _ st.fits inv.ready
  refine ⟨st.current, st.length, st.alive (Task.names_values st.fits inv.ready), ?_, ?_, ?_⟩
  · intro r m hr
    rw [hr] at hsafe
    have hl : Leaves p.spot.ctx p.machine (p.task.handles r) m := hsafe
    apply (st.next hl).alive
    rw [Task.handlesAll_returned]
    exact hl.names_result
  · intro failure m hr
    rw [hr] at hsafe
    have hl : Leaves p.spot.ctx p.machine [] m := hsafe
    have hnone : ∀ h ∈ Value.handlesAll [], m.arena.Names h := fun _ hh => nomatch hh
    exact (st.next hl).alive hnone
  · intro fault hr
    rw [hr] at hsafe
    exact hsafe

/-- What holds at the first point of an evaluation holds at every point that it comes to. -/
theorem invariant_of_reaches {p q : Point} (inv : p.Invariant)
    (h : Relation.ReflTransGen Visits p q) : q.Invariant := by
  induction h with
  | refl => exact inv
  | tail _ hstep ih => exact hstep.invariant ih

/-- Whatever point an evaluation comes to, it is secure. -/
theorem secure_of_reaches {p q : Point} (inv : p.Invariant)
    (h : Relation.ReflTransGen Visits p q) : q.Secure :=
  (invariant_of_reaches inv h).secure

end Eval

end UniformScript
