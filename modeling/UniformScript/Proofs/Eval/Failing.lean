import UniformScript.Proofs.Eval.Points

/-!
# Where an evaluation fails, and in which calls

When an evaluation fails, it fails at one point of its own accord, and at all points on the way
there because a part of what is evaluated fails.  On the way there it enters calls, of functions
and of built-in functions, and at no other time; so the calls that a failure knows are those
entered and not left.

* `Point.FailsAlone`: no part fails, and still the evaluation does.
* `Point.Fails.explains`: an evaluation fails in its own context, or a part of it fails.
* `raised_of_calling`, `calling_eq_raised`: a call fails as what is evaluated in its frame does.
* `Visits.fails`: if a part fails, what it is a part of fails in the same way.
* `ComesIn`: from point to point, with the calls entered on the way, and `ComesIn.calls_eq`.
* `exists_failsAlone`: there is a point where an evaluation that fails does so of its own accord.
-/

namespace UniformScript.Eval

/-! ## Failures of steps -/

section

variable {α : Type} {ctx : Context} {span : Span} {m m' : Machine} {failure : RuntimeFailure}

theorem ask_ne_raised {f : Arena → Except Fault α} (h : ask f m = .raised failure m') : False := by
  unfold ask at h
  split at h <;> cases h

theorem calls_of_raise {cause : RuntimeCause}
    (h : (raise ctx cause span : Eval α) m = .raised failure m') : failure.calls = ctx.calls := by
  cases h
  rfl

theorem setAll_ne_raised {i : Nat} {args : List (String × Value)}
    (h : setAll i args m = .raised failure m') : False := by
  induction args generalizing m with
  | nil => cases h
  | cons arg args ih =>
    rcases bind_eq_raised_iff.1 h with h | ⟨_, _, _, h⟩
    · exact change_ne_raised h
    · exact ih h

theorem calls_of_checkArity {name : String} {expected given : Nat}
    (h : checkArity ctx name expected given span m = .raised failure m') :
    failure.calls = ctx.calls := by
  unfold checkArity at h
  split at h
  · exact calls_of_raise h
  · split at h
    · exact calls_of_raise h
    · cases h

theorem eq_of_checkArity {name : String} {expected given : Nat} {u : Unit}
    (h : checkArity ctx name expected given span m = .value u m') : expected = given ∧ m' = m := by
  unfold checkArity at h
  split at h
  · cases h
  · split at h
    · cases h
    · cases h
      exact ⟨by omega, rfl⟩

theorem checkArity_eq {name : String} {expected given : Nat} (h : expected = given) :
    checkArity ctx name expected given span m = .value () m := by
  subst h
  simp [checkArity]

theorem argument_ne_raised {name : String} (h : argument ctx name m = .raised failure m') :
    False := by
  rcases bind_eq_raised_iff.1 h with h | ⟨found, _, _, h⟩
  · exact ask_ne_raised h
  · cases found <;> cases h

/-- A built-in function fails in its own call. -/
theorem calls_of_runBuiltin {b : Builtin} (h : runBuiltin ctx b span m = .raised failure m') :
    failure.calls = ctx.calls := by
  cases b with
  | print =>
    rcases bind_eq_raised_iff.1 h with h | ⟨v, _, _, h⟩
    · exact (argument_ne_raised h).elim
    · cases h
  | capture =>
    rcases bind_eq_raised_iff.1 h with h | ⟨v, _, _, h⟩
    · exact (argument_ne_raised h).elim
    · rcases bind_eq_raised_iff.1 h with h | ⟨line, _, _, h⟩
      · cases h
      · cases line <;> cases h
        rfl
  | random => cases h
  | round =>
    rcases bind_eq_raised_iff.1 h with h | ⟨v, _, _, h⟩
    · exact (argument_ne_raised h).elim
    · cases v <;> cases h <;> rfl

end

/-! ## Failures at points -/

/-- The evaluation at the point ends with the failure. -/
def Point.Fails (q : Point) (failure : RuntimeFailure) : Prop :=
  ∃ m, q.task.run q.fuel q.spot.ctx q.machine = .raised failure m

/-- The evaluation at the point ends with the failure, and no part of it that is visited fails. -/
structure Point.FailsAlone (q : Point) (failure : RuntimeFailure) : Prop where
  fails : q.Fails failure
  parts : ∀ r failure', Visits q r → ¬ r.Fails failure'

variable {p q r : Point} {failure failure' : RuntimeFailure}

theorem Point.Fails.unique (h : q.Fails failure) (h' : q.Fails failure') : failure = failure' := by
  obtain ⟨m, h⟩ := h
  obtain ⟨m', h'⟩ := h'
  cases h.symm.trans h'
  rfl

/-- The failure happens in the context of the point, or in a part of what is evaluated there. -/
def Point.Explains (q : Point) (failure : RuntimeFailure) : Prop :=
  failure.calls = q.spot.ctx.calls ∨ ∃ r, Visits q r ∧ r.Fails failure

namespace Point.Explains

variable {n : Nat} {s : Spot} {m m' : Machine}

theorem part (hstep : Visits q r)
    (h : r.task.run r.fuel r.spot.ctx r.machine = .raised failure m') :
    q.Explains failure := .inr ⟨r, hstep, m', h⟩

theorem expr {e : Expr} (h : eval (n + 1) s.ctx e m = .raised failure m') :
    Explains ⟨n + 1, s, m, .expr e⟩ failure := by
  cases e with
  | number span lexeme x => cases h
  | text span text => cases h
  | list span es =>
    rcases bind_eq_raised_iff.1 h with h | ⟨vs, m₁, _, h⟩
    · exact part .elements h
    · cases h
  | access span name =>
    rcases bind_eq_raised_iff.1 h with h | ⟨found, m₁, _, h⟩
    · exact (ask_ne_raised h).elim
    · cases found <;> cases h
      exact .inl rfl
  | bind span name value =>
    rcases bind_eq_raised_iff.1 h with h | ⟨v, m₁, _, h⟩
    · exact part .bindValue h
    · rcases bind_eq_raised_iff.1 h with h | ⟨_, m₂, _, h⟩
      · exact (change_ne_raised h).elim
      · cases h
  | rebind span name value =>
    rcases bind_eq_raised_iff.1 h with h | ⟨v, m₁, _, h⟩
    · exact part .rebindValue h
    · rcases bind_eq_raised_iff.1 h with h | ⟨_, m₂, _, h⟩
      · exact (change_ne_raised h).elim
      · cases h
  | unary span op operand =>
    rcases bind_eq_raised_iff.1 h with h | ⟨v, m₁, _, h⟩
    · exact part .operand h
    · cases hr : op.apply v <;> simp only [hr] at h <;> cases h
      exact .inl rfl
  | binary span op left right =>
    rcases bind_eq_raised_iff.1 h with h | ⟨v, m₁, hleft, h⟩
    · exact part .left h
    rcases bind_eq_raised_iff.1 h with h | ⟨w, m₂, _, h⟩
    · exact part (.right hleft) h
    cases hr : op.apply v w with
    | ok r =>
      simp only [hr] at h
      cases h
    | error fault => cases fault <;> simp only [hr] at h <;> cases h <;> exact .inl rfl
  | choice span condition body rest => exact part .choice h
  | forLoop span name first bound step body =>
    rcases bind_eq_raised_iff.1 h with h | ⟨x, m₁, hfirst, h⟩
    · exact part .loopFirst h
    rcases bind_eq_raised_iff.1 h with h | ⟨y, m₂, hbound, h⟩
    · exact part (.loopBound hfirst) h
    rcases bind_eq_raised_iff.1 h with h | ⟨z, m₃, hstep, h⟩
    · exact part (.loopStep hfirst hbound) h
    exact part (.loopRounds hfirst hbound hstep) h
  | whileLoop span condition body => exact part .whileRounds h
  | function span name params body =>
    rcases bind_eq_raised_iff.1 h with h | ⟨home, m₁, _, h⟩
    · exact (ask_ne_raised h).elim
    · cases name with
      | none => cases h
      | some name =>
        rcases bind_eq_raised_iff.1 h with h | ⟨_, m₂, _, h⟩
        · exact (change_ne_raised h).elim
        · cases h
  | call span callee args =>
    rcases bind_eq_raised_iff.1 h with h | ⟨v, m₁, hcallee, h⟩
    · exact part .callee h
    rcases bind_eq_raised_iff.1 h with h | ⟨vs, m₂, hargs, h⟩
    · exact part (.arguments hcallee) h
    cases v with
    | function f => exact part (.call hcallee hargs) h
    | builtin b => exact part (.builtin hcallee hargs) h
    | _ => exact .inl (calls_of_raise h)

theorem all {es : List Expr} (h : evalAll (n + 1) s.ctx es m = .raised failure m') :
    Explains ⟨n + 1, s, m, .all es⟩ failure := by
  cases es with
  | nil => cases h
  | cons e es =>
    rcases bind_eq_raised_iff.1 h with h | ⟨v, m₁, hhead, h⟩
    · exact part .head h
    rcases bind_eq_raised_iff.1 h with h | ⟨vs, m₂, _, h⟩
    · exact part (.tail hhead) h
    · cases h

theorem number {e : Expr} (h : evalNumber (n + 1) s.ctx e m = .raised failure m') :
    Explains ⟨n + 1, s, m, .number e⟩ failure := by
  rcases bind_eq_raised_iff.1 h with h | ⟨v, m₁, _, h⟩
  · exact part .number h
  · cases v <;> cases h <;> exact .inl rfl

theorem body {body : Body} (h : evalBody (n + 1) s.ctx body m = .raised failure m') :
    Explains ⟨n + 1, s, m, .body body⟩ failure := by
  cases body with
  | inline e => exact part .inline h
  | block span es =>
    rcases bind_eq_raised_iff.1 h with h | ⟨vs, m₁, _, h⟩
    · exact part .block h
    · cases h

theorem choice {condition : Expr} {body : Body} {rest : Branches}
    (h : choose (n + 1) s.ctx condition body rest m = .raised failure m') :
    Explains ⟨n + 1, s, m, .choice condition body rest⟩ failure := by
  rcases bind_eq_raised_iff.1 h with h | ⟨c, m₁, hcondition, h⟩
  · exact part .condition h
  by_cases hc : c.isTrue = true
  · rw [if_pos hc] at h
    exact part (.taken hcondition hc) h
  · rw [if_neg hc] at h
    cases rest with
    | nothing => cases h
    | elif condition body rest => exact part (.elif hcondition hc) h
    | otherwise body => exact part (.otherwise hcondition hc) h

theorem counting {name : String} {upwards : Bool} {bound step i : Float} {body : Body}
    {collected : List Value}
    (h : count (n + 1) s.ctx name upwards bound step body i collected m = .raised failure m') :
    Explains ⟨n + 1, s, m, .counting name upwards bound step body i collected⟩ failure := by
  rw [count_succ] at h
  by_cases hrange : inRange upwards i bound = true
  · rw [if_pos hrange] at h
    rcases bind_eq_raised_iff.1 h with h | ⟨_, m₁, hset, h⟩
    · exact (change_ne_raised h).elim
    rcases bind_eq_raised_iff.1 h with h | ⟨v, m₂, hbody, h⟩
    · exact part (.round hrange hset) h
    by_cases hblock : body.isBlock = true
    · rw [if_pos hblock] at h
      exact part (.nextBlock hrange hset hbody hblock) h
    · rw [if_neg hblock] at h
      exact part (.nextInline hrange hset hbody hblock) h
  · rw [if_neg hrange] at h
    cases h

theorem looping {condition : Expr} {body : Body} {collected : List Value}
    (h : rounds (n + 1) s.ctx condition body collected m = .raised failure m') :
    Explains ⟨n + 1, s, m, .looping condition body collected⟩ failure := by
  rcases bind_eq_raised_iff.1 h with h | ⟨c, m₁, hcondition, h⟩
  · exact part .loopCondition h
  by_cases hc : c.isTrue = true
  · rw [if_pos hc] at h
    rcases bind_eq_raised_iff.1 h with h | ⟨v, m₂, hbody, h⟩
    · exact part (.loopRound hcondition hc) h
    by_cases hblock : body.isBlock = true
    · rw [if_pos hblock] at h
      exact part (.loopBlock hcondition hc hbody hblock) h
    · rw [if_neg hblock] at h
      exact part (.loopInline hcondition hc hbody hblock) h
  · rw [if_neg hc] at h
    cases h

end Point.Explains

section

variable {ctx : Context} {name : String} {params : List String} {args : List Value} {span : Span}
  {parent : Option Nat} {body : Nat → Eval Value} {m m' m₁ m₂ : Machine} {i : Nat} {a : Arena}

/-- A call that is refused fails in the context of its caller, any other one in its frame. -/
theorem raised_of_calling
    (h : calling ctx name params args span parent body m = .raised failure m') :
    failure.calls = ctx.calls ∨ ∃ i a m₁ m₂, params.length = args.length ∧
      m.arena.push parent = .ok (i, a) ∧ setAll i (params.zip args) ⟨a, m.host⟩ = .value () m₁ ∧
      body i m₁ = .raised failure m₂ := by
  rcases bind_eq_raised_iff.1 h with h | ⟨u, m₁, harity, h⟩
  · exact .inl (calls_of_checkArity h)
  obtain ⟨hlength, hm⟩ := eq_of_checkArity harity
  rw [hm] at h
  rcases bind_eq_raised_iff.1 h with h | ⟨i, m₂, hchange, h⟩
  · exact (change_ne_raised h).elim
  obtain ⟨a, hpush, hm₂⟩ := push_of_change hchange
  rw [hm₂] at h
  rcases bind_eq_raised_iff.1 h with h | ⟨_, m₃, hset, h⟩
  · exact (setAll_ne_raised h).elim
  obtain ⟨m₄, b, hend, -⟩ := releasing_eq_raised h
  exact .inr ⟨i, a, m₃, m₄, hlength, hpush, hset, hend⟩

/-- A call fails as what is evaluated in its frame does, unless releasing the frame is a fault. -/
theorem calling_eq_raised (hlength : params.length = args.length)
    (hpush : m.arena.push parent = .ok (i, a))
    (hset : setAll i (params.zip args) ⟨a, m.host⟩ = .value () m₁)
    (hend : body i m₁ = .raised failure m₂)
    (hnofault : ∀ fault, calling ctx name params args span parent body m ≠ .faulted fault) :
    ∃ m', calling ctx name params args span parent body m = .raised failure m' := by
  have hchange : change (fun a => a.push parent) m = .value i ⟨a, m.host⟩ := by
    unfold change
    simp only [hpush]
  have hrun : calling ctx name params args span parent body m = releasing ctx.held i (body i) m₁ :=
    (bind_of_value (checkArity_eq hlength)).trans
      ((bind_of_value hchange).trans (bind_of_value hset))
  rw [hrun] at hnofault ⊢
  unfold releasing at hnofault ⊢
  simp only [hend] at hnofault ⊢
  cases hrelease : m₂.arena.release ctx.held i with
  | ok b => exact ⟨_, rfl⟩
  | error fault =>
    rw [hrelease] at hnofault
    exact absurd rfl (hnofault fault)

end

theorem Point.Explains.call {n : Nat} {s : Spot} {m m' : Machine} {f : Function}
    {args : List Value} {span : Span}
    (h : callFunction (n + 1) s.ctx f args span m = .raised failure m') :
    Explains ⟨n + 1, s, m, .call f args span⟩ failure := by
  rw [callFunction_succ] at h
  rcases raised_of_calling h with hcalls | ⟨i, a, m₁, m₂, hlength, hpush, hset, hend⟩
  · exact .inl hcalls
  · exact .part (.called hlength hpush hset) hend

theorem Point.Explains.builtin {n : Nat} {s : Spot} {m m' : Machine} {b : Builtin}
    {args : List Value} {span : Span} (h : callBuiltin s.ctx b args span m = .raised failure m') :
    Explains ⟨n, s, m, .builtin b args span⟩ failure := by
  rw [callBuiltin_eq] at h
  rcases raised_of_calling h with hcalls | ⟨i, a, m₁, m₂, hlength, hpush, hset, hend⟩
  · exact .inl hcalls
  · exact .part (.calledBuiltin hlength hpush hset) hend

/-- An evaluation that fails does so in its own context, or a part of it fails. -/
theorem Point.Fails.explains (h : q.Fails failure) : q.Explains failure := by
  obtain ⟨n, s, m, t⟩ := q
  obtain ⟨m', h⟩ := h
  cases n with
  | zero =>
    cases t with
    | builtin b args span => exact .builtin h
    | running b span => exact .inl (calls_of_runBuiltin h)
    | binding args => exact (setAll_ne_raised h).elim
    | _ => cases h
  | succ n =>
    cases t with
    | expr e => exact .expr h
    | all es => exact .all h
    | number e => exact .number h
    | step e =>
      cases e with
      | none => cases h
      | some e => exact .part .givenStep h
    | body body => exact .body h
    | branch body =>
      rcases bind_eq_raised_iff.1 h with h | ⟨v, m₁, _, h⟩
      · exact .part .branch h
      · cases h
    | choice condition body rest => exact .choice h
    | counting name upwards bound step body i collected => exact .counting h
    | looping condition body collected => exact .looping h
    | call f args span => exact .call h
    | builtin b args span => exact .builtin h
    | running b span => exact .inl (calls_of_runBuiltin h)
    | binding args => exact (setAll_ne_raised h).elim

/-- A failure that no part explains happens in the context of the point. -/
theorem Point.FailsAlone.calls (h : q.FailsAlone failure) : failure.calls = q.spot.ctx.calls := by
  rcases h.fails.explains with hcalls | ⟨r, hstep, hr⟩
  · exact hcalls
  · exact absurd hr (h.parts r failure hstep)

/-! ## From parts to what they are parts of -/

/-- Twice the bound on the depth, and one more in front of a call of a built-in function, which the
bound does not count. -/
def Point.size (q : Point) : Nat :=
  2 * q.fuel + match q.task with
    | .builtin _ _ _ => 1
    | _ => 0

namespace Visits

/-- If a part fails, what it is a part of fails in the same way. -/
theorem fails (h : Visits q r) (inv : q.Invariant) (hr : r.Fails failure) : q.Fails failure := by
  have hnofault := inv.secure.faulted
  obtain ⟨m', hr⟩ := hr
  cases h with
  | elements => exact ⟨m', bind_of_raised hr⟩
  | bindValue => exact ⟨m', bind_of_raised hr⟩
  | rebindValue => exact ⟨m', bind_of_raised hr⟩
  | operand => exact ⟨m', bind_of_raised hr⟩
  | left => exact ⟨m', bind_of_raised hr⟩
  | right hleft => exact ⟨m', (bind_of_value hleft).trans (bind_of_raised hr)⟩
  | choice => exact ⟨m', hr⟩
  | loopFirst => exact ⟨m', bind_of_raised hr⟩
  | loopBound hfirst => exact ⟨m', (bind_of_value hfirst).trans (bind_of_raised hr)⟩
  | loopStep hfirst hbound =>
    exact ⟨m', (bind_of_value hfirst).trans ((bind_of_value hbound).trans (bind_of_raised hr))⟩
  | loopRounds hfirst hbound hstep =>
    exact ⟨m', (bind_of_value hfirst).trans ((bind_of_value hbound).trans
      ((bind_of_value hstep).trans hr))⟩
  | whileRounds => exact ⟨m', hr⟩
  | callee => exact ⟨m', bind_of_raised hr⟩
  | arguments hcallee => exact ⟨m', (bind_of_value hcallee).trans (bind_of_raised hr)⟩
  | call hcallee hargs =>
    exact ⟨m', (bind_of_value hcallee).trans ((bind_of_value hargs).trans hr)⟩
  | builtin hcallee hargs =>
    exact ⟨m', (bind_of_value hcallee).trans ((bind_of_value hargs).trans hr)⟩
  | head => exact ⟨m', bind_of_raised hr⟩
  | tail hhead => exact ⟨m', (bind_of_value hhead).trans (bind_of_raised hr)⟩
  | number => exact ⟨m', bind_of_raised hr⟩
  | givenStep => exact ⟨m', hr⟩
  | inline => exact ⟨m', hr⟩
  | block => exact ⟨m', bind_of_raised hr⟩
  | branch => exact ⟨m', bind_of_raised hr⟩
  | condition => exact ⟨m', bind_of_raised hr⟩
  | taken hcondition hc =>
    refine ⟨m', (bind_of_value hcondition).trans ?_⟩
    rw [if_pos hc]
    exact hr
  | elif hcondition hc =>
    refine ⟨m', (bind_of_value hcondition).trans ?_⟩
    rw [if_neg hc]
    exact hr
  | otherwise hcondition hc =>
    refine ⟨m', (bind_of_value hcondition).trans ?_⟩
    rw [if_neg hc]
    exact hr
  | round hrange hset =>
    refine ⟨m', ?_⟩
    show count _ _ _ _ _ _ _ _ _ _ = _
    rw [count_succ, if_pos hrange]
    exact (bind_of_value hset).trans (bind_of_raised hr)
  | nextBlock hrange hset hbody hblock =>
    refine ⟨m', ?_⟩
    show count _ _ _ _ _ _ _ _ _ _ = _
    rw [count_succ, if_pos hrange]
    refine (bind_of_value hset).trans ((bind_of_value hbody).trans ?_)
    rw [if_pos hblock]
    exact hr
  | nextInline hrange hset hbody hblock =>
    refine ⟨m', ?_⟩
    show count _ _ _ _ _ _ _ _ _ _ = _
    rw [count_succ, if_pos hrange]
    refine (bind_of_value hset).trans ((bind_of_value hbody).trans ?_)
    rw [if_neg hblock]
    exact hr
  | loopCondition => exact ⟨m', bind_of_raised hr⟩
  | loopRound hcondition hc =>
    refine ⟨m', (bind_of_value hcondition).trans ?_⟩
    rw [if_pos hc]
    exact bind_of_raised hr
  | loopBlock hcondition hc hbody hblock =>
    refine ⟨m', (bind_of_value hcondition).trans ?_⟩
    rw [if_pos hc]
    refine (bind_of_value hbody).trans ?_
    rw [if_pos hblock]
    exact hr
  | loopInline hcondition hc hbody hblock =>
    refine ⟨m', (bind_of_value hcondition).trans ?_⟩
    rw [if_pos hc]
    refine (bind_of_value hbody).trans ?_
    rw [if_neg hblock]
    exact hr
  | entered _ _ => exact (setAll_ne_raised hr).elim
  | called hlength hpush hset => exact calling_eq_raised hlength hpush hset hr hnofault
  | enteredBuiltin _ _ => exact (setAll_ne_raised hr).elim
  | calledBuiltin hlength hpush hset => exact calling_eq_raised hlength hpush hset hr hnofault
  | nextArgument _ => exact (setAll_ne_raised hr).elim

/-- Parts that fail are smaller. -/
theorem size_lt (h : Visits q r) (hr : r.Fails failure) : r.size < q.size := by
  obtain ⟨m', hr⟩ := hr
  cases h with
  | entered _ _ => exact (setAll_ne_raised hr).elim
  | enteredBuiltin _ _ => exact (setAll_ne_raised hr).elim
  | nextArgument _ => exact (setAll_ne_raised hr).elim
  | _ =>
    simp only [Point.size]
    omega

end Visits

/-- What fails somewhere fails from the start. -/
theorem fails_of_reaches (inv : p.Invariant) (h : Relation.ReflTransGen Visits p q)
    (hq : q.Fails failure) : p.Fails failure := by
  induction h with
  | refl => exact hq
  | tail hreach hstep ih => exact ih (hstep.fails (invariant_of_reaches inv hreach) hq)

/-- An evaluation that fails comes to a point where it does so of its own accord. -/
theorem exists_failsAlone {p : Point} {failure : RuntimeFailure} (inv : p.Invariant)
    (h : p.Fails failure) :
    ∃ q, Relation.ReflTransGen Visits p q ∧ q.FailsAlone failure := by
  by_cases hparts : ∃ r failure', Visits p r ∧ r.Fails failure'
  · obtain ⟨r, failure', hstep, hr⟩ := hparts
    obtain rfl := h.unique (hstep.fails inv hr)
    have hlt := hstep.size_lt hr
    obtain ⟨q, hreach, hq⟩ := exists_failsAlone (hstep.invariant inv) hr
    exact ⟨q, .head hstep hreach, hq⟩
  · exact ⟨p, .refl, h, fun r failure' hstep hr => hparts ⟨r, failure', hstep, hr⟩⟩
termination_by p.size

/-! ## Active calls -/

/-- A call that has been entered: the part of a program that calls, and what it calls. -/
structure ActiveCall where
  /-- The expression. -/
  node : Expr
  /-- The function, or the built-in function. -/
  called : Function ⊕ Builtin

/-- The name that is shown for a call. -/
def ActiveCall.name (c : ActiveCall) : String := c.called.elim Function.shownName Builtin.name

/-- What a context keeps of a call. -/
def ActiveCall.activation (c : ActiveCall) : Activation := ⟨c.name, some c.node.span.start⟩

/-- The task is a call, of which the arguments have been evaluated. -/
def Task.IsCall : Task → Prop
  | call _ _ _ => True
  | builtin _ _ _ => True
  | _ => False

/-- Evaluation comes from one point to another, and enters calls on the way that it does not leave,
the innermost first.  A call is entered from an expression that calls, when what it calls and the
arguments have been evaluated; one that is refused is not. -/
inductive ComesIn (p : Point) : List ActiveCall → Point → Prop where
  | here : ComesIn p [] p
  | part {calls q r} (h : ComesIn p calls q) (hcall : ¬ q.task.IsCall) (hstep : Visits q r) :
    ComesIn p calls r
  | function {calls n s m m₁ m₂ span callee args f vs r}
    (h : ComesIn p calls ⟨n + 1, s, m, .expr (.call span callee args)⟩)
    (hcallee : eval n s.ctx callee m = .value (.function f) m₁)
    (hargs : evalAll n (s.holding (.function f)).ctx args m₁ = .value vs m₂)
    (hstep : Visits ⟨n, s.holding (.function f), m₂, .call f vs span⟩ r) :
    ComesIn p (⟨.call span callee args, .inl f⟩ :: calls) r
  | builtin {calls n s m m₁ m₂ span callee args b vs r}
    (h : ComesIn p calls ⟨n + 1, s, m, .expr (.call span callee args)⟩)
    (hcallee : eval n s.ctx callee m = .value (.builtin b) m₁)
    (hargs : evalAll n (s.holding (.builtin b)).ctx args m₁ = .value vs m₂)
    (hstep : Visits ⟨n, s.holding (.builtin b), m₂, .builtin b vs span⟩ r) :
    ComesIn p (⟨.call span callee args, .inr b⟩ :: calls) r

namespace ComesIn

variable {calls : List ActiveCall}

theorem reaches (h : ComesIn p calls q) : Relation.ReflTransGen Visits p q := by
  induction h with
  | here => exact .refl
  | part _ _ hstep ih => exact ih.tail hstep
  | function _ hcallee hargs hstep ih => exact (ih.tail (.call hcallee hargs)).tail hstep
  | builtin _ hcallee hargs hstep ih => exact (ih.tail (.builtin hcallee hargs)).tail hstep

/-- The context of a point knows the calls entered on the way there. -/
theorem calls_eq (h : ComesIn p calls q) :
    q.spot.ctx.calls = calls.map ActiveCall.activation ++ p.spot.ctx.calls := by
  induction h with
  | here => rfl
  | part _ hcall hstep ih =>
    rw [← ih]
    cases hstep with
    | entered _ _ => exact absurd trivial hcall
    | called _ _ _ => exact absurd trivial hcall
    | enteredBuiltin _ _ => exact absurd trivial hcall
    | calledBuiltin _ _ _ => exact absurd trivial hcall
    | _ => rfl
  | function _ _ _ hstep ih =>
    cases hstep <;> exact congrArg (List.cons _) ih
  | builtin _ _ _ hstep ih =>
    cases hstep <;> exact congrArg (List.cons _) ih

end ComesIn

/-- Whatever point an evaluation comes to, it does so in some calls; and the point of a call is one
behind that of an expression that calls. -/
theorem exists_comesIn (hp : ¬ p.task.IsCall) (h : Relation.ReflTransGen Visits p q) :
    ∃ calls, ComesIn p calls q ∧ ∀ r, q.task.IsCall → Visits q r →
      ∃ call, ComesIn p (call :: calls) r := by
  induction h with
  | refl => exact ⟨[], .here, fun r hcall => absurd hcall hp⟩
  | @tail q r hreach hstep ih =>
    obtain ⟨calls, hq, hentered⟩ := ih
    by_cases hcall : q.task.IsCall
    · obtain ⟨call, hr⟩ := hentered r hcall hstep
      refine ⟨call :: calls, hr, fun t hrcall => ?_⟩
      -- behind a call there is what it evaluates in its frame, and no other call
      cases hstep <;> first | exact hrcall.elim | exact hcall.elim
    · refine ⟨calls, .part hq hcall hstep, fun t hrcall hnext => ?_⟩
      cases hstep with
      | call hcallee hargs => exact ⟨_, .function hq hcallee hargs hnext⟩
      | builtin hcallee hargs => exact ⟨_, .builtin hq hcallee hargs hnext⟩
      | _ => exact hrcall.elim

end UniformScript.Eval
