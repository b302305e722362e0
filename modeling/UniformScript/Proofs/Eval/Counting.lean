import Mathlib.Order.Bounds.Defs
import UniformScript.Proofs.Arena.Effects
import UniformScript.Proofs.Eval.Depth

/-!
# Counting loops

A counting loop goes over a range of numbers that is fixed once its start, bound and step are
evaluated.  Each round begins by binding the variable to the next number, whatever the rounds
before it did to the variable, and to the names that the bound and the step were read from.

* `Ends`: how an evaluation ends, within a bound on its depth that is large enough, and
  `ends_bind_iff`: one such evaluation after the other.
* `counter`, `GoesOn`: the numbers that a loop counts through, and how far it goes.
* `Rounds`: rounds of a loop, one after the other.
* `ends_count_iff`: behind some rounds, the loop goes on with those that are left.
* `stops_of_count`: however the loop ends, it has done some rounds before, and has come to the end
  of its numbers or fails in the next round.
* `counts_over`: a counting loop does these rounds, and no others.
-/

namespace UniformScript.Eval

variable {α β : Type} {m m' m₁ m₂ m₃ : Machine} {failure : RuntimeFailure}

/-! ## Evaluation within some bound -/

/-- Within some bound on its depth, evaluation ends so. -/
structure Ends (p : Nat → Eval α) (m : Machine) (o : Outcome α) : Prop where
  ne_exhausted : o ≠ .exhausted
  within : ∃ n, p n m = o

/-- Where an evaluation does not meet a bound on the depth, a larger one changes nothing. -/
def Rising (p : Nat → Eval α) : Prop := ∀ ⦃n n'⦄, n ≤ n' → Below (p n) (p n')

theorem rising_run (t : Task) (ctx : Context) : Rising fun n => t.run n ctx :=
  fun _ _ h => below_run h t ctx

theorem rising_const (q : Eval α) : Rising fun _ => q := fun _ _ _ => .refl q

theorem Rising.bind {p : Nat → Eval α} {f : α → Nat → Eval β} (hp : Rising p)
    (hf : ∀ a, Rising (f a)) : Rising fun n => p n >>= fun a => f a n :=
  fun _ _ h => (hp h).bind fun a => hf a h

section

variable {p : Nat → Eval α} {f : α → Nat → Eval β} {a : α} {o : Outcome α} {b : Outcome β}

theorem Ends.of_value {n : Nat} (h : p n m = .value a m') : Ends p m (.value a m') :=
  ⟨nofun, n, h⟩

theorem Ends.of_raised {n : Nat} (h : p n m = .raised failure m') :
    Ends p m (.raised failure m') :=
  ⟨nofun, n, h⟩

/-- All larger bounds do. -/
theorem Ends.eventually (h : Ends p m o) (hp : Rising p) : ∃ n, ∀ n' ≥ n, p n' m = o := by
  obtain ⟨n, hn⟩ := h.within
  refine ⟨n, fun n' hle => ?_⟩
  rw [hp hle m (hn ▸ h.ne_exhausted), hn]

/-- One more step in depth is within some bound as well. -/
theorem ends_succ_iff (hp : Rising p) : Ends (fun n => p (n + 1)) m o ↔ Ends p m o := by
  constructor
  · rintro ⟨hne, n, hn⟩
    exact ⟨hne, n + 1, hn⟩
  · intro h
    obtain ⟨n, hn⟩ := h.eventually hp
    exact ⟨h.ne_exhausted, n, hn (n + 1) (Nat.le_succ n)⟩

/-- Behind an evaluation that ends with a value, another one goes on. -/
theorem ends_bind_iff (hp : Rising p) (hf : ∀ a, Rising (f a)) (h : Ends p m (.value a m₁)) :
    Ends (fun n => p n >>= fun a => f a n) m b ↔ Ends (f a) m₁ b := by
  obtain ⟨n₁, hn₁⟩ := h.eventually hp
  constructor
  · intro hb
    obtain ⟨n₂, hn₂⟩ := hb.eventually (hp.bind hf)
    refine ⟨hb.ne_exhausted, max n₁ n₂, ?_⟩
    rw [← hn₂ _ (Nat.le_max_right n₁ n₂), bind_of_value (hn₁ _ (Nat.le_max_left n₁ n₂))]
  · intro hb
    obtain ⟨n₂, hn₂⟩ := hb.eventually (hf a)
    refine ⟨hb.ne_exhausted, max n₁ n₂, ?_⟩
    rw [bind_of_value (hn₁ _ (Nat.le_max_left n₁ n₂)), hn₂ _ (Nat.le_max_right n₁ n₂)]

end

/-! ## The numbers a loop counts through -/

/-- The number with which a loop from `s` on, in steps of `d`, begins round `k`. -/
def counter (s d : Float) : Nat → Float
  | 0 => s
  | k + 1 => counter s d k + d

/-- Whether a loop from `s` on goes on at `x`: it goes upwards if it starts at zero or above. -/
def GoesOn (s e x : Float) : Prop := if 0 ≤ s then x < e else x > e

theorem inRange_iff {s e x : Float} : inRange (0 ≤ s) x e = true ↔ GoesOn s e x := by
  unfold inRange GoesOn
  by_cases hs : 0 ≤ s
  · simp [hs]
  · simp [hs]

/-! ## Rounds -/

/-- A round begins: in the frame, the variable is bound to the number. -/
structure Begins (frame : Nat) (name : String) (x : Float) (m m₁ : Machine) : Prop where
  set : Eval.set frame name (.number x) m = .value () m₁
  get : m₁.arena.get frame name = .ok (some (.number x))

/-- A round begins wherever there is such a frame. -/
theorem begins_or_faults (frame : Nat) (name : String) (x : Float) (m : Machine) :
    (∃ m₁, Begins frame name x m m₁) ∨
      ∃ fault, Eval.set frame name (.number x) m = .faulted fault := by
  cases hset : m.arena.set frame name (.number x) with
  | ok b => exact .inl ⟨⟨b, m.host⟩, by simp [Eval.set, change, hset], Arena.get_of_set hset⟩
  | error fault => exact .inr ⟨fault, by simp [Eval.set, change, hset]⟩

/-- The context behind a round: the value of an expression is under way until the loop ends. -/
def Context.after (body : Body) (ctx : Context) (v : Value) : Context :=
  if body.isBlock then ctx else ctx.holding v

/-- Rounds one after the other, from round `k` on, and the values of the body in them.  Round `k`
begins with the number `x k`. -/
inductive Rounds (name : String) (body : Body) (x : Nat → Float) :
    Context → Nat → Machine → List Value → Machine → Prop where
  /-- No rounds change nothing. -/
  | nil (ctx : Context) (k : Nat) (m : Machine) : Rounds name body x ctx k m [] m
  /-- A round, and those behind it. -/
  | cons {ctx : Context} {k : Nat} {m m₁ m₂ m' : Machine} {v : Value} {vs : List Value}
    (begins : Begins ctx.frame name (x k) m m₁)
    (ends : Ends (evalBody · ctx body) m₁ (.value v m₂))
    (rest : Rounds name body x (ctx.after body v) (k + 1) m₂ vs m') :
    Rounds name body x ctx k m (v :: vs) m'

section

variable {name : String} {body : Body} {ctx : Context} {s e d i : Float} {upwards : Bool}
  {k n : Nat} {v : Value} {vs collected collected' : List Value} {o : Outcome Value}

/-- What is collected makes no difference where the body is a block. -/
theorem count_of_isBlock (h : body.isBlock = true) :
    count n ctx name upwards e d body i collected =
      count n ctx name upwards e d body i collected' := by
  induction n generalizing i with
  | zero => rfl
  | succ n ih =>
    have hend : loopValue body collected = loopValue body collected' := by
      unfold loopValue
      rw [if_pos h, if_pos h]
    simp only [count_succ, h, if_true, ih (i := i + d), hend]

/-- A round of a counting loop, whether it has a value or not. -/
theorem count_round (h : inRange upwards i e = true) :
    count (n + 1) ctx name upwards e d body i collected = (do
      set ctx.frame name (.number i)
      let v ← evalBody n ctx body
      count n (ctx.after body v) name upwards e d body (i + d) (v :: collected)) := by
  rw [count_succ, if_pos h]
  unfold Context.after
  by_cases hblock : body.isBlock = true
  · simp only [hblock, if_true]
    congr 1
    funext _
    congr 1
    funext v
    exact count_of_isBlock hblock
  · simp only [hblock]
    rfl

theorem count_end (h : ¬ inRange upwards i e = true) :
    count (n + 1) ctx name upwards e d body i collected =
      Pure.pure (loopValue body collected) := by
  rw [count_succ, if_neg h]

theorem rising_count (ctx : Context) (name : String) (upwards : Bool) (e d : Float) (body : Body)
    (i : Float) (collected : List Value) :
    Rising (count · ctx name upwards e d body i collected) :=
  rising_run (.counting name upwards e d body i collected) ctx

/-- What is left of a loop within a round, once the variable is bound. -/
def inRound (ctx : Context) (name : String) (s e d : Float) (body : Body) (k : Nat)
    (collected : List Value) (n : Nat) : Eval Value := do
  let v ← evalBody n ctx body
  count n (ctx.after body v) name (0 ≤ s) e d body (counter s d (k + 1)) (v :: collected)

theorem rising_inRound (ctx : Context) (name : String) (s e d : Float) (body : Body) (k : Nat)
    (collected : List Value) : Rising (inRound ctx name s e d body k collected) :=
  (rising_run (.body body) ctx).bind fun _ => rising_count ..

theorem ends_round_iff (hgo : GoesOn s e (counter s d k))
    (h : Begins ctx.frame name (counter s d k) m m₁) :
    Ends (count · ctx name (0 ≤ s) e d body (counter s d k) collected) m o ↔
      Ends (inRound ctx name s e d body k collected) m₁ o := by
  have hset : Ends (fun _ => set ctx.frame name (.number (counter s d k))) m (.value () m₁) :=
    .of_value (n := 0) h.set
  rw [← ends_succ_iff (rising_count ..)]
  simp only [count_round (inRange_iff.2 hgo)]
  exact ends_bind_iff (rising_const _) (fun _ => rising_inRound ..) hset

/-- Behind some rounds, the loop goes on with those that are left. -/
theorem ends_count_iff (h : Rounds name body (counter s d) ctx k m vs m₁)
    (hgo : ∀ j < vs.length, GoesOn s e (counter s d (k + j))) :
    Ends (count · ctx name (0 ≤ s) e d body (counter s d k) collected) m o ↔
      Ends (count · (vs.foldl (Context.after body) ctx) name (0 ≤ s) e d body
        (counter s d (k + vs.length)) (vs.reverse ++ collected)) m₁ o := by
  induction h generalizing collected with
  | nil ctx k m => exact .rfl
  | @cons ctx k m m₁ m₂ m' v vs hbegins hbody hrounds ih =>
    have hk : GoesOn s e (counter s d k) := hgo 0 (Nat.succ_pos _)
    have hrest : ∀ j < vs.length, GoesOn s e (counter s d (k + 1 + j)) := by
      intro j hj
      rw [Nat.succ_add_eq_add_succ]
      exact hgo (j + 1) (Nat.succ_lt_succ hj)
    rw [ends_round_iff hk hbegins]
    unfold inRound
    rw [ends_bind_iff (p := (evalBody · ctx body)) (rising_run (.body body) ctx)
      (fun _ => rising_count ..) hbody, ih hrest, List.foldl_cons, List.length_cons,
      Nat.succ_add_eq_add_succ, List.reverse_cons, List.append_assoc, List.singleton_append]

/-- How a loop ends where round `k` would begin: with its value, as the numbers have come to an
end, or as the body fails in that round. -/
inductive StopsAt (name : String) (s e d : Float) (body : Body) (ctx : Context) (k : Nat)
    (collected : List Value) (m : Machine) : Outcome Value → Prop where
  | finished (hend : ¬ GoesOn s e (counter s d k)) :
    StopsAt name s e d body ctx k collected m (.value (loopValue body collected) m)
  | failed {m₁ m' : Machine} {failure : RuntimeFailure} (hgo : GoesOn s e (counter s d k))
    (begins : Begins ctx.frame name (counter s d k) m m₁)
    (ends : Ends (evalBody · ctx body) m₁ (.raised failure m')) :
    StopsAt name s e d body ctx k collected m (.raised failure m')
  | faulted (fault : Fault) : StopsAt name s e d body ctx k collected m (.faulted fault)

/-- A loop that has come to round `k` does some rounds and ends behind them. -/
def Stops (name : String) (s e d : Float) (body : Body) (ctx : Context) (k : Nat)
    (collected : List Value) (m : Machine) (o : Outcome Value) : Prop :=
  ∃ vs m₁, Rounds name body (counter s d) ctx k m vs m₁ ∧
    (∀ j < vs.length, GoesOn s e (counter s d (k + j))) ∧
    StopsAt name s e d body (vs.foldl (Context.after body) ctx) (k + vs.length)
      (vs.reverse ++ collected) m₁ o

theorem StopsAt.stops (h : StopsAt name s e d body ctx k collected m o) :
    Stops name s e d body ctx k collected m o :=
  ⟨[], m, .nil ctx k m, nofun, h⟩

/-- A round, and the rounds behind it. -/
theorem Stops.cons (hgo : GoesOn s e (counter s d k))
    (hbegins : Begins ctx.frame name (counter s d k) m m₁)
    (hbody : Ends (evalBody · ctx body) m₁ (.value v m₂))
    (h : Stops name s e d body (ctx.after body v) (k + 1) (v :: collected) m₂ o) :
    Stops name s e d body ctx k collected m o := by
  obtain ⟨vs, m₃, hrounds, hlt, hstop⟩ := h
  refine ⟨v :: vs, m₃, .cons hbegins hbody hrounds, ?_, ?_⟩
  · rintro (_ | j) hj
    · exact hgo
    · rw [← Nat.succ_add_eq_add_succ]
      exact hlt j (Nat.lt_of_succ_lt_succ hj)
  · rw [List.length_cons, ← Nat.succ_add_eq_add_succ, List.reverse_cons, List.append_assoc,
      List.singleton_append]
    exact hstop

/-- However a loop ends, it has done some rounds before. -/
theorem stops_of_count (n : Nat) (hne : o ≠ .exhausted)
    (h : count n ctx name (0 ≤ s) e d body (counter s d k) collected m = o) :
    Stops name s e d body ctx k collected m o := by
  induction n generalizing ctx k m collected with
  | zero => exact absurd h.symm hne
  | succ n ih =>
    by_cases hgo : GoesOn s e (counter s d k)
    · rw [count_round (inRange_iff.2 hgo)] at h
      obtain ⟨m₁, hbegins⟩ | ⟨fault, hfault⟩ :=
        begins_or_faults ctx.frame name (counter s d k) m
      · rw [bind_of_value hbegins.set] at h
        cases hbody : evalBody n ctx body m₁ with
        | value v m₂ =>
          rw [bind_of_value hbody] at h
          exact .cons hgo hbegins (.of_value hbody) (ih (k := k + 1) h)
        | raised failure m₂ =>
          rw [bind_of_raised hbody] at h
          subst h
          exact (StopsAt.failed hgo hbegins (.of_raised hbody)).stops
        | faulted fault =>
          rw [bind_of_faulted hbody] at h
          subst h
          exact (StopsAt.faulted fault).stops
        | exhausted =>
          rw [bind_of_exhausted hbody] at h
          exact absurd h.symm hne
      · rw [bind_of_faulted hfault] at h
        subst h
        exact (StopsAt.faulted fault).stops
    · rw [count_end fun h' => hgo (inRange_iff.1 h')] at h
      obtain rfl : .value (loopValue body collected) m = o := h
      exact (StopsAt.finished hgo).stops

end

/-! ## The loop -/

/-- The step of a loop is evaluated to a number; one that is left out is one. -/
def StepEnds (ctx : Context) (step : Option Expr) (m : Machine) (d : Float)
    (m' : Machine) : Prop :=
  match step with
  | none => d = 1 ∧ m' = m
  | some e => Ends (eval · ctx e) m (.value (.number d) m')

section

variable {span : Span} {name : String} {first bound e : Expr} {step : Option Expr} {body : Body}
  {ctx : Context} {s b d x : Float} {o : Outcome Value}

theorem ends_evalNumber (h : Ends (eval · ctx e) m (.value (.number x) m')) :
    Ends (evalNumber · ctx e) m (.value x m') := by
  obtain ⟨n, hn⟩ := h.within
  refine .of_value (n := n + 1) ?_
  rw [evalNumber_succ, bind_of_value hn]
  rfl

theorem ends_evalStep (h : StepEnds ctx step m d m') :
    Ends (evalStep · ctx step) m (.value d m') := by
  cases step with
  | none =>
    obtain ⟨rfl, rfl⟩ := h
    exact .of_value (n := 1) rfl
  | some e =>
    obtain ⟨n, hn⟩ := (ends_evalNumber h).within
    exact .of_value (n := n + 1) hn

/-- Once the start, the bound and the step are evaluated, in this order, the loop is what its
rounds are. -/
theorem ends_forLoop_iff (hfirst : Ends (eval · ctx first) m (.value (.number s) m₁))
    (hbound : Ends (eval · ctx bound) m₁ (.value (.number b) m₂))
    (hstep : StepEnds ctx step m₂ d m₃) :
    Ends (eval · ctx (.forLoop span name first bound step body)) m o ↔
      Ends (count · ctx name (0 ≤ s) b d body s []) m₃ o := by
  have hnumber (e : Expr) : Rising (evalNumber · ctx e) := rising_run (.number e) ctx
  have hstepped : Rising (evalStep · ctx step) := rising_run (.step step) ctx
  have hcount (x y z : Float) : Rising (count · ctx name (0 ≤ x) y z body x []) := rising_count ..
  have heval : Rising (eval · ctx (.forLoop span name first bound step body)) :=
    rising_run (.expr (.forLoop span name first bound step body)) ctx
  rw [← ends_succ_iff heval]
  simp only [eval_forLoop]
  have hrest (x y : Float) := hstepped.bind (hcount x y)
  rw [ends_bind_iff (hnumber first) (fun x => (hnumber bound).bind (hrest x))
      (ends_evalNumber hfirst),
    ends_bind_iff (hnumber bound) (hrest s) (ends_evalNumber hbound),
    ends_bind_iff hstepped (hcount s b) (ends_evalStep hstep)]

theorem frame_foldl_after (body : Body) (ctx : Context) (vs : List Value) :
    (vs.foldl (Context.after body) ctx).frame = ctx.frame := by
  induction vs generalizing ctx with
  | nil => rfl
  | cons v vs ih =>
    rw [List.foldl_cons, ih]
    unfold Context.after
    split <;> rfl

theorem loopValue_reverse (body : Body) (vs : List Value) :
    loopValue body (vs.reverse ++ []) = if body.isBlock then .number 0 else .list vs := by
  unfold loopValue
  rw [List.append_nil, List.reverse_reverse]
  rfl

/-- The rounds that a loop does until it stops at its end are as many as its numbers. -/
theorem isLeast_of_end {k : Nat} (hgo : ∀ j < k, GoesOn s b (counter s d j))
    (hend : ¬ GoesOn s b (counter s d k)) : IsLeast {j | ¬ GoesOn s b (counter s d j)} k :=
  ⟨hend, fun j hj => Nat.le_of_not_lt fun hlt => hj (hgo j hlt)⟩

theorem goesOn_of_isLeast {k : Nat} (h : IsLeast {j | ¬ GoesOn s b (counter s d j)} k) {j : Nat}
    (hj : j < k) : GoesOn s b (counter s d j) :=
  Classical.not_not.1 fun hnot => Nat.not_le_of_lt hj (h.2 hnot)

/-- The loop ends with a value behind the rounds up to the first number at which it does not go on.
-/
theorem ends_count_value_iff {v : Value} :
    Ends (count · ctx name (0 ≤ s) b d body s []) m (.value v m') ↔
      ∃ vs, IsLeast {k | ¬ GoesOn s b (counter s d k)} vs.length ∧
        Rounds name body (counter s d) ctx 0 m vs m' ∧
        v = if body.isBlock then .number 0 else .list vs := by
  constructor
  · rintro ⟨hne, n, h⟩
    obtain ⟨vs, m₁, hrounds, hgo, hstop⟩ := stops_of_count (k := 0) n hne h
    simp only [Nat.zero_add] at hgo hstop
    cases hstop with
    | finished hend => exact ⟨vs, isLeast_of_end hgo hend, hrounds, loopValue_reverse body vs⟩
  · rintro ⟨vs, hleast, hrounds, rfl⟩
    have hgo : ∀ j < vs.length, GoesOn s b (counter s d (0 + j)) := by
      intro j hj
      rw [Nat.zero_add]
      exact goesOn_of_isLeast hleast hj
    refine (ends_count_iff hrounds hgo).2 ?_
    rw [Nat.zero_add, ← loopValue_reverse]
    refine .of_value (n := 1) ?_
    rw [count_end fun h => hleast.1 (inRange_iff.1 h)]
    rfl

/-- The loop fails behind the rounds before the one in which the body fails. -/
theorem ends_count_raised_iff :
    Ends (count · ctx name (0 ≤ s) b d body s []) m (.raised failure m') ↔
      ∃ vs m₁ m₂, (∀ k ≤ vs.length, GoesOn s b (counter s d k)) ∧
        Rounds name body (counter s d) ctx 0 m vs m₁ ∧
        Begins ctx.frame name (counter s d vs.length) m₁ m₂ ∧
        Ends (evalBody · (vs.foldl (Context.after body) ctx) body) m₂ (.raised failure m') := by
  constructor
  · rintro ⟨hne, n, h⟩
    obtain ⟨vs, m₁, hrounds, hgo, hstop⟩ := stops_of_count (k := 0) n hne h
    simp only [Nat.zero_add] at hgo hstop
    cases hstop with
    | @failed m₂ _ _ hlast hbegins hbody =>
      rw [frame_foldl_after] at hbegins
      refine ⟨vs, m₁, m₂, fun k hk => ?_, hrounds, hbegins, hbody⟩
      rcases Nat.lt_or_eq_of_le hk with hlt | rfl
      · exact hgo k hlt
      · exact hlast
  · rintro ⟨vs, m₁, m₂, hgo, hrounds, hbegins, hbody⟩
    have hgo' : ∀ j < vs.length, GoesOn s b (counter s d (0 + j)) := by
      intro j hj
      rw [Nat.zero_add]
      exact hgo j (Nat.le_of_lt hj)
    refine (ends_count_iff hrounds hgo').2 ?_
    rw [Nat.zero_add]
    rw [← frame_foldl_after body ctx vs] at hbegins
    rw [ends_round_iff (hgo _ (Nat.le_refl _)) hbegins]
    obtain ⟨n, hn⟩ := hbody.within
    exact .of_raised (bind_of_raised hn)

/-- A counting loop goes over a range that is fixed when it is entered.  Its start, its bound and
its step are evaluated to the numbers `s`, `b` and `d`, and then it ends with a value just if its
rounds do, as many as there are numbers up to the first one at which it does not go on, and each
begins with the variable bound to its number.  It fails just if the body fails in a round, behind
those before it.  Where it does not go on at its start, nothing is bound, and where it always goes
on, there is no value. -/
theorem counts_over (hfirst : Ends (eval · ctx first) m (.value (.number s) m₁))
    (hbound : Ends (eval · ctx bound) m₁ (.value (.number b) m₂))
    (hstep : StepEnds ctx step m₂ d m₃) :
    (∀ v m', Ends (eval · ctx (.forLoop span name first bound step body)) m (.value v m') ↔
      ∃ vs, IsLeast {k | ¬ GoesOn s b (counter s d k)} vs.length ∧
        Rounds name body (counter s d) ctx 0 m₃ vs m' ∧
        v = if body.isBlock then .number 0 else .list vs) ∧
    (∀ failure m',
      Ends (eval · ctx (.forLoop span name first bound step body)) m (.raised failure m') ↔
      ∃ vs m₄ m₅, (∀ k ≤ vs.length, GoesOn s b (counter s d k)) ∧
        Rounds name body (counter s d) ctx 0 m₃ vs m₄ ∧
        Begins ctx.frame name (counter s d vs.length) m₄ m₅ ∧
        Ends (evalBody · (vs.foldl (Context.after body) ctx) body) m₅ (.raised failure m')) ∧
    (¬ GoesOn s b s → Ends (eval · ctx (.forLoop span name first bound step body)) m
      (.value (if body.isBlock then .number 0 else .list []) m₃)) ∧
    ((∀ k, GoesOn s b (counter s d k)) → ∀ v m',
      ¬ Ends (eval · ctx (.forLoop span name first bound step body)) m (.value v m')) := by
  have hloop (o : Outcome Value) :
      Ends (eval · ctx (.forLoop span name first bound step body)) m o ↔
        Ends (count · ctx name (0 ≤ s) b d body s []) m₃ o :=
    ends_forLoop_iff hfirst hbound hstep
  have hvalue (v : Value) (m' : Machine) := (hloop (.value v m')).trans ends_count_value_iff
  refine ⟨hvalue, fun failure m' => (hloop _).trans ends_count_raised_iff, fun hend => ?_, ?_⟩
  · refine (hvalue _ _).2 ⟨[], isLeast_of_end nofun hend, .nil ctx 0 m₃, rfl⟩
  · intro hgo v m' h
    obtain ⟨vs, hleast, -, -⟩ := (hvalue v m').1 h
    exact hleast.1 (hgo vs.length)

/-- The body binds the name that the bound was read from to zero; there are three rounds all the
same. -/
theorem counts_over_rebound :
    let m : Machine :=
      ⟨Arena.start true [("n", .number 3)], Host.start .script [] (Host.listed [])⟩
    let ctx := Context.root 0
    let place : Position := ⟨⟨"<stdin>", "for i => 0 until n do push n => 0"⟩, 0, 0, 0⟩
    let span : Span := ⟨place, place⟩
    let body : Body := .inline (.bind span "n" (.number span "0" 0))
    let loop : Expr := .forLoop span "i" (.number span "0" 0) (.access span "n") none body
    ∃ vs m', Ends (eval · ctx loop) m (.value (.list vs) m') ∧ vs.length = 3 ∧
      IsLeast {k | ¬ GoesOn 0 3 (counter 0 1 k)} 3 ∧
      Rounds "i" body (counter 0 1) ctx 0 m vs m' := by
  intro m ctx place span body loop
  have hfirst : Ends (eval · ctx (.number span "0" 0)) m (.value (.number 0) m) :=
    .of_value (n := 1) rfl
  have hbound : Ends (eval · ctx (.access span "n")) m (.value (.number 3) m) :=
    .of_value (n := 1) rfl
  have hstep : StepEnds ctx none m 1 m := ⟨rfl, rfl⟩
  obtain ⟨vs, m', heval, hlength⟩ :
      ∃ vs m', eval 20 ctx loop m = .value (.list vs) m' ∧ vs.length = 3 := ⟨_, _, rfl, rfl⟩
  obtain ⟨us, hleast, hrounds, hus⟩ :=
    ((counts_over hfirst hbound hstep).1 _ _).1 (.of_value heval)
  obtain rfl : vs = us := Value.list.inj hus
  exact ⟨vs, m', .of_value heval, hlength, hlength ▸ hleast, hrounds⟩

end

end UniformScript.Eval
