import UniformScript.Proofs.Eval.Sequence
import UniformScript.Proofs.Session.Reclaiming
import UniformScript.Proofs.Session.Unspanned
import UniformScript.Proofs.Syntax.Joining

/-!
# A program piece by piece

Two programs are run one after the other in a session, or both at once, the second one on the lines
behind the first.  This comes to the same: the values of the statements, or the cause of the
failure that stops them, what has been written and shown, and the global bindings afterwards.  What
differs is where functions are said to be defined, and in which slots their frames are.

The slots differ, as frames are freed between the two runs.  So both are compared in the session
that keeps all frames, where a run is nothing but the evaluation of the statements.

* `Paired.conclude_of_serve`, `Paired.serve_of_conclude`: a run and the evaluation in the other
  session.
* `run_join`: the runs of the two programs and the run of both.
-/

namespace UniformScript

open Arena Eval

/-! ## Up to spans and slots -/

/-- The value without spans, and with its handles settled. -/
def Value.faded (v : Value) : Value := v.settled.unspanned

/-- The answer without spans, and with its values settled. -/
def Answer.faded (a : Answer) : Answer := a.settled.unspanned

/-- The answer to statements in front of which others have had the given values. -/
def Answer.after (vs : List Value) : Answer → Answer
  | values ws => values (vs ++ ws)
  | a => a

theorem Answer.settled_after (vs : List Value) (a : Answer) :
    (a.after vs).settled = a.settled.after (Value.settledAll vs) := by
  cases a with
  | values ws => exact congrArg values (Value.settledAll_append vs ws)
  | _ => rfl

namespace Session

variable {s t : Session} {o : Outcome (List Value)} {vs : List Value} {m : Machine}

/-! ## Ends of evaluations -/

theorem value_of_conclude (h : s.conclude o = .ok (.values vs, t)) : o = .value vs t.machine := by
  cases o <;> cases h
  rfl

theorem raised_of_conclude {failure : Failure} (h : s.conclude o = .ok (.failed failure, t)) :
    ∃ f, failure = .runtime f ∧ o = .raised f t.machine := by
  cases o <;> cases h
  exact ⟨_, rfl, rfl⟩

theorem ne_exhausted_of_conclude {r : Answer × Session} (h : s.conclude o = .ok r) :
    o ≠ .exhausted := by
  rintro rfl
  cases h

/-- Further statements are evaluated behind others that have had the given values. -/
theorem conclude_after {evaluation : Eval (List Value)} {answer : Answer}
    (h : s.conclude (evaluation m) = .ok (answer, t)) (vs : List Value) :
    s.conclude ((do let ws ← evaluation; return vs ++ ws : Eval (List Value)) m) =
      .ok (answer.after vs, t) := by
  show s.conclude (Eval.bind evaluation _ m) = _
  unfold Eval.bind
  cases hend : evaluation m <;> rw [hend] at h <;> cases h <;> rfl

/-- An evaluation of two steps that ends has ended its first step. -/
theorem of_conclude_bind {p : Eval (List Value)} {f : List Value → Eval (List Value)}
    {r : Answer × Session} (h : s.conclude ((p >>= f) m) = .ok r) :
    (∃ vs m', p m = .value vs m' ∧ s.conclude (f vs m') = .ok r) ∨
      ∃ failure m', p m = .raised failure m' := by
  change s.conclude (Eval.bind p f m) = _ at h
  unfold Eval.bind at h
  cases hend : p m with
  | value vs m' =>
    rw [hend] at h
    exact .inl ⟨vs, m', rfl, h⟩
  | raised failure m' => exact .inr ⟨failure, m', rfl⟩
  | faulted fault =>
    rw [hend] at h
    cases h
  | exhausted =>
    rw [hend] at h
    cases h

theorem exists_conclude_of_bind {p : Eval (List Value)} {f : List Value → Eval (List Value)}
    {r : Answer × Session} (h : s.conclude ((p >>= f) m) = .ok r) (t : Session) :
    ∃ x, t.conclude (p m) = .ok x := by
  rcases of_conclude_bind h with ⟨vs, m', hend, -⟩ | ⟨failure, m', hend⟩ <;> rw [hend] <;>
    exact ⟨_, rfl⟩

/-- What an evaluation comes to is the same for evaluations that are the same up to spans. -/
theorem plainRun_conclude_eq {o o' : Outcome (List Value)}
    (h : o.unspanned Value.unspannedAll = o'.unspanned Value.unspannedAll) (s t : Session) :
    plainRun (s.conclude o) = plainRun (t.conclude o') := by
  rw [conclude_unspanned s s, conclude_unspanned t s, h]

theorem plainRun_eq_ok {r : Except Stop (Answer × Session)} {answer : Answer}
    (h : plainRun r = .ok (answer, t)) :
    ∃ a t', r = .ok (a, t') ∧ a.unspanned = answer ∧ t'.unspanned = t := by
  cases r with
  | error stop => cases h
  | ok r =>
    cases h
    exact ⟨r.1, r.2, rfl, rfl, rfl⟩

theorem collect_of_not_pending (h : s.machine.arena.pending = [])
    (held : List Value) : s.collect held = .ok s := by
  unfold Session.collect Arena.collect
  rw [h]
  rfl

end Session

namespace Client

variable {c c' d d' : Client} {n : Nat} {source : Source} {p : Program} {answer : Answer}

/-- The world is the same, and every global name has the same value up to spans and slots. -/
structure Alike (c d : Client) : Prop where
  host : c.host = d.host
  get : ∀ name, (c.session.get name).map Value.faded = (d.session.get name).map Value.faded

namespace Paired

/-- Two clients are alike if the sessions that keep all frames are the same up to spans. -/
theorem alike (hp : Paired c c') (hq : Paired d d')
    (h : c'.session.unspanned = d'.session.unspanned) : Alike c d where
  host := by
    have hhost : c'.session.unspanned.machine.host = d'.session.unspanned.machine.host := by rw [h]
    exact hp.mirrors.host.symm.trans (hhost.trans hq.mirrors.host)
  get name := by
    have hfaded {e e' : Client} (he : Paired e e') : (e.session.get name).map Value.faded =
        e'.session.unspanned.get name := by
      rw [Session.get_unspanned, he.get, Option.map_map]
      rfl
    rw [hfaded hp, hfaded hq, h]

/-- In the session that keeps all frames, a run is the evaluation of the statements. -/
theorem runKeeping_eq (hp : Paired c c') (h : Program.read source = .ok p) (n : Nat) :
    c'.session.runKeeping c'.kept n source =
      c'.session.conclude (evalAll n c'.root p.statements c'.session.machine) := by
  rw [Session.runKeeping_of_read h, ← evaluateKeeping_eq]
  rcases hp.evaluate n p with ⟨-, he⟩ | ⟨answer, s, s', -, he, hm, -⟩
  · rw [he]
    rfl
  · rw [he]
    show Session.collecting c'.kept (answer.settled, s') = _
    unfold Session.collecting
    rw [Session.collect_of_not_pending hm.arena.pending]
    rfl

theorem serve_of_conclude (hp : Paired c c') (h : Program.read source = .ok p) {s' : Session}
    (hend : c'.session.conclude (evalAll n c'.root p.statements c'.session.machine) =
      .ok (answer, s')) :
    ∃ a d d', c.serve n (.run source) = .ok (.answer a, d) ∧ Paired d d' ∧ a.settled = answer ∧
      d'.session = s' := by
  have hserve' :
      c'.serve n (.run source) = .ok (.answer answer, ⟨s', answer.held ++ c'.kept⟩) := by
    unfold Client.serve
    simp only [hp.runKeeping_eq h, hend]
  rcases hp.serve n (.run source) with ⟨-, hne⟩ | ⟨reply, d, d', hserve, hsettled, hd⟩
  · rw [hserve'] at hne
    cases hne
  · rw [hserve'] at hsettled
    cases reply with
    | answer a =>
      cases hsettled
      exact ⟨a, d, _, hserve, hd, rfl, rfl⟩
    | _ => cases hsettled

theorem conclude_of_serve (hp : Paired c c') (h : Program.read source = .ok p)
    (hserve : c.serve n (.run source) = .ok (.answer answer, d)) :
    ∃ d', Paired d d' ∧
      c'.session.conclude (evalAll n c'.root p.statements c'.session.machine) =
        .ok (answer.settled, d'.session) := by
  rcases hp.serve n (.run source) with ⟨hne, -⟩ | ⟨reply, d₁, d', hserve₁, hserve', hd⟩
  · rw [hserve] at hne
    cases hne
  · rw [hserve] at hserve₁
    cases hserve₁
    refine ⟨d', hd, ?_⟩
    unfold Client.serve at hserve'
    simp only [hp.runKeeping_eq h] at hserve'
    cases hend : c'.session.conclude (evalAll n c'.root p.statements c'.session.machine) with
    | error stop =>
      rw [hend] at hserve'
      cases hserve'
    | ok r =>
      rw [hend] at hserve'
      obtain ⟨a, s'⟩ := r
      obtain ⟨hanswer, hclient⟩ := Prod.mk.inj (Except.ok.inj hserve')
      rw [← hclient]
      cases hanswer
      rfl

theorem keep (hp : Paired c c') (positions : List Nat) :
    Paired ⟨c.session, positions.filterMap (c.kept[·]?)⟩
      ⟨c'.session, positions.filterMap (c'.kept[·]?)⟩ := by
  rcases hp.serve 0 (.keep positions) with ⟨hne, -⟩ | ⟨reply, d, d', hserve, hserve', hd⟩
  · cases hne
  · cases hserve
    cases hserve'
    exact hd

/-! ## Two runs and one -/

variable {first second joined : Source} {q r : Program} {vs : List Value} {e : Client}

/-- Where the first program is evaluated to its end, the run of both ends like that of the
second. -/
theorem serve_joined_of_values (hp : Paired c c') (hfirst : Program.read first = .ok p)
    (hsecond : Program.read second = .ok q) (hboth : Program.read joined = .ok r)
    (hjoined : unspannedAll r.statements = unspannedAll (p.statements ++ q.statements))
    {n₁ n₂ : Nat} {positions : List Nat}
    (h₁ : c.serve n₁ (.run first) = .ok (.answer (.values vs), d))
    (h₂ : Client.serve ⟨d.session, positions.filterMap (d.kept[·]?)⟩ n₂ (.run second) =
      .ok (.answer answer, e)) :
    ∃ n a f, c.serve n (.run joined) = .ok (.answer a, f) ∧
      a.faded = (answer.after vs).faded ∧ Alike f e := by
  obtain ⟨d', hd, hend₁⟩ := hp.conclude_of_serve hfirst h₁
  obtain ⟨e', he, hend₂⟩ := (hd.keep positions).conclude_of_serve hsecond h₂
  let ctx : Context := root ⟨d'.session, positions.filterMap (d'.kept[·]?)⟩
  let n := max n₁ n₂
  have hvalue := Session.value_of_conclude hend₁
  have hvalue' : evalAll (n + 1 + p.statements.length) c'.root p.statements c'.session.machine =
      .value (Value.settledAll vs) d'.session.machine :=
    (evalAll_mono (by omega) (Session.ne_exhausted_of_conclude hend₁)).trans hvalue
  have hmono : evalAll (n + 1) ctx q.statements d'.session.machine =
      evalAll n₂ ctx q.statements d'.session.machine :=
    evalAll_mono (by omega) (Session.ne_exhausted_of_conclude hend₂)
  have hrest : d'.session.conclude (evalAll (n + 1) ctx q.statements d'.session.machine) =
      .ok (answer.settled, e'.session) := (congrArg d'.session.conclude hmono).trans hend₂
  have hframe : ctx.frame = c'.root.frame := rfl
  have hsame := evalAll_join n hjoined hframe hp.mirrors.arena.reclaiming
  rw [bind_of_value hvalue'] at hsame
  have hafter := Session.conclude_after hrest (Value.settledAll vs)
  obtain ⟨a', s', hend, ha', hs'⟩ := Session.plainRun_eq_ok
    ((Session.plainRun_conclude_eq hsame c'.session _).trans (congrArg Session.plainRun hafter))
  obtain ⟨a, f, f', hserve, hf, rfl, rfl⟩ := hp.serve_of_conclude hboth hend
  refine ⟨_, a, f, hserve, ?_, hf.alike he hs'⟩
  unfold Answer.faded
  rw [ha', Answer.settled_after]

/-- Where the first program fails, so does the run of both. -/
theorem serve_joined_of_failed (hp : Paired c c') (hfirst : Program.read first = .ok p)
    (hboth : Program.read joined = .ok r)
    (hjoined : unspannedAll r.statements = unspannedAll (p.statements ++ q.statements))
    {failure : Failure} (h : c.serve n (.run first) = .ok (.answer (.failed failure), d)) :
    ∃ n a f, c.serve n (.run joined) = .ok (.answer a, f) ∧
      a.faded = (Answer.failed failure).faded ∧ Alike f d := by
  obtain ⟨d', hd, hend⟩ := hp.conclude_of_serve hfirst h
  obtain ⟨cause, rfl, hraised⟩ := Session.raised_of_conclude hend
  have hraised' : evalAll (n + 1 + p.statements.length) c'.root p.statements c'.session.machine =
      .raised cause d'.session.machine :=
    (evalAll_mono (by omega) (Session.ne_exhausted_of_conclude hend)).trans hraised
  have hframe : c'.root.frame = c'.root.frame := rfl
  have hsame := evalAll_join n hjoined hframe hp.mirrors.arena.reclaiming
  rw [bind_of_raised hraised', ← hraised] at hsame
  obtain ⟨a', s', hend', ha', hs'⟩ := Session.plainRun_eq_ok
    ((Session.plainRun_conclude_eq hsame c'.session _).trans (congrArg Session.plainRun hend))
  obtain ⟨a, f, f', hserve, hf, rfl, rfl⟩ := hp.serve_of_conclude hboth hend'
  exact ⟨_, a, f, hserve, ha', hf.alike hd hs'⟩

/-- Where the run of both programs ends, the first run fails, or both runs end. -/
theorem serve_of_joined (hp : Paired c c') (hfirst : Program.read first = .ok p)
    (hsecond : Program.read second = .ok q) (hboth : Program.read joined = .ok r)
    (hjoined : unspannedAll r.statements = unspannedAll (p.statements ++ q.statements))
    (h : c.serve n (.run joined) = .ok (.answer answer, e)) (positions : List Nat) :
    (∃ n₁ failure d, c.serve n₁ (.run first) = .ok (.answer (.failed failure), d)) ∨
      ∃ n₁ n₂ vs d a f, c.serve n₁ (.run first) = .ok (.answer (.values vs), d) ∧
        Client.serve ⟨d.session, positions.filterMap (d.kept[·]?)⟩ n₂ (.run second) =
          .ok (.answer a, f) := by
  obtain ⟨e', -, hend⟩ := hp.conclude_of_serve hboth h
  have hmono : evalAll (n + 1 + p.statements.length) c'.root r.statements c'.session.machine =
      evalAll n c'.root r.statements c'.session.machine :=
    evalAll_mono (by omega) (Session.ne_exhausted_of_conclude hend)
  -- both programs one behind the other, in whatever context the second one is evaluated
  have hends (ctx : Context) (hframe : ctx.frame = c'.root.frame) :
      ∃ x, c'.session.conclude ((do
        let vs ← evalAll (n + 1 + p.statements.length) c'.root p.statements
        let ws ← evalAll (n + 1) ctx q.statements
        return vs ++ ws : Eval (List Value)) c'.session.machine) = .ok x := by
    have hsame := evalAll_join n hjoined hframe hp.mirrors.arena.reclaiming
    rw [hmono] at hsame
    obtain ⟨a, s', hboth', -, -⟩ := Session.plainRun_eq_ok
      ((Session.plainRun_conclude_eq hsame.symm c'.session _).trans
        (congrArg Session.plainRun hend))
    exact ⟨_, hboth'⟩
  obtain ⟨x, hx⟩ := hends c'.root rfl
  rcases Session.of_conclude_bind hx with ⟨vs', m', hvalue, -⟩ | ⟨failure, m', hraised⟩
  · have hend₁ : c'.session.conclude
        (evalAll (n + 1 + p.statements.length) c'.root p.statements c'.session.machine) =
          .ok (.values vs', ⟨m', c'.session.runs + 1⟩) := congrArg c'.session.conclude hvalue
    obtain ⟨a, d, d', hserve, hd, ha, hd'⟩ := hp.serve_of_conclude hfirst hend₁
    cases a with
    | values vs =>
      obtain ⟨y, hy⟩ := hends (root ⟨d'.session, positions.filterMap (d'.kept[·]?)⟩) rfl
      rw [bind_of_value hvalue] at hy
      obtain ⟨z, hz⟩ := Session.exists_conclude_of_bind hy d'.session
      have hm' : d'.session.machine = m' := by rw [hd']
      rw [← hm'] at hz
      obtain ⟨a, f, -, hserve₂, -⟩ := (hd.keep positions).serve_of_conclude hsecond hz
      exact .inr ⟨_, _, vs, d, a, f, hserve, hserve₂⟩
    | _ => cases ha
  · have hend₁ : c'.session.conclude
        (evalAll (n + 1 + p.statements.length) c'.root p.statements c'.session.machine) =
          .ok (.failed (.runtime failure), ⟨m', c'.session.runs + 1⟩) :=
      congrArg c'.session.conclude hraised
    obtain ⟨a, d, d', hserve, -, ha, -⟩ := hp.serve_of_conclude hfirst hend₁
    cases a with
    | failed failure' => exact .inl ⟨_, failure', d, hserve⟩
    | _ => cases ha

end Paired

/-- A program can be run piece by piece.  A session has replied to any requests; then a program and
another one are run, where between the two runs any values are kept or dropped, or a program that
has the text of the second one on the lines behind the first.

If the first program has values, both ways end alike: with the same values, or with failures for
the same cause.  If it fails, the joined program fails for the same cause.  The world is the same
afterwards, and so are the values of all global names, up to spans and the slots of frames.  And
where the joined program comes to an end, so do the two. -/
theorem run_join {host : Host} {requests : List Request} {replies : List Reply} {c : Client}
    (h : Serves (start true host) requests replies c) {first second : Source} {p q : Program}
    (hfirst : Program.read first = .ok p) (hsecond : Program.read second = .ok q) (name : String)
    (positions : List Nat) :
    let joined : Source := ⟨name, first.text ++ "\n" ++ second.text⟩
    (∀ {vs : List Value} {answer : Answer} {e : Client},
      Serves c [.run first, .keep positions, .run second]
          [.answer (.values vs), .done, .answer answer] e →
        ∃ a f, Serves c [.run joined] [.answer a] f ∧ a.faded = (answer.after vs).faded ∧
          Alike f e) ∧
    (∀ {failure : Failure} {d : Client}, Serves c [.run first] [.answer (.failed failure)] d →
        ∃ a f, Serves c [.run joined] [.answer a] f ∧ a.faded = (Answer.failed failure).faded ∧
          Alike f d) ∧
    ∀ {a : Answer} {f : Client}, Serves c [.run joined] [.answer a] f →
      (∃ failure d, Serves c [.run first] [.answer (.failed failure)] d) ∨
        ∃ vs answer e, Serves c [.run first, .keep positions, .run second]
          [.answer (.values vs), .done, .answer answer] e := by
  intro joined
  obtain ⟨c', -, hp⟩ := h.paired (paired_start host)
  obtain ⟨r, hboth, hjoined⟩ := read_join hfirst hsecond name
  refine ⟨?_, ?_, ?_⟩
  · rintro vs answer e (_ | ⟨h₁, _ | ⟨h₂, _ | ⟨h₃, _ | _⟩⟩⟩)
    cases h₂
    obtain ⟨n, a, f, hserve, ha, hf⟩ :=
      hp.serve_joined_of_values hfirst hsecond hboth hjoined h₁ h₃
    exact ⟨a, f, .cons hserve (.nil f), ha, hf⟩
  · rintro failure d (_ | ⟨h₁, _ | _⟩)
    obtain ⟨n, a, f, hserve, ha, hf⟩ := hp.serve_joined_of_failed hfirst hboth hjoined h₁
    exact ⟨a, f, .cons hserve (.nil f), ha, hf⟩
  · rintro a f (_ | ⟨h₁, _ | _⟩)
    rcases hp.serve_of_joined hfirst hsecond hboth hjoined h₁ positions with
      ⟨n₁, failure, d, hfailed⟩ | ⟨n₁, n₂, vs, d, answer, e, hvalues, hanswer⟩
    · exact .inl ⟨failure, d, .cons hfailed (.nil d)⟩
    · have hkeep : d.serve 0 (.keep positions) =
          .ok (.done, ⟨d.session, positions.filterMap (d.kept[·]?)⟩) := rfl
      exact .inr ⟨vs, answer, e, .cons hvalues (.cons hkeep (.cons hanswer (.nil e)))⟩

/-- A function is defined and kept, and looks up its free name when the second program calls it. -/
theorem run_join_function :
    let c := start true (Host.start .script [] (Host.listed []))
    let first : Source := ⟨"<stdin>", "push x => \"a\"\ndefine f() => x"⟩
    let second : Source := ⟨"<stdin>", "x => \"b\"\nprint(f())"⟩
    ∃ vs answer e a f,
      Serves c [.run first, .keep [1], .run second]
        [.answer (.values vs), .done, .answer answer] e ∧
      e.host.log.toList = [.printed "b"] ∧
      Serves c [.run ⟨"<file>", first.text ++ "\n" ++ second.text⟩] [.answer a] f ∧
      a.faded = (answer.after vs).faded ∧ Alike f e := by
  intro c first second
  let between (d : Client) : Client := ⟨d.session, [1].filterMap (d.kept[·]?)⟩
  have hread₁ : (Program.read first).toOption.isSome := by decide +kernel
  have hread₂ : (Program.read second).toOption.isSome := by decide +kernel
  have hlog : (c.serve 50 (.run first)).toOption.bind (fun r =>
      ((between r.2).serve 50 (.run second)).toOption.map fun r' =>
        (r.2.kept.length, r'.2.host.log.toList)) = some (2, [.printed "b"]) := by decide +kernel
  obtain ⟨p, hp⟩ := Option.isSome_iff_exists.1 hread₁
  obtain ⟨q, hq⟩ := Option.isSome_iff_exists.1 hread₂
  obtain ⟨⟨reply₁, d⟩, hserve₁, hlog⟩ := Option.bind_eq_some_iff.1 hlog
  obtain ⟨⟨reply₂, e⟩, hserve₂, hlog⟩ := Option.map_eq_some_iff.1 hlog
  have h₁ := ok_of_toOption hserve₁
  have h₂ := ok_of_toOption hserve₂
  obtain ⟨answer₁, rfl, hkept⟩ := exists_answer_of_serve_run h₁
  obtain ⟨answer, rfl, -⟩ := exists_answer_of_serve_run h₂
  have hlength : d.kept.length = 2 := congrArg Prod.fst hlog
  cases answer₁ with
  | values vs =>
    have hserves : Serves c [.run first, .keep [1], .run second]
        [.answer (.values vs), .done, .answer answer] e :=
      .cons h₁ (.cons (rfl : d.serve 0 (.keep [1]) = _) (.cons h₂ (.nil e)))
    obtain ⟨a, f, hjoined, ha, hf⟩ :=
      (run_join (.nil c) (ok_of_toOption hp) (ok_of_toOption hq) "<file>" [1]).1 hserves
    exact ⟨vs, answer, e, a, f, hserves, congrArg Prod.snd hlog, hjoined, ha, hf⟩
  | _ =>
    rw [hkept] at hlength
    cases hlength

end Client

end UniformScript
