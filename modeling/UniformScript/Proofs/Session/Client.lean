import UniformScript.Session
import UniformScript.Proofs.Eval.Depth
import UniformScript.Proofs.Eval.Safety

/-!
# Who uses a session

A `Client` sends one request after the other to a session: to run a source, for the value of a
global name, for the equality of two values.  Of the values in the replies a client keeps as many
as it likes, and the frames of the functions among them have to stay.

* `Serves`: the replies to a list of requests, each with a bound on the depth that is large enough.
* `Serves.unique`: there are no other replies.
* `ran_of_serve`: how the answer to a source comes about.
* `Sound.serve`: a session never stops for a fault of its arena.
-/

namespace UniformScript

open Arena Eval

/-- A session, and the values that whoever uses it has kept. -/
structure Client where
  /-- The session. -/
  session : Session
  /-- The values kept, the newest first. -/
  kept : List Value

/-- What is asked of a session. -/
inductive Request where
  /-- To run a source; the values of the answer are kept. -/
  | run (source : Source)
  /-- The value of a global name, which is kept. -/
  | get (name : String)
  /-- Whether two global names have equal values. -/
  | compare (name other : String)
  /-- Whether the kept values at two positions are equal. -/
  | compareKept (i j : Nat)
  /-- To drop all kept values but those at the positions. -/
  | keep (positions : List Nat)

/-- What a session replies. -/
inductive Reply where
  /-- The answer to a source. -/
  | answer (a : Answer)
  /-- The value of a name, if it has one. -/
  | found (v : Option Value)
  /-- Whether two values are equal. -/
  | truth (b : Bool)
  /-- That it is done. -/
  | done

/-- What stopped the program, if the reply says so. -/
def Reply.failure? : Reply → Option Failure
  | .answer (.failed failure) => some failure
  | _ => none

theorem Reply.eq_failed_of_failure? {reply : Reply} {failure : Failure}
    (h : reply.failure? = some failure) : reply = .answer (.failed failure) := by
  unfold Reply.failure? at h
  split at h
  · rw [Option.some.inj h]
  · cases h

/-- What a session makes of the end of an evaluation. -/
def Session.conclude (s : Session) : Outcome (List Value) → Except Stop (Answer × Session)
  | .value vs m => .ok (.values vs, ⟨m, s.runs + 1⟩)
  | .raised failure m => .ok (.failed (.runtime failure), ⟨m, s.runs + 1⟩)
  | .faulted fault => .error (.faulted fault)
  | .exhausted => .error .exhausted

namespace Client

/-- A client of a new session. -/
def start (reclaiming : Bool) (host : Host) : Client := ⟨Session.start reclaiming host, []⟩

/-- The world around the session. -/
def host (c : Client) : Host := c.session.machine.host

/-- The frames of the session. -/
def arena (c : Client) : Arena := c.session.machine.arena

/-- Whether there are kept values at both positions, and they are equal. -/
def sameKept (c : Client) (i j : Nat) : Bool :=
  match c.kept[i]?, c.kept[j]? with
  | some v, some w => v.same w
  | _, _ => false

/-- The reply to a request. -/
def serve (c : Client) (fuel : Nat) : Request → Except Stop (Reply × Client)
  | .run source =>
    match c.session.runKeeping c.kept fuel source with
    | .ok (answer, s) => .ok (.answer answer, ⟨s, answer.held ++ c.kept⟩)
    | .error stop => .error stop
  | .get name => .ok (.found (c.session.get name),
      ⟨c.session, (c.session.get name).toList ++ c.kept⟩)
  | .compare name other => .ok (.truth (c.session.sameBinding name other), c)
  | .compareKept i j => .ok (.truth (c.sameKept i j), c)
  | .keep positions => .ok (.done, ⟨c.session, positions.filterMap (c.kept[·]?)⟩)

theorem serve_get (c : Client) (n : Nat) (name : String) : c.serve n (.get name) =
    .ok (.found (c.session.get name), ⟨c.session, (c.session.get name).toList ++ c.kept⟩) := rfl

theorem serve_compare (c : Client) (n : Nat) (name other : String) :
    c.serve n (.compare name other) = .ok (.truth (c.session.sameBinding name other), c) := rfl

theorem serve_compareKept (c : Client) (n i j : Nat) :
    c.serve n (.compareKept i j) = .ok (.truth (c.sameKept i j), c) := rfl

/-- The reply to a source is an answer, the values of which are kept. -/
theorem exists_answer_of_serve_run {c d : Client} {n : Nat} {source : Source} {reply : Reply}
    (h : c.serve n (.run source) = .ok (reply, d)) :
    ∃ answer, reply = .answer answer ∧ d.kept = answer.held ++ c.kept := by
  unfold serve at h
  simp only at h
  split at h
  · cases h
    exact ⟨_, rfl, rfl⟩
  · cases h

/-- The replies to requests, one after the other, and the client afterwards. -/
inductive Serves : Client → List Request → List Reply → Client → Prop where
  | nil (c : Client) : Serves c [] [] c
  | cons {c d e : Client} {fuel : Nat} {request : Request} {requests : List Request}
    {reply : Reply} {replies : List Reply} (h : c.serve fuel request = .ok (reply, d))
    (hrest : Serves d requests replies e) : Serves c (request :: requests) (reply :: replies) e

/-- There is only one reply to a request, whatever the bound on the depth. -/
theorem serve_unique {c d e : Client} {n n' : Nat} {request : Request} {reply reply' : Reply}
    (h : c.serve n request = .ok (reply, d)) (h' : c.serve n' request = .ok (reply', e)) :
    reply = reply' ∧ d = e := by
  cases request with
  | run source =>
    unfold serve at h h'
    simp only at h h'
    split at h
    · rename_i answer s hs
      split at h'
      · rename_i answer' s' hs'
        cases h
        cases h'
        cases Session.runKeeping_unique hs hs'
        exact ⟨rfl, rfl⟩
      · cases h'
    · cases h
  | _ =>
    cases h
    cases h'
    exact ⟨rfl, rfl⟩

/-- There are no other replies to the same requests. -/
theorem Serves.unique {c d e : Client} {requests : List Request} {replies replies' : List Reply}
    (h : Serves c requests replies d) (h' : Serves c requests replies' e) :
    replies = replies' ∧ d = e := by
  induction h generalizing replies' with
  | nil c =>
    cases h'
    exact ⟨rfl, rfl⟩
  | cons hs _ ih =>
    cases h' with
    | cons hs' hrest' =>
      obtain ⟨rfl, rfl⟩ := serve_unique hs hs'
      obtain ⟨rfl, rfl⟩ := ih hrest'
      exact ⟨rfl, rfl⟩

/-! ## Sound clients -/

/-- The arena is sound, and the handles of the kept values name frames. -/
structure Sound (c : Client) : Prop where
  arena : c.arena.Sound
  names : ∀ h ∈ Value.handlesAll c.kept, c.arena.Names h

theorem handlesAll_subset {vs ws : List Value} (h : vs ⊆ ws) :
    Value.handlesAll vs ⊆ Value.handlesAll ws := by
  intro k hk
  obtain ⟨v, hv, hk⟩ := mem_handlesAll_iff.1 hk
  exact mem_handlesAll_iff.2 ⟨v, h hv, hk⟩

theorem handles_globals : ∀ b ∈ globals, b.2.handles = [] := by
  simp [globals, Builtin.all, Value.handles, Value.null, Value.truth, Value.pi]

theorem sound_start (host : Host) : (start true host).Sound :=
  ⟨Arena.sound_start handles_globals, nofun⟩

/-- The context in which the session evaluates a program's statements. -/
def root (c : Client) : Context := (Context.root c.session.runs).holdingAll c.kept

theorem evaluateKeeping_eq (c : Client) (n : Nat) (p : Program) :
    c.session.evaluateKeeping c.kept n p =
      c.session.conclude (evalAll n c.root p.statements c.session.machine) := rfl

/-- A property of clients that holds behind the evaluation of every program, and that a collection
keeps, holds behind the run of every source. -/
theorem run_of_evaluate {P : Client → Prop} {c : Client} {n : Nat} (hc : P c)
    (hevaluate : ∀ p, c.session.evaluateKeeping c.kept n p = .error .exhausted ∨
      ∃ answer s, c.session.evaluateKeeping c.kept n p = .ok (answer, s) ∧
        P ⟨s, answer.held ++ c.kept⟩)
    (hcollect : ∀ {s : Session} {held : List Value}, P ⟨s, held⟩ →
      ∃ b, s.collect held = .ok (s.withArena b) ∧ P ⟨s.withArena b, held⟩) (source : Source) :
    c.session.runKeeping c.kept n source = .error .exhausted ∨
      ∃ answer s, c.session.runKeeping c.kept n source = .ok (answer, s) ∧
        P ⟨s, answer.held ++ c.kept⟩ := by
  unfold Session.runKeeping
  by_cases hblank : Text.isBlankText source.text = true
  · rw [if_pos hblank]
    exact .inr ⟨_, _, rfl, hc⟩
  · rw [if_neg hblank]
    cases Program.read source with
    | error failure => exact .inr ⟨_, _, rfl, hc⟩
    | ok p =>
      rcases hevaluate p with he | ⟨answer, s, he, hs⟩
      · left
        simp only [he]
        rfl
      · obtain ⟨b, hb, hcollected⟩ := hcollect hs
        refine .inr ⟨answer, s.withArena b, ?_, hcollected⟩
        simp only [he, Bind.bind, Except.bind, hb]
        rfl

/-- How a source is run: it is blank, or it holds no program, and the session stays as it is; or
its program is evaluated, with values or with a failure, and frames are collected. -/
inductive Ran (c : Client) (n : Nat) (source : Source) : Answer → Session → Prop where
  | blank (h : Text.isBlankText source.text = true) : Ran c n source .blank c.session
  | unread {failure : Failure} (hread : Program.read source = .error failure) :
    Ran c n source (.failed failure) c.session
  | values {p : Program} {vs : List Value} {m : Machine} {b : Arena}
    (hread : Program.read source = .ok p)
    (hend : evalAll n c.root p.statements c.session.machine = .value vs m)
    (hcollect : m.arena.collect (Value.handlesAll (vs ++ c.kept)) = .ok b) :
    Ran c n source (.values vs) ⟨⟨b, m.host⟩, c.session.runs + 1⟩
  | raised {p : Program} {failure : RuntimeFailure} {m : Machine} {b : Arena}
    (hread : Program.read source = .ok p)
    (hend : evalAll n c.root p.statements c.session.machine = .raised failure m)
    (hcollect : m.arena.collect (Value.handlesAll c.kept) = .ok b) :
    Ran c n source (.failed (.runtime failure)) ⟨⟨b, m.host⟩, c.session.runs + 1⟩

/-- Every answer to a source comes about in one of these ways. -/
theorem ran_of_serve {c d : Client} {n : Nat} {source : Source} {answer : Answer}
    (h : c.serve n (.run source) = .ok (.answer answer, d)) : Ran c n source answer d.session := by
  unfold serve Session.runKeeping at h
  simp only at h
  by_cases hblank : Text.isBlankText source.text = true
  · rw [if_pos hblank] at h
    cases h
    exact .blank hblank
  · rw [if_neg hblank] at h
    cases hread : Program.read source with
    | error failure =>
      simp only [hread] at h
      cases h
      exact .unread hread
    | ok p =>
      simp only [hread, evaluateKeeping_eq, Session.conclude] at h
      cases hend : evalAll n c.root p.statements c.session.machine with
      | value vs m =>
        cases hcollect : m.arena.collect (Value.handlesAll (vs ++ c.kept)) with
        | ok b =>
          simp only [hend, Session.collect, Answer.held, hcollect, Bind.bind, Except.bind] at h
          cases h
          exact .values hread hend hcollect
        | error fault =>
          simp only [hend, Session.collect, Answer.held, hcollect, Bind.bind, Except.bind] at h
          cases h
      | raised failure m =>
        cases hcollect : m.arena.collect (Value.handlesAll c.kept) with
        | ok b =>
          simp only [hend, Session.collect, Answer.held, List.nil_append, hcollect, Bind.bind,
            Except.bind] at h
          cases h
          exact .raised hread hend hcollect
        | error fault =>
          simp only [hend, Session.collect, Answer.held, List.nil_append, hcollect, Bind.bind,
            Except.bind] at h
          cases h
      | faulted fault =>
        simp only [hend, Bind.bind, Except.bind] at h
        cases h
      | exhausted =>
        simp only [hend, Bind.bind, Except.bind] at h
        cases h

namespace Sound

variable {c : Client}

theorem fits (hc : c.Sound) : Fits c.root c.session.machine where
  sound := hc.arena
  names h hh := by
    rcases List.mem_append.1 hh with hh | hh
    · exact hc.names h hh
    · cases hh
  running := ⟨0, hc.arena.running_global⟩

/-- The collection after a run keeps the values of the answer and those kept before. -/
theorem collect {s : Session} {held : List Value} (hs : s.machine.arena.Sound)
    (hheld : ∀ h ∈ Value.handlesAll held, s.machine.arena.Names h) :
    ∃ b, Collected s.machine.arena (Value.handlesAll held) b ∧
      s.collect held = .ok (s.withArena b) ∧ Sound ⟨s.withArena b, held⟩ := by
  obtain ⟨b, hb, hc⟩ := hs.exists_collect hheld
  refine ⟨b, hc, ?_, hc.sound, ?_⟩
  · unfold Session.collect
    rw [hb]
  · intro h hh
    exact (hc.names_iff h).2 (.root (.inr hh))

/-- What a session finds holds handles that name frames. -/
theorem get (hc : c.Sound) (name : String) :
    ∀ v ∈ c.session.get name, ∀ h ∈ v.handles, c.arena.Names h := by
  obtain ⟨f, hf, -⟩ := hc.arena.global
  obtain ⟨r, hr, hnames⟩ := hc.arena.exists_get hf name
  have hget : c.session.get name = r := by
    have hr' : c.session.machine.arena.get 0 name = .ok r := hr
    unfold Session.get
    rw [hr']
  rw [hget]
  exact hnames

/-- What the evaluation of a program leaves behind, if the bound on the depth is not met. -/
theorem evaluate_leaves (hc : c.Sound) (n : Nat) (p : Program) :
    c.session.evaluateKeeping c.kept n p = .error .exhausted ∨
      ∃ answer s, c.session.evaluateKeeping c.kept n p = .ok (answer, s) ∧
        Leaves c.root c.session.machine (Value.handlesAll answer.held) s.machine := by
  rw [evaluateKeeping_eq]
  have hsafe := (safe_run n).evalAll hc.fits p.statements
  cases hend : evalAll n c.root p.statements c.session.machine with
  | value vs m =>
    rw [hend] at hsafe
    exact .inr ⟨_, _, rfl, hsafe⟩
  | raised failure m =>
    rw [hend] at hsafe
    exact .inr ⟨_, _, rfl, hsafe⟩
  | faulted fault =>
    rw [hend] at hsafe
    exact hsafe.elim
  | exhausted => exact .inl rfl

/-- A program is evaluated to its end, or as deep as the bound allows. -/
theorem evaluate (hc : c.Sound) (n : Nat) (p : Program) :
    c.session.evaluateKeeping c.kept n p = .error .exhausted ∨
      ∃ answer s, c.session.evaluateKeeping c.kept n p = .ok (answer, s) ∧
        Sound ⟨s, answer.held ++ c.kept⟩ := by
  rcases hc.evaluate_leaves n p with he | ⟨answer, s, he, hl⟩
  · exact .inl he
  · refine .inr ⟨answer, s, he, hl.sound, fun h hh => ?_⟩
    rw [handlesAll_append] at hh
    rcases List.mem_append.1 hh with hh | hh
    · exact hl.names_result h hh
    · exact hl.names h (List.mem_append_right _ (List.mem_append_left _ hh))

/-- A source is run to its end, or as deep as the bound allows. -/
theorem run (hc : c.Sound) (n : Nat) (source : Source) :
    c.session.runKeeping c.kept n source = .error .exhausted ∨
      ∃ answer s, c.session.runKeeping c.kept n source = .ok (answer, s) ∧
        Sound ⟨s, answer.held ++ c.kept⟩ := by
  refine run_of_evaluate hc (hc.evaluate n) (fun {s held} hs => ?_) source
  obtain ⟨b, -, hb, hsound⟩ := collect hs.arena hs.names
  exact ⟨b, hb, hsound⟩

/-- A request is replied to, unless the bound on the depth is met, and the client is sound again.
-/
theorem serve (hc : c.Sound) (n : Nat) (request : Request) :
    c.serve n request = .error .exhausted ∨
      ∃ reply d, c.serve n request = .ok (reply, d) ∧ d.Sound := by
  cases request with
  | run source =>
    unfold Client.serve
    rcases hc.run n source with hr | ⟨answer, s, hr, hsound⟩
    · left
      simp only [hr]
    · right
      simp only [hr]
      exact ⟨_, _, rfl, hsound⟩
  | get name =>
    refine .inr ⟨_, _, rfl, hc.arena, ?_⟩
    intro h hh
    rw [handlesAll_append] at hh
    rcases List.mem_append.1 hh with hh | hh
    · cases hv : c.session.get name with
      | none =>
        rw [hv] at hh
        cases hh
      | some v =>
        rw [hv] at hh
        exact hc.get name v hv h (by simpa [Value.handlesAll] using hh)
    · exact hc.names h hh
  | compare name other => exact .inr ⟨_, _, rfl, hc⟩
  | compareKept i j => exact .inr ⟨_, _, rfl, hc⟩
  | keep positions =>
    refine .inr ⟨_, _, rfl, hc.arena, ?_⟩
    intro h hh
    refine hc.names h (handlesAll_subset ?_ hh)
    intro v hv
    obtain ⟨i, -, hi⟩ := List.mem_filterMap.1 hv
    exact List.mem_of_getElem? hi

end Sound

theorem Serves.sound {c d : Client} {requests : List Request} {replies : List Reply}
    (h : Serves c requests replies d) (hc : c.Sound) : d.Sound := by
  induction h with
  | nil c => exact hc
  | cons hs _ ih =>
    rcases hc.serve _ _ with hr | ⟨reply, d, hr, hd⟩
    · rw [hr] at hs
      cases hs
    · rw [hr] at hs
      cases hs
      exact ih hd

end Client

end UniformScript
