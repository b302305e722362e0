import UniformScript.Proofs.Eval.Mirrored
import UniformScript.Proofs.Session.Client

/-!
# Freeing frames cannot be noticed

Two clients send the same requests, one to a session whose arena frees frames and uses their slots
again, the other to a session that keeps every frame it has ever pushed.  They get the same
replies: the same values, but for the slots of the frames, the same failures, the same answers
about equality; and the world has seen the same lines and prompts.  Where one of the two has no
answer because the bound on the depth is met, the other has none either.

* `Paired.serve`: one request sent to both.
* `Serves.paired`: one request after the other.
* `reclaiming_invisible`: the replies to both clients, from the start.
-/

namespace UniformScript

open Arena Eval

/-- The answer with its values settled. -/
def Answer.settled : Answer → Answer
  | blank => blank
  | values vs => values (Value.settledAll vs)
  | failed failure => failed failure

/-- The reply with its values settled. -/
def Reply.settled : Reply → Reply
  | answer a => answer a.settled
  | found v => found (v.map Value.settled)
  | truth b => truth b
  | done => done

theorem Answer.held_settled (a : Answer) : a.settled.held = Value.settledAll a.held := by
  cases a <;> rfl

theorem globals_settled : Bindings.settled globals = globals := rfl

namespace Client

variable {c c' d : Client}

/-- The second client has a session whose arena is the mirror, and has kept the same values. -/
structure Paired (c c' : Client) : Prop where
  sound : c.Sound
  mirrors : c.session.machine.Mirrors c'.session.machine
  runs : c'.session.runs = c.session.runs
  kept : c'.kept = Value.settledAll c.kept

theorem paired_start (host : Host) : Paired (start true host) (start false host) :=
  ⟨sound_start host, ⟨mirrors_start globals_settled, rfl⟩, rfl, rfl⟩

namespace Paired

theorem beside (hp : Paired c c') :
    Beside c.root c.session.machine c'.root c'.session.machine where
  fits := hp.sound.fits
  mirrors := hp.mirrors
  running := hp.sound.arena.running_global
  run := hp.runs
  calls := rfl

/-- Evaluating a program in both sessions. -/
theorem evaluate (hp : Paired c c') (n : Nat) (p : Program) :
    (c.session.evaluateKeeping c.kept n p = .error .exhausted ∧
      c'.session.evaluateKeeping c'.kept n p = .error .exhausted) ∨
    ∃ answer s s', c.session.evaluateKeeping c.kept n p = .ok (answer, s) ∧
      c'.session.evaluateKeeping c'.kept n p = .ok (answer.settled, s') ∧
      s.machine.Mirrors s'.machine ∧ s'.runs = s.runs := by
  have hend : Reflects Value.settledAll (evalAll n c.root p.statements c.session.machine)
      (evalAll n c'.root p.statements c'.session.machine) :=
    reflectsAt n (.all p.statements) _ _ _ _ hp.beside trivial
  rw [evaluateKeeping_eq, evaluateKeeping_eq]
  generalize evalAll n c.root p.statements c.session.machine = o at hend
  generalize evalAll n c'.root p.statements c'.session.machine = o' at hend
  have hruns : c'.session.runs + 1 = c.session.runs + 1 := congrArg (· + 1) hp.runs
  cases hend with
  | value vs hm => exact .inr ⟨_, _, _, rfl, rfl, hm, hruns⟩
  | raised failure hm => exact .inr ⟨_, _, _, rfl, rfl, hm, hruns⟩
  | exhausted => exact .inl ⟨rfl, rfl⟩

/-- Running a source in both sessions. -/
theorem run (hp : Paired c c') (n : Nat) (source : Source) :
    (c.session.runKeeping c.kept n source = .error .exhausted ∧
      c'.session.runKeeping c'.kept n source = .error .exhausted) ∨
    ∃ answer s s', c.session.runKeeping c.kept n source = .ok (answer, s) ∧
      c'.session.runKeeping c'.kept n source = .ok (answer.settled, s') ∧
      Paired ⟨s, answer.held ++ c.kept⟩ ⟨s', answer.settled.held ++ c'.kept⟩ := by
  unfold Session.runKeeping
  by_cases hblank : Text.isBlankText source.text = true
  · rw [if_pos hblank, if_pos hblank]
    exact .inr ⟨_, _, _, rfl, rfl, hp⟩
  · rw [if_neg hblank, if_neg hblank]
    cases Program.read source with
    | error failure => exact .inr ⟨_, _, _, rfl, rfl, hp⟩
    | ok p =>
      rcases hp.evaluate n p with ⟨he, he'⟩ | ⟨answer, s, s', he, he', hm, hruns⟩
      · left
        simp only [he, he']
        exact ⟨rfl, rfl⟩
      · right
        rcases hp.sound.evaluate n p with hne | ⟨answer₁, s₁, he₁, hs, hnames⟩
        · rw [he] at hne
          cases hne
        rw [he] at he₁
        cases he₁
        obtain ⟨b, hc, hb, hsound⟩ := Sound.collect hs hnames
        have hheld : answer.settled.held ++ c'.kept =
            Value.settledAll (answer.held ++ c.kept) := by
          rw [Value.settledAll_append, Answer.held_settled, hp.kept]
        obtain ⟨hb', hmb⟩ := hm.arena.collect
          (Value.handlesAll (answer.settled.held ++ c'.kept)) hc
        have hcollect : s'.collect (answer.settled.held ++ c'.kept) = .ok s' := by
          unfold Session.collect
          rw [hb']
          rfl
        refine ⟨answer, s.withArena b, s', ?_, ?_, hsound, ⟨hmb, hm.host⟩, hruns, hheld⟩
        · simp only [he, Bind.bind, Except.bind, hb]
          rfl
        · simp only [he', Bind.bind, Except.bind, hcollect]
          rfl

/-- A global name has the same value in both sessions. -/
theorem get (hp : Paired c c') (name : String) :
    c'.session.get name = (c.session.get name).map Value.settled := by
  obtain ⟨f, hf, hserial, -⟩ := hp.sound.arena.global
  obtain ⟨r, hr, hr'⟩ := hp.mirrors.arena.get hp.sound.arena hf name
  rw [hserial] at hr'
  unfold Session.get
  rw [hr, hr']

/-- Two values are as equal as the settled ones. -/
theorem same (hp : Paired c c') {v w : Value} (hv : ∀ h ∈ v.handles, c.arena.Names h)
    (hw : ∀ h ∈ w.handles, c.arena.Names h) : v.settled.same w.settled = v.same w :=
  Value.same_settled v w (hp.sound.arena.alike hv hw)

theorem sameBinding (hp : Paired c c') (name other : String) :
    c'.session.sameBinding name other = c.session.sameBinding name other := by
  unfold Session.sameBinding
  rw [hp.get, hp.get]
  cases hv : c.session.get name with
  | none => cases c.session.get other <;> rfl
  | some v =>
    cases hw : c.session.get other with
    | none => rfl
    | some w => exact hp.same (hp.sound.get name v hv) (hp.sound.get other w hw)

theorem names_kept (hp : Paired c c') {i : Nat} {v : Value} (hv : c.kept[i]? = some v) :
    ∀ h ∈ v.handles, c.arena.Names h := by
  intro h hh
  have hsub : [v] ⊆ c.kept := List.cons_subset.2 ⟨List.mem_of_getElem? hv, List.nil_subset _⟩
  exact hp.sound.names h (handlesAll_subset hsub (List.mem_append_left _ hh))

theorem kept_getElem? (hp : Paired c c') (i : Nat) :
    c'.kept[i]? = c.kept[i]?.map Value.settled := by
  rw [hp.kept, Value.settledAll_eq_map, List.getElem?_map]

theorem sameKept (hp : Paired c c') (i j : Nat) : c'.sameKept i j = c.sameKept i j := by
  unfold Client.sameKept
  rw [hp.kept_getElem?, hp.kept_getElem?]
  cases hv : c.kept[i]? with
  | none => rfl
  | some v =>
    cases hw : c.kept[j]? with
    | none => rfl
    | some w => exact hp.same (hp.names_kept hv) (hp.names_kept hw)

/-- One request sent to both sessions. -/
theorem serve (hp : Paired c c') (n : Nat) (request : Request) :
    (c.serve n request = .error .exhausted ∧ c'.serve n request = .error .exhausted) ∨
    ∃ reply d d', c.serve n request = .ok (reply, d) ∧
      c'.serve n request = .ok (reply.settled, d') ∧ Paired d d' := by
  cases request with
  | run source =>
    unfold Client.serve
    rcases hp.run n source with ⟨hr, hr'⟩ | ⟨answer, s, s', hr, hr', hpair⟩
    · left
      simp only [hr, hr']
      exact ⟨trivial, trivial⟩
    · right
      simp only [hr, hr']
      exact ⟨_, _, _, rfl, rfl, hpair⟩
  | get name =>
    rcases hp.sound.serve n (.get name) with hne | ⟨reply, d, hr, hd⟩
    · cases hne
    cases hr
    refine .inr ⟨.found (c.session.get name), _,
      ⟨c'.session, ((c.session.get name).map Value.settled).toList ++ c'.kept⟩, rfl, ?_, hd,
      hp.mirrors, hp.runs, ?_⟩
    · rw [serve_get, hp.get]
      rfl
    · rw [Value.settledAll_append, Value.settledAll_toList, hp.kept]
  | compare name other =>
    refine .inr ⟨.truth (c.session.sameBinding name other), c, c', rfl, ?_, hp⟩
    rw [serve_compare, hp.sameBinding]
    rfl
  | compareKept i j =>
    refine .inr ⟨.truth (c.sameKept i j), c, c', rfl, ?_, hp⟩
    rw [serve_compareKept, hp.sameKept]
    rfl
  | keep positions =>
    rcases hp.sound.serve n (.keep positions) with hne | ⟨reply, d, hr, hd⟩
    · cases hne
    cases hr
    refine .inr ⟨_, _, _, rfl, rfl, hd, hp.mirrors, hp.runs, ?_⟩
    show List.filterMap (c'.kept[·]?) positions = _
    simp only [hp.kept_getElem?, Value.settledAll_eq_map, List.map_filterMap]

end Paired

/-- The replies to the same requests, one after the other. -/
theorem Serves.paired {requests : List Request} {replies : List Reply}
    (h : Serves c requests replies d) (hp : Paired c c') :
    ∃ d', Serves c' requests (replies.map Reply.settled) d' ∧ Paired d d' := by
  induction h generalizing c' with
  | nil c => exact ⟨c', .nil c', hp⟩
  | cons hs _ ih =>
    rcases hp.serve _ _ with ⟨hr, -⟩ | ⟨reply, d, d', hr, hr', hpair⟩
    · rw [hr] at hs
      cases hs
    · rw [hr] at hs
      cases hs
      obtain ⟨e', hserves, hpair'⟩ := ih hpair
      exact ⟨e', .cons hr' hserves, hpair'⟩

/-- The other way round: the replies of the session that keeps its frames. -/
theorem Serves.exists_paired {requests : List Request} {replies' : List Reply} {d' : Client}
    (h : Serves c' requests replies' d') (hp : Paired c c') :
    ∃ replies d, Serves c requests replies d := by
  induction h generalizing c with
  | nil c' => exact ⟨[], c, .nil c⟩
  | cons hs _ ih =>
    rcases hp.serve _ _ with ⟨-, hr'⟩ | ⟨reply, d, d', hr, hr', hpair⟩
    · rw [hr'] at hs
      cases hs
    · rw [hr'] at hs
      cases hs
      obtain ⟨replies, e, hserves⟩ := ih hpair
      exact ⟨reply :: replies, e, .cons hr hserves⟩

/-- Freeing frames is invisible.  Two new sessions in the same world are sent the same requests;
the one frees frames, the other keeps every frame that has ever been pushed.  If the one has
replies, so has the other, and whatever replies they have are the same once the values are settled;
and the two worlds are the same. -/
theorem reclaiming_invisible (host : Host) (requests : List Request) :
    ((∃ replies c, Serves (start true host) requests replies c) ↔
      ∃ replies' c', Serves (start false host) requests replies' c') ∧
    ∀ {replies replies' : List Reply} {c c' : Client},
      Serves (start true host) requests replies c →
      Serves (start false host) requests replies' c' →
      replies' = replies.map Reply.settled ∧ c'.host = c.host ∧
        c'.session.liveFrames = c'.arena.nextSerial := by
  have hstart := paired_start host
  refine ⟨⟨?_, ?_⟩, ?_⟩
  · rintro ⟨replies, c, hs⟩
    obtain ⟨c', hs', -⟩ := hs.paired hstart
    exact ⟨_, c', hs'⟩
  · rintro ⟨replies', c', hs'⟩
    exact hs'.exists_paired hstart
  · intro replies replies' c c' hs hs'
    obtain ⟨d', hd', hpair⟩ := hs.paired hstart
    obtain ⟨rfl, rfl⟩ := hs'.unique hd'
    refine ⟨rfl, hpair.mirrors.host, ?_⟩
    have hlive := hpair.mirrors.arena.liveCount
    have hnext := hpair.mirrors.arena.nextSerial
    exact hlive.trans hnext.symm

/-- A call frees its frame, and a function is defined in the next one.  Its frame is in slot 1,
which is used again, or in slot 2, if no frame is freed; the function is equal to itself all the
same. -/
theorem reclaiming_invisible_reuse :
    let host := Host.start .script [] (Host.listed [])
    let source : Source := ⟨"<stdin>",
      "define f() => \"a\"\nf()\ndefine g() => define() => \"b\"\npush h => g()"⟩
    let requests : List Request := [.run source, .compare "h" "h"]
    ∃ replies replies' c c', Serves (start true host) requests replies c ∧
      Serves (start false host) requests replies' c' ∧
      c.arena.frames.size = 2 ∧ c'.arena.frames.size = 3 ∧
      replies' = replies.map Reply.settled ∧ c'.host = c.host := by
  intro host source requests
  have hsize : ((start true host).serve 50 (.run source)).toOption.map
      (fun r => r.2.arena.frames.size) = some 2 := by decide +kernel
  have hsize' : ((start false host).serve 50 (.run source)).toOption.map
      (fun r => r.2.arena.frames.size) = some 3 := by decide +kernel
  cases h : (start true host).serve 50 (.run source) with
  | error stop =>
    rw [h] at hsize
    cases hsize
  | ok r =>
    cases h' : (start false host).serve 50 (.run source) with
    | error stop =>
      rw [h'] at hsize'
      cases hsize'
    | ok r' =>
      rw [h] at hsize
      rw [h'] at hsize'
      have hs : Serves (start true host) requests _ r.2 :=
        .cons h (.cons (serve_compare r.2 0 "h" "h") (.nil _))
      have hs' : Serves (start false host) requests _ r'.2 :=
        .cons h' (.cons (serve_compare r'.2 0 "h" "h") (.nil _))
      obtain ⟨hreplies, hhost, -⟩ := (reclaiming_invisible host requests).2 hs hs'
      exact ⟨_, _, _, _, hs, hs', Option.some.inj hsize, Option.some.inj hsize', hreplies, hhost⟩

end Client

end UniformScript
