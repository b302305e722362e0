import UniformScript.Proofs.Session.Client

/-!
# No frame leaks

Sources can also be evaluated at top level without a collection after each of them, and frames be
collected now and then.  Whatever has been done in this way, a collection leaves no frame of a call
behind unless a value leads to it: one that is bound in the global frame, directly or through other
frames, or one that somebody keeps.  It does not matter how the runs ended, with values or with a
failure at any depth of calls.

* `Idle`: between two runs only the global frame is running.
* `Idle.interpret`, `Idle.serve`, `Idle.collect`: this stays so, and none of them stops for a
  fault.
* `Visited.no_leak`: what a collection leaves behind, and a second one when nothing is kept any
  more.
-/

namespace UniformScript

open Arena Eval

/-- What stopped the program, if anything did. -/
def Answer.failure? : Answer → Option Failure
  | .failed failure => some failure
  | _ => none

namespace Client

/-! ## What can be done between collections -/

/-- The answer to a source that is evaluated at top level, where nothing is collected afterwards;
the values of the answer are kept. -/
def interpret (c : Client) (fuel : Nat) (source : Source) : Except Stop (Answer × Client) :=
  match Program.read source with
  | .error failure => .ok (.failed failure, c)
  | .ok p =>
    match c.session.evaluateKeeping c.kept fuel p with
    | .ok (answer, s) => .ok (answer, ⟨s, answer.held ++ c.kept⟩)
    | .error stop => .error stop

/-- Frees the frames that neither the global frame nor the kept values reach. -/
def collect (c : Client) : Except Stop Client :=
  match c.session.collect c.kept with
  | .ok s => .ok ⟨s, c.kept⟩
  | .error stop => .error stop

/-- The client with another world around the session. -/
def inWorld (c : Client) (host : Host) : Client :=
  ⟨⟨⟨c.arena, host⟩, c.session.runs⟩, c.kept⟩

/-- The client that keeps other values. -/
def keeping (c : Client) (vs : List Value) : Client := ⟨c.session, vs⟩

/-- A client that a new session can come to, in whatever order sources are run, with or without a
collection, values are asked for, kept, taken apart and dropped, frames are collected, and the
world changes in between. -/
inductive Visited (host : Host) : Client → Prop where
  | start : Visited host (start true host)
  | interpret {c d : Client} {fuel : Nat} {source : Source} {answer : Answer} (hc : Visited host c)
    (h : c.interpret fuel source = .ok (answer, d)) : Visited host d
  | serve {c d : Client} {fuel : Nat} {request : Request} {reply : Reply} (hc : Visited host c)
    (h : c.serve fuel request = .ok (reply, d)) : Visited host d
  | collect {c d : Client} (hc : Visited host c) (h : c.collect = .ok d) : Visited host d
  | keeping {c : Client} {vs : List Value} (hc : Visited host c)
    (h : Value.handlesAll vs ⊆ Value.handlesAll c.kept) : Visited host (c.keeping vs)
  | inWorld {c : Client} (hc : Visited host c) (host' : Host) : Visited host (c.inWorld host')

/-! ## Idle clients -/

/-- The handle of the global frame. -/
def globalHandle : Handle := ⟨0, 0⟩

/-- No call is under way. -/
structure Idle (c : Client) : Prop where
  sound : c.Sound
  /-- Only the global frame is running. -/
  running_iff : ∀ h, c.arena.Running h ↔ h = globalHandle

/-- The frames of a client right after a collection. -/
structure Swept (c : Client) : Prop where
  /-- All frames but the global one have been released. -/
  running_iff : ∀ h, c.arena.Running h ↔ h = globalHandle
  /-- The frames that are there are those that the global frame or a kept value leads to. -/
  names_iff : ∀ h, c.arena.Names h ↔
    c.arena.Reached (fun k => k = globalHandle ∨ k ∈ Value.handlesAll c.kept) h

theorem idle_start (host : Host) : (start true host).Idle where
  sound := sound_start host
  running_iff h := by
    constructor
    · rintro ⟨f, hf, hserial, -⟩
      obtain ⟨hindex, rfl⟩ := frame_start_iff.1 hf
      cases h
      simp only at hindex hserial
      rw [hindex, ← hserial]
      rfl
    · rintro rfl
      exact (sound_start host).arena.running_global

namespace Idle

variable {c d : Client} {n : Nat} {source : Source} {answer : Answer}

/-- Without calls under way, a collection looks for frames to keep from the global frame and the
kept values. -/
theorem root_iff (hc : c.Idle) (h : Handle) :
    c.arena.Root (Value.handlesAll c.kept) h ↔
      h = globalHandle ∨ h ∈ Value.handlesAll c.kept := by
  unfold Root
  rw [hc.running_iff]

/-- A collection is carried out, and leaves the frames that are reached. -/
theorem collect (hc : c.Idle) :
    ∃ d, c.collect = .ok d ∧ d.kept = c.kept ∧ d.Idle ∧ d.Swept := by
  obtain ⟨b, hcollected, hb, hsound⟩ := Sound.collect hc.sound.arena hc.sound.names
  have hrunning (h : Handle) : b.Running h ↔ h = globalHandle :=
    hcollected.running_iff.trans (hc.running_iff h)
  refine ⟨⟨c.session.withArena b, c.kept⟩, ?_, rfl, ⟨hsound, hrunning⟩, hrunning, fun h => ?_⟩
  · unfold Client.collect
    rw [hb]
  · have hroot (k : Handle) := (hc.root_iff k).2
    have hback (k : Handle) := (hc.root_iff k).1
    refine (hcollected.names_iff h).trans ((hcollected.reached_iff hroot).trans ?_).symm
    exact ⟨.mono hroot, .mono hback⟩

/-- The evaluation of a program ends with no call under way. -/
theorem evaluate (hc : c.Idle) (n : Nat) (p : Program) :
    c.session.evaluateKeeping c.kept n p = .error .exhausted ∨
      ∃ answer s, c.session.evaluateKeeping c.kept n p = .ok (answer, s) ∧
        Idle ⟨s, answer.held ++ c.kept⟩ := by
  rcases hc.sound.evaluate n p with he | ⟨answer, s, he, hs⟩
  · exact .inl he
  · rcases hc.sound.evaluate_leaves n p with hne | ⟨answer', s', he', hl⟩
    · rw [he] at hne
      cases hne
    · rw [he] at he'
      cases he'
      exact .inr ⟨answer, s, he, hs, fun h => (hl.running_iff h).trans (hc.running_iff h)⟩

/-- A source is evaluated to its end, or as deep as the bound allows. -/
theorem interpret (hc : c.Idle) (n : Nat) (source : Source) :
    c.interpret n source = .error .exhausted ∨
      ∃ answer d, c.interpret n source = .ok (answer, d) ∧ d.Idle := by
  unfold Client.interpret
  cases Program.read source with
  | error failure => exact .inr ⟨_, _, rfl, hc⟩
  | ok p =>
    rcases hc.evaluate n p with he | ⟨answer, s, he, hidle⟩
    · left
      simp only [he]
    · right
      simp only [he]
      exact ⟨_, _, rfl, hidle⟩

/-- Running a source is evaluating it and collecting, unless there is nothing to evaluate. -/
theorem run (hc : c.Idle) (n : Nat) (source : Source) :
    c.session.runKeeping c.kept n source = .error .exhausted ∨
      ∃ answer s, c.session.runKeeping c.kept n source = .ok (answer, s) ∧
        Idle ⟨s, answer.held ++ c.kept⟩ := by
  refine run_of_evaluate hc (hc.evaluate n) (fun {s held} hidle => ?_) source
  obtain ⟨b, hcollected, hb, hsound⟩ := Sound.collect hidle.sound.arena hidle.sound.names
  exact ⟨b, hb, hsound, fun h => hcollected.running_iff.trans (hidle.running_iff h)⟩

/-- A request is replied to, unless the bound on the depth is met, and no call is under way. -/
theorem serve (hc : c.Idle) (n : Nat) (request : Request) :
    c.serve n request = .error .exhausted ∨
      ∃ reply d, c.serve n request = .ok (reply, d) ∧ d.Idle := by
  cases request with
  | run source =>
    unfold Client.serve
    rcases hc.run n source with hr | ⟨answer, s, hr, hidle⟩
    · left
      simp only [hr]
    · right
      simp only [hr]
      exact ⟨_, _, rfl, hidle⟩
  | get name =>
    rcases hc.sound.serve n (.get name) with hr | ⟨reply, d, hr, hsound⟩
    · cases hr
    · cases hr
      exact .inr ⟨_, _, rfl, hsound, hc.running_iff⟩
  | compare name other => exact .inr ⟨_, _, rfl, hc⟩
  | compareKept i j => exact .inr ⟨_, _, rfl, hc⟩
  | keep positions =>
    rcases hc.sound.serve n (.keep positions) with hr | ⟨reply, d, hr, hsound⟩
    · cases hr
    · cases hr
      exact .inr ⟨_, _, rfl, hsound, hc.running_iff⟩

/-- The kept values can be any whose functions are among those of the values kept before. -/
theorem keeping (hc : c.Idle) {vs : List Value}
    (h : Value.handlesAll vs ⊆ Value.handlesAll c.kept) : (c.keeping vs).Idle where
  sound := ⟨hc.sound.arena, fun k hk => hc.sound.names k (h hk)⟩
  running_iff := hc.running_iff

theorem inWorld (hc : c.Idle) (host : Host) : (c.inWorld host).Idle where
  sound := ⟨hc.sound.arena, hc.sound.names⟩
  running_iff := hc.running_iff

end Idle

/-- Whatever has been done, no call is under way. -/
theorem Visited.idle {host : Host} {c : Client} (hc : Visited host c) : c.Idle := by
  induction hc with
  | start => exact idle_start host
  | interpret _ h ih =>
    rcases ih.interpret _ _ with hr | ⟨answer, d, hr, hidle⟩
    · rw [hr] at h
      cases h
    · rw [hr] at h
      cases h
      exact hidle
  | serve _ h ih =>
    rcases ih.serve _ _ with hr | ⟨reply, d, hr, hidle⟩
    · rw [hr] at h
      cases h
    · rw [hr] at h
      cases h
      exact hidle
  | collect _ h ih =>
    obtain ⟨d, hd, -, hidle, -⟩ := ih.collect
    rw [hd] at h
    cases h
    exact hidle
  | keeping _ h ih => exact ih.keeping h
  | inWorld _ host' ih => exact ih.inWorld host'

/-- No frame leaks.  Whatever sources have been run so far and however they ended, the next one is
evaluated without a fault; and a collection leaves the global frame as the only one that has not
been released, and as frames exactly those that the global frame or a kept value leads to.  When
the kept values are dropped, another collection leaves exactly those that the global frame leads
to. -/
theorem Visited.no_leak {host : Host} {c : Client} (hc : Visited host c) :
    (∀ fuel source, c.interpret fuel source = .error .exhausted ∨
      ∃ answer d, c.interpret fuel source = .ok (answer, d)) ∧
    ∃ d, c.collect = .ok d ∧ d.kept = c.kept ∧ d.Swept ∧
      ∃ e, (d.keeping []).collect = .ok e ∧ e.Swept ∧
        ∀ h, e.arena.Names h ↔ e.arena.Reached (· = globalHandle) h := by
  refine ⟨fun fuel source => ?_, ?_⟩
  · rcases hc.idle.interpret fuel source with hr | ⟨answer, d, hr, -⟩
    · exact .inl hr
    · exact .inr ⟨answer, d, hr⟩
  · obtain ⟨d, hd, hkept, hidle, hswept⟩ := hc.idle.collect
    have hdropped : (d.keeping []).Idle := hidle.keeping (List.nil_subset _)
    obtain ⟨e, he, hnone, -, hswept'⟩ := hdropped.collect
    refine ⟨d, hd, hkept, hswept, e, he, hswept', fun h => (hswept'.names_iff h).trans ?_⟩
    have hroot (k : Handle) :
        k = globalHandle ∨ k ∈ Value.handlesAll e.kept ↔ k = globalHandle := by
      rw [hnone]
      exact or_iff_left List.not_mem_nil
    exact ⟨.mono fun k => (hroot k).1, .mono fun k => (hroot k).2⟩

/-- A call of an anonymous function fails; another such function is bound to a name, and a third
one is kept.  The first collection frees the frame that the failed call left behind, and the second
one the frame of the function that is kept no more. -/
theorem no_leak_failed_call :
    let host := Host.start .script [] (Host.listed [])
    let failing : Source := ⟨"<stdin>",
      "define f(n) => define(x) => missing\npush g => f(\"a\")\n(f(\"b\"))(\"c\")"⟩
    ∃ failure b c d e, (start true host).interpret 50 failing = .ok (.failed failure, b) ∧
      (∃ answer, b.interpret 50 ⟨"<stdin>", "f(\"d\")"⟩ = .ok (answer, c)) ∧
      c.collect = .ok d ∧ d.Swept ∧ (d.keeping []).collect = .ok e ∧ e.Swept ∧
      c.session.liveFrames = 4 ∧ d.session.liveFrames = 3 ∧ e.session.liveFrames = 2 := by
  intro host failing
  have hcounts : ((start true host).interpret 50 failing).toOption.bind (fun r =>
      (r.2.interpret 50 ⟨"<stdin>", "f(\"d\")"⟩).toOption.bind fun r' =>
        r'.2.collect.toOption.bind fun d => (d.keeping []).collect.toOption.map fun e =>
          (r.1.failure?.isSome, r'.2.session.liveFrames, d.session.liveFrames,
            e.session.liveFrames)) = some (true, 4, 3, 2) := by decide +kernel
  obtain ⟨⟨answer, b⟩, hb, hcounts⟩ := Option.bind_eq_some_iff.1 hcounts
  obtain ⟨⟨answer', c⟩, hc, hcounts⟩ := Option.bind_eq_some_iff.1 hcounts
  obtain ⟨d, hd, hcounts⟩ := Option.bind_eq_some_iff.1 hcounts
  obtain ⟨e, he, hcounts⟩ := Option.map_eq_some_iff.1 hcounts
  have hb := ok_of_toOption hb
  have hc := ok_of_toOption hc
  have hvisited : Visited host c := .interpret (.interpret .start hb) hc
  obtain ⟨-, d', hd', -, hswept, e', he', hswept', -⟩ := hvisited.no_leak
  rw [ok_of_toOption hd] at hd'
  cases hd'
  rw [ok_of_toOption he] at he'
  cases he'
  obtain ⟨hfailed, hlive, hlive', hlive''⟩ : _ ∧ _ ∧ _ ∧ _ := by
    simpa only [Prod.mk.injEq] using hcounts
  cases answer with
  | failed failure =>
    exact ⟨failure, b, c, d, e, hb, ⟨answer', hc⟩, ok_of_toOption hd, hswept, ok_of_toOption he,
      hswept', hlive, hlive', hlive''⟩
  | _ => cases hfailed

end Client

end UniformScript
