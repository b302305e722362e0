import UniformScript.Proofs.Eval.Failing
import UniformScript.Proofs.Session.Reported
import UniformScript.Proofs.Session.Secure

/-!
# The list of active calls

The report of a failure at run time lists the calls that are active at the point where the
evaluation fails of its own accord: those it has entered on the way there and not left.  A line
names what is called, and its place is where the next call inside it starts, in the text of the
source that the call was read from; the innermost line has the place of the error itself.

* `reverse_callLines`: the lines, with the names and the places one line apart.
* `ComesIn.drawn`: calls are parts of programs.
* `traceback_active_calls`: the result for all failures at run time.
-/

namespace UniformScript

open Arena Eval

/-- What stopped the program while it ran. -/
def Failure.runtime? : Failure → Option RuntimeFailure
  | .runtime failure => some failure
  | _ => none

theorem Failure.eq_runtime_of_runtime? {stopped : Failure} {failure : RuntimeFailure}
    (h : stopped.runtime? = some failure) : stopped = .runtime failure := by
  cases stopped with
  | runtime f => rw [Option.some.inj h]
  | _ => cases h

/-- The lines for calls, the outermost first: each names one call, the first line the program, and
is placed where the next call starts. -/
theorem Report.reverse_callLines (outer : List ActiveCall) (place : Position) :
    (callLines (some place) (outer.reverse.map ActiveCall.activation)).reverse =
      List.zipWith (fun name p => callLine name (some p))
        (programName :: outer.map ActiveCall.name) (outer.map (·.node.span.start) ++ [place]) := by
  induction outer using List.reverseRecOn generalizing place with
  | nil => rfl
  | append_singleton outer call ih =>
    have hlines : callLines (some place) ((outer ++ [call]).reverse.map ActiveCall.activation) =
        callLine call.name (some place) ::
          callLines (some call.node.span.start) (outer.reverse.map ActiveCall.activation) := by
      simp [callLines, ActiveCall.activation]
    have hlength : (programName :: outer.map ActiveCall.name).length =
        (outer.map (·.node.span.start) ++ [call.node.span.start]).length := by simp
    rw [hlines, List.reverse_cons, ih, List.map_append, List.map_append, ← List.cons_append,
      List.map_singleton, List.map_singleton, List.zipWith_append hlength]
    rfl

namespace Eval

variable {P : Expr → Prop} {p q : Point} {calls : List ActiveCall}

/-- What calls is code of the program or of functions that are bound. -/
theorem ComesIn.drawn (h : ComesIn p calls q) (hp : p.Drawn P) : ∀ call ∈ calls, P call.node := by
  induction h with
  | here => exact nofun
  | part _ _ _ ih => exact ih
  | function hbefore _ _ _ ih =>
    have hcode := (drawn_of_reaches hp hbefore.reaches).task.code
    exact List.forall_mem_cons.2 ⟨Expr.of_throughout hcode, ih⟩
  | builtin hbefore _ _ _ ih =>
    have hcode := (drawn_of_reaches hp hbefore.reaches).task.code
    exact List.forall_mem_cons.2 ⟨Expr.of_throughout hcode, ih⟩

/-- The calls that a failure knows are those entered on the way to the point where it happens. -/
theorem Point.FailsAlone.calls_eq {failure : RuntimeFailure} (hq : q.FailsAlone failure)
    (h : ComesIn p calls q) (hp : p.spot.ctx.calls = []) :
    failure.calls = calls.map ActiveCall.activation := by
  rw [hq.calls, h.calls_eq, hp, List.append_nil]

end Eval

namespace Client

variable {c d : Client} {n : Nat} {requests : List Request} {replies : List Reply}
  {source : Source}

/-- What keeps a program from being read is no failure at run time. -/
theorem not_read_runtime {failure : RuntimeFailure}
    (h : Program.read source = .error (.runtime failure)) : False := by
  unfold Program.read at h
  split at h
  · cases h
  · split at h <;> cases h

theorem entry_drawn {P : Expr → Prop} {p : Program} (hc : c.arena.Drawn P)
    (hp : ThroughoutAll P p.statements) (n : Nat) : (c.entry n p).Drawn P :=
  ⟨drawn_root c, hc, hp, nofun⟩

theorem exists_raised_of_serve {failure : RuntimeFailure}
    (h : c.serve n (.run source) = .ok (.answer (.failed (.runtime failure)), d)) :
    ∃ p m, Program.read source = .ok p ∧
      evalAll n c.root p.statements c.session.machine = .raised failure m := by
  have hran := ran_of_serve h
  generalize d.session = s at hran
  cases hran with
  | unread hread => exact (not_read_runtime hread).elim
  | raised hread hend _ => exact ⟨_, _, hread, hend⟩

/-- The traceback is the stack of active calls.  When a run fails, its evaluation comes to a point
where it fails of its own accord; whatever calls, the outermost first, it has entered on the way to
such a point, the failure is the one reported, and below its header the traceback has a line for
the program and one for each call, the oldest first.  Each call is a part of a program that was
run, and its place is in the source it was read from. -/
theorem traceback_active_calls {host : Host}
    (h : Serves (start true host) requests replies c) {failure : RuntimeFailure}
    (hrun : c.serve n (.run source) = .ok (.answer (.failed (.runtime failure)), d)) :
    ∃ p, Program.read source = .ok p ∧
      (∃ (outer : List ActiveCall) (q : Point),
        ComesIn (c.entry n p) outer.reverse q ∧ q.FailsAlone failure) ∧
      ∀ (outer : List ActiveCall) (q : Point) (failure' : RuntimeFailure),
        ComesIn (c.entry n p) outer.reverse q → q.FailsAlone failure' →
        failure' = failure ∧
        (∃ lines : List String, lines.length = outer.length + 1 ∧
          (Failure.runtime failure).report.traceback =
            "Traceback (most recent call last):\n" ++ String.join lines ∧
          lines = List.zipWith
            (fun name place => "  File " ++ place.source.name ++ ", line " ++
              toString (place.line + 1) ++ ", in " ++ name ++ "\n")
            ("<program>" :: outer.map ActiveCall.name)
            (outer.map (·.node.span.start) ++ [failure.span.start])) ∧
        ∀ call ∈ outer, ∃ read p', Request.run read ∈ requests ++ [.run source] ∧
          Program.read read = .ok p' ∧ call.node ∈ p'.parts ∧
            call.node.span.start.source = read := by
  obtain ⟨p, m, hread, hend⟩ := exists_raised_of_serve hrun
  have inv : (c.entry n p).Invariant := (h.sound (sound_start host)).entry_invariant n p
  have hfails : (c.entry n p).Fails failure := ⟨m, hend⟩
  have hdrawn : (c.entry n p).Drawn (WrittenIn (requests ++ [.run source])) :=
    entry_drawn (h.writtenIn (List.subset_append_left _ _))
      (writtenIn_of_read hread (List.mem_append_right _ List.mem_cons_self)) n
  refine ⟨p, hread, ?_, fun outer q failure' hcomes hq => ?_⟩
  · obtain ⟨q, hreach, hq⟩ := exists_failsAlone inv hfails
    have hentry : ¬ (c.entry n p).task.IsCall := id
    obtain ⟨calls, hcomes, -⟩ := exists_comesIn hentry hreach
    exact ⟨calls.reverse, q, by rwa [List.reverse_reverse], hq⟩
  · obtain rfl := (fails_of_reaches inv hcomes.reaches hq.fails).unique hfails
    refine ⟨rfl, ⟨_, by simp, ?_, rfl⟩, fun call hcall => ?_⟩
    · have hcalls := hq.calls_eq hcomes rfl
      have hlines := Report.reverse_callLines outer failure'.span.start
      rw [← hcalls] at hlines
      exact congrArg
        (fun lines => "Traceback (most recent call last):\n" ++ String.join lines) hlines
    · obtain ⟨read, p', hrun', hread', hnode⟩ :=
        hcomes.drawn hdrawn call (List.mem_reverse.2 hcall)
      exact ⟨read, p', hrun', hread', hnode, (covers_of_read hread' _ hnode).2⟩

/-- No line is left to be read, so a built-in function fails that was called by a function, which
was defined by an earlier source. -/
theorem traceback_active_calls_capture :
    let c := start true (Host.start .script [] (Host.listed []))
    let first : Source := ⟨"a.uni", "\ndefine ask(x) => capture(x)"⟩
    let second : Source := ⟨"b.uni", "ask(\"?\")"⟩
    ∃ reply d failure e p outer q, Serves c [.run first] [reply] d ∧
      d.serve 50 (.run second) = .ok (.answer (.failed (.runtime failure)), e) ∧
      ComesIn (d.entry 50 p) (List.reverse outer) q ∧ q.FailsAlone failure ∧
      outer.map ActiveCall.name = ["ask", "capture"] ∧
      (Failure.runtime failure).report.traceback =
        "Traceback (most recent call last):\n  File b.uni, line 1, in <program>\n" ++
        "  File a.uni, line 2, in ask\n  File a.uni, line 2, in capture\n" := by
  intro c first second
  have hcheck : (c.serve 50 (.run first)).toOption.bind (fun r =>
      (r.2.serve 50 (.run second)).toOption.bind fun r' => r'.1.failure?.bind fun stopped =>
        stopped.runtime?.map fun failure =>
          (failure.calls.map Activation.name, (Failure.runtime failure).report.traceback)) =
      some (["capture", "ask"],
        "Traceback (most recent call last):\n  File b.uni, line 1, in <program>\n" ++
        "  File a.uni, line 2, in ask\n  File a.uni, line 2, in capture\n") := by
    decide +kernel
  obtain ⟨⟨reply, d⟩, hserve, hcheck⟩ := Option.bind_eq_some_iff.1 hcheck
  obtain ⟨⟨reply', e⟩, hserve', hcheck⟩ := Option.bind_eq_some_iff.1 hcheck
  obtain ⟨stopped, hstopped, hcheck⟩ := Option.bind_eq_some_iff.1 hcheck
  obtain ⟨failure, hfailure, hvalues⟩ := Option.map_eq_some_iff.1 hcheck
  obtain rfl : reply' = _ := Reply.eq_failed_of_failure? hstopped
  obtain rfl : stopped = _ := Failure.eq_runtime_of_runtime? hfailure
  have hserve' := ok_of_toOption hserve'
  obtain ⟨hnames, htraceback⟩ := Prod.mk.inj hvalues
  have hserves : Serves c [.run first] [reply] d := .cons (ok_of_toOption hserve) (.nil d)
  obtain ⟨p, -, ⟨outer, q, hcomes, hq⟩, -⟩ := traceback_active_calls hserves hserve'
  refine ⟨reply, d, failure, e, p, outer, q, hserves, hserve', hcomes, hq, ?_, htraceback⟩
  rw [hq.calls_eq hcomes rfl, List.map_map, List.map_reverse] at hnames
  exact List.reverse_injective hnames

end Client

end UniformScript
