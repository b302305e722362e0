import UniformScript.Proofs.Eval.Drawn
import UniformScript.Proofs.Session.Client
import UniformScript.Proofs.Syntax.Viable

/-!
# Errors are about real parts of sources

Whatever stops a program that a session runs: the report points into the text of a source that was
run, this one or an earlier one, and so do all places that the list of active calls mentions.  A
failure of the scanner is about the characters it has in front of it, one of the parser about a
token, and one at run time about an expression, which may come from the body of a function that an
earlier source defines.

* `WrittenIn`: the expressions of the programs that were run.
* `Serves.drawn`: no other code is ever bound in the frames of a session.
* `reported_in_sources`: the result for all failures.
-/

namespace UniformScript

open Arena Eval

variable {requests : List Request} {replies : List Reply} {source : Source}

/-- The expression is a part of a program that was to be run. -/
def WrittenIn (requests : List Request) (e : Expr) : Prop :=
  ∃ source p, Request.run source ∈ requests ∧ Program.read source = .ok p ∧ e ∈ p.parts

/-- The place is coherent with the text of a source that was to be run. -/
def Position.InRun (requests : List Request) (p : Position) : Prop :=
  Request.run p.source ∈ requests ∧ p.Coherent

namespace WrittenIn

variable {e : Expr}

theorem covers (h : WrittenIn requests e) :
    Request.run e.span.start.source ∈ requests ∧ e.span.Coherent := by
  obtain ⟨source, p, hrun, hread, he⟩ := h
  obtain ⟨hcoherent, rfl⟩ := covers_of_read hread e he
  exact ⟨hrun, hcoherent⟩

theorem inRun (h : WrittenIn requests e) : e.span.start.InRun requests :=
  ⟨h.covers.1, h.covers.2.start⟩

end WrittenIn

theorem writtenIn_of_read {p : Program} (hread : Program.read source = .ok p)
    (hrun : Request.run source ∈ requests) : ThroughoutAll (WrittenIn requests) p.statements :=
  (throughoutAll_iff p.statements).2 fun _ he => ⟨source, p, hrun, hread, he⟩

/-! ## Failures before a program runs -/

/-- A parser fails at a token, and each token covers a part of the source. -/
theorem coherent_of_read_error {failure : Failure} (h : Program.read source = .error failure) :
    failure.report.calls = [] ∧ failure.report.span.start.source = source ∧
      failure.report.span.Coherent := by
  unfold Program.read at h
  cases hscan : Token.scan source with
  | error f =>
    simp only [hscan] at h
    cases h
    obtain ⟨hcoherent, hsource⟩ := Token.coherent_of_scan_error hscan
    exact ⟨rfl, hsource, hcoherent⟩
  | ok tokens =>
    simp only [hscan] at h
    cases hparse : Syntax.parse tokens with
    | error f =>
      simp only [hparse] at h
      cases h
      obtain ⟨k, hk, hspan, -⟩ := Syntax.parse_viable_prefix hscan hparse
      have hbetween := (Token.spread_of_scan hscan).between _ (List.getElem_mem hk)
      rw [hspan] at hbetween
      exact ⟨rfl, hbetween.source_eq, hbetween.coherent⟩
    | ok p =>
      simp only [hparse] at h
      cases h

namespace Client

variable {c d : Client} {n : Nat} {P : Expr → Prop}

/-! ## What frames hold between runs -/

theorem drawn_start (reclaiming : Bool) (host : Host) : (start reclaiming host).arena.Drawn P := by
  intro i f hf b hb
  obtain ⟨-, rfl⟩ := frame_start_iff.1 hf
  exact Value.drawn_of_handles (handles_globals b hb)

theorem drawn_root (c : Client) : c.root.Drawn P := fun _ h => nomatch h

/-- Running a source binds no code but that of its program and what was bound before. -/
theorem Ran.drawn {answer : Answer} {s : Session} (h : Ran c n source answer s)
    (hc : c.arena.Drawn P)
    (hP : ∀ p, Program.read source = .ok p → ThroughoutAll P p.statements) :
    s.machine.arena.Drawn P := by
  have draws {p : Program} (hread : Program.read source = .ok p) :
      Draws P (fun vs => vs) (evalAll n c.root p.statements) :=
    draws_run n (.all p.statements) c.root (drawn_root c) ⟨hP p hread, nofun⟩
  cases h with
  | blank _ => exact hc
  | unread _ => exact hc
  | values hread hend hcollect =>
    exact ((draws hread).value hc hend).1.thin (thinned_collect hcollect)
  | raised hread hend hcollect =>
    exact ((draws hread).raised hc hend).1.thin (thinned_collect hcollect)

/-- So does every other request. -/
theorem drawn_of_serve {request : Request} {reply : Reply} (h : c.serve n request = .ok (reply, d))
    (hc : c.arena.Drawn P)
    (hP : ∀ source, request = .run source →
      ∀ p, Program.read source = .ok p → ThroughoutAll P p.statements) : d.arena.Drawn P := by
  cases request with
  | run source =>
    obtain ⟨answer, rfl, -⟩ := exists_answer_of_serve_run h
    exact (ran_of_serve h).drawn hc (hP source rfl)
  | _ =>
    cases h
    exact hc

/-- In the frames of a session no code is bound but that of the sources run so far. -/
theorem Serves.drawn (h : Serves c requests replies d) (hc : c.arena.Drawn P)
    (hP : ∀ source, .run source ∈ requests →
      ∀ p, Program.read source = .ok p → ThroughoutAll P p.statements) : d.arena.Drawn P := by
  induction h with
  | nil c => exact hc
  | cons hserve _ ih =>
    refine ih (drawn_of_serve hserve hc ?_) fun source hrun => hP source (.tail _ hrun)
    rintro source rfl
    exact hP source (.head _)

theorem Serves.writtenIn {reclaiming : Bool} {host : Host} {more : List Request}
    (h : Serves (start reclaiming host) requests replies c) (hsub : requests ⊆ more) :
    c.arena.Drawn (WrittenIn more) :=
  h.drawn (drawn_start reclaiming host) fun _ hrun _ hread => writtenIn_of_read hread (hsub hrun)

/-! ## Reports -/

/-- Every error that a run returns is about a part of a source that was run.  The two ends of the
part are coherent with the text, and the excerpt begins with the row on which the part starts,
without its tabs, and a row of carets; each place that the list of active calls mentions is
coherent with the text of a source that was run, too. -/
theorem reported_in_sources {reclaiming : Bool} {host : Host}
    (h : Serves (start reclaiming host) requests replies c) {failure : Failure}
    (hrun : c.serve n (.run source) = .ok (.answer (.failed failure), d)) :
    let r := failure.report
    Request.run r.span.start.source ∈ requests ++ [.run source] ∧ r.span.Coherent ∧
      (∃ row last more,
        (Excerpt.rows r.span.start.source.text.toList)[r.span.start.line]? = some row ∧
        Excerpt.ofSpan r.span = String.intercalate "\n"
          ((row.filter (· ≠ '\t') :: Excerpt.caretRow r.span.start.column last :: more).map
            String.ofList)) ∧
      ∀ place ∈ some r.span.start :: r.calls.map Activation.entry,
        ∃ p : Position, place = some p ∧ p.InRun (requests ++ [.run source]) := by
  intro r
  have hmem : Request.run source ∈ requests ++ [.run source] :=
    List.mem_append_right _ List.mem_cons_self
  -- it is enough to know the part that the error is about, and the calls
  suffices hspan : Request.run r.span.start.source ∈ requests ++ [.run source] ∧ r.span.Coherent ∧
      ∀ call ∈ r.calls, call.Drawn (WrittenIn (requests ++ [.run source])) by
    obtain ⟨hsource, hcoherent, hcalls⟩ := hspan
    refine ⟨hsource, hcoherent, Excerpt.ofSpan_eq hcoherent.start, List.forall_mem_cons.2
      ⟨⟨_, rfl, hsource, hcoherent.start⟩, List.forall_mem_map.2 fun call hcall => ?_⟩⟩
    obtain ⟨e, he, hentry⟩ := hcalls call hcall
    exact ⟨_, hentry, he.inRun⟩
  have hc : c.arena.Drawn (WrittenIn (requests ++ [.run source])) :=
    h.writtenIn (List.subset_append_left _ _)
  have hran := ran_of_serve hrun
  generalize d.session = s at hran
  cases hran with
  | unread hread =>
    obtain ⟨hcalls, hsource, hcoherent⟩ := coherent_of_read_error hread
    refine ⟨hsource ▸ hmem, hcoherent, fun call hcall => ?_⟩
    rw [hcalls] at hcall
    cases hcall
  | @raised p failure m b hread hend _ =>
    have hdraws : Draws (WrittenIn (requests ++ [.run source])) (fun vs => vs)
        (evalAll n c.root p.statements) :=
      draws_run n (.all p.statements) c.root (drawn_root c) ⟨writtenIn_of_read hread hmem, nofun⟩
    obtain ⟨⟨e, he, hspan⟩, hcalls⟩ := (hdraws.raised hc hend).2
    have hcovers := he.covers
    rw [hspan] at hcovers
    exact ⟨hcovers.1, hcovers.2, hcalls⟩

/-- A function that the second source calls fails; the report points into the first source, which
defines it, and to the place of the call in the second one. -/
theorem reported_in_sources_called :
    let c := start true (Host.start .script [] (Host.listed []))
    let first : Source := ⟨"a.uni", "define f() => y"⟩
    let second : Source := ⟨"b.uni", "\nf()"⟩
    ∃ reply d failure e, Serves c [.run first] [reply] d ∧
      d.serve 50 (.run second) = .ok (.answer (.failed failure), e) ∧
      failure.report.span = ⟨⟨first, 14, 0, 14⟩, ⟨first, 15, 0, 15⟩⟩ ∧
      failure.report.calls = [⟨"f", some ⟨second, 1, 1, 0⟩⟩] ∧
      failure.report.span.Coherent ∧
      Position.InRun ([.run first] ++ [.run second]) ⟨second, 1, 1, 0⟩ := by
  intro c first second
  have hcheck : (c.serve 50 (.run first)).toOption.bind (fun r =>
      (r.2.serve 50 (.run second)).toOption.bind fun r' => r'.1.failure?.map fun failure =>
        (failure.report.span, failure.report.calls)) =
      some (⟨⟨first, 14, 0, 14⟩, ⟨first, 15, 0, 15⟩⟩, [⟨"f", some ⟨second, 1, 1, 0⟩⟩]) := by
    decide +kernel
  obtain ⟨⟨reply, d⟩, hserve, hcheck⟩ := Option.bind_eq_some_iff.1 hcheck
  obtain ⟨⟨reply', e⟩, hserve', hcheck⟩ := Option.bind_eq_some_iff.1 hcheck
  obtain ⟨failure, hfailure, hvalues⟩ := Option.map_eq_some_iff.1 hcheck
  obtain rfl : reply' = _ := Reply.eq_failed_of_failure? hfailure
  have hserve' := ok_of_toOption hserve'
  obtain ⟨hspan, hcalls⟩ := Prod.mk.inj hvalues
  have hserves : Serves c [.run first] [reply] d := .cons (ok_of_toOption hserve) (.nil d)
  obtain ⟨-, hcoherent, -, hplaces⟩ := reported_in_sources hserves hserve'
  obtain ⟨p, hp, hin⟩ := hplaces (some ⟨second, 1, 1, 0⟩) (by simp [hcalls])
  cases hp
  exact ⟨reply, d, failure, e, hserves, hserve', hspan, hcalls, hcoherent, hin⟩

end Client

end UniformScript
