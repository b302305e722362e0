import UniformScript.Proofs.Session.Unspanned
import UniformScript.Proofs.Syntax.RoundTrip

/-!
# Running the canonical text

A program and its canonical text are run in two new sessions.  If no call has a call as its callee,
the canonical text holds the same program up to spans, and both sessions tell the same.

The condition is needed.  The canonical text of a call of a call has no parentheses around the
callee, and the second list of arguments is not read as part of the statement then, but behind what
is around it: behind a rebinding, say, whose value is the first call alone.

* `told_run_canonical`: programs without such calls.
* `told_run_canonical_curried`: a program with one, whose canonical text is another program.
-/

namespace UniformScript.Session

/-- What a run tells, and the world after it. -/
def told (r : Except Stop (Answer × Session)) :
    Except Stop (Option (Except (ErrorKind × String) (List String)) × Host) :=
  r.map fun (answer, s) => (answer.told, s.machine.host)

theorem told_plainRun (r : Except Stop (Answer × Session)) : told (plainRun r) = told r := by
  cases r with
  | error stop => rfl
  | ok r => exact congrArg (fun t => Except.ok (t, r.2.machine.host)) r.1.told_unspanned

/-- Canonical text keeps its meaning.  A program in which no call has a call as its callee is run
in a new session, and its canonical text in another one, in any world.  Either both runs end or
neither does, within any bound; they tell the same values, or the same failure, and leave the same
world. -/
theorem told_run_canonical {source : Source} {p : Program} (h : Program.read source = .ok p)
    (hcallees : p.PlainCallees) (name : String) (host : Host) (n : Nat) :
    told ((start true host).run n ⟨name, p.canonical⟩) =
      told ((start true host).run n source) := by
  obtain ⟨q, hq, hsame⟩ := read_canonical_of_wellFormed (wellFormed_of_read h) hcallees name
  have hstatements : unspannedAll q.statements = unspannedAll p.statements :=
    congrArg Program.statements hsame
  have hruns : plainRun ((start true host).runKeeping [] n ⟨name, p.canonical⟩) =
      plainRun ((start true host).runKeeping [] n source) :=
    runKeeping_unspanned_eq rfl rfl hq h hstatements n
  change told ((start true host).runKeeping [] n ⟨name, p.canonical⟩) =
    told ((start true host).runKeeping [] n source)
  rw [← told_plainRun, hruns, told_plainRun]

/-- A line is read, printed in a block, and called, which fails. -/
theorem told_run_canonical_capture :
    let host := Host.start .script ["a"] (Host.listed [])
    let source : Source := ⟨"<stdin>", "push x => capture(\"? \")\nif x do\n print(x)\nfin\nx()"⟩
    ∃ p, Program.read source = .ok p ∧ p.PlainCallees ∧
      (told ((start true host).run 50 source)).map (fun t => (t.1, t.2.log.toList)) =
        .ok (some (.error (.runtime .notCallable, "String is not callable")),
          [.prompted "? ", .printed "a"]) ∧
      told ((start true host).run 50 ⟨"<text>", p.canonical⟩) =
        told ((start true host).run 50 source) := by
  intro host source
  have hcheck :
      (Program.read source).toOption.map (fun p => decide p.PlainCallees) = some true := by
    decide +kernel
  have htold : (told ((start true host).run 50 source)).map (fun t => (t.1, t.2.log.toList)) =
      .ok (some (.error (.runtime .notCallable, "String is not callable")),
        [.prompted "? ", .printed "a"]) := by decide +kernel
  cases h : Program.read source with
  | error failure =>
    rw [h] at hcheck
    cases hcheck
  | ok p =>
    rw [h] at hcheck
    have hcallees : p.PlainCallees := of_decide_eq_true (Option.some.inj hcheck)
    exact ⟨p, rfl, hcallees, htold, told_run_canonical h hcallees "<text>" host 50⟩

/-- The value of a rebinding is a call of a call.  In the canonical text the second list of
arguments stands behind the first one, and is read as arguments of the rebinding: the name is bound
to the function that the first call gives, and not to what the second one gives. -/
theorem told_run_canonical_curried :
    let host := Host.start .script [] (Host.listed [])
    let source : Source :=
      ⟨"<test>", "define f(x) => define(y) => y\npush z => \"\"\nz => (f(\"a\"))(\"b\")\nz"⟩
    let canonical : Source :=
      ⟨"<test>", "(define f(x) => (define (y) => y))\n(push z => \"\")\n(z => f(\"a\")(\"b\"))\nz"⟩
    (∃ p q, Program.read source = .ok p ∧ p.canonical = canonical.text ∧
      Program.read canonical = .ok q) ∧
    (told ((start true host).run 50 source)).map Prod.fst =
      .ok (some (.ok ["<function f>", "\"\"", "\"b\"", "\"b\""])) ∧
    (told ((start true host).run 50 canonical)).map Prod.fst =
      .ok (some (.ok ["<function f>", "\"\"", "\"b\"", "<function <anonymous>>"])) := by
  intro host source canonical
  refine ⟨?_, by decide +kernel, by decide +kernel⟩
  have htext : (Program.read source).toOption.map Program.canonical = some canonical.text := by
    decide +kernel
  have hread : (Program.read canonical).isOk = true := by decide +kernel
  cases h : Program.read source with
  | error failure =>
    rw [h] at htext
    cases htext
  | ok p =>
    rw [h] at htext
    cases hq : Program.read canonical with
    | error failure =>
      rw [hq] at hread
      cases hread
    | ok q => exact ⟨p, q, rfl, Option.some.inj htext, rfl⟩

end UniformScript.Session
