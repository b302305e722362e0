import UniformScript.Proofs.Eval.Unspanned
import UniformScript.Proofs.Session.Client
import UniformScript.Proofs.Syntax.Programs

/-!
# Sessions look at no span

Two sessions that are the same but for spans run two sources that hold the same program up to
spans.  They give the same answer, but for spans, and are the same again; in particular they have
written the same and shown the same prompts.

* `Answer.told`: what an answer tells about values and failures.
* `runKeeping_unspanned_eq`: the two runs.
-/

namespace UniformScript

open Arena Eval

/-! ## Answers and sessions without spans -/

/-- The failure without its place and without the active calls. -/
def Failure.unspanned : Failure → Failure
  | lexical f => lexical ⟨f.cause, default⟩
  | syntactic f => syntactic ⟨f.cause, default⟩
  | runtime f => runtime ⟨f.cause, default, []⟩

/-- The answer without spans. -/
def Answer.unspanned : Answer → Answer
  | blank => blank
  | values vs => values (Value.unspannedAll vs)
  | failed failure => failed failure.unspanned

/-- What an answer tells: nothing for a source of blanks, how the values are shown, or the kind of
a failure and its message. -/
def Answer.told : Answer → Option (Except (ErrorKind × String) (List String))
  | blank => none
  | values vs => some (.ok (Value.shownAll vs))
  | failed failure => some (.error (failure.report.kind, failure.report.details))

theorem Value.shownAll_unspannedAll (vs : List Value) :
    shownAll (unspannedAll vs) = shownAll vs := by
  induction vs with
  | nil => rfl
  | cons v vs ih => exact congrArg₂ List.cons v.shown_unspanned ih

theorem Answer.told_unspanned (a : Answer) : a.unspanned.told = a.told := by
  cases a with
  | blank => rfl
  | values vs =>
    exact congrArg (fun texts => some (Except.ok texts)) (Value.shownAll_unspannedAll vs)
  | failed failure => cases failure <;> rfl

theorem Answer.handlesAll_held_unspanned (a : Answer) :
    Value.handlesAll a.unspanned.held = Value.handlesAll a.held := by
  cases a with
  | values vs => exact Value.handlesAll_unspannedAll vs
  | _ => rfl

namespace Session

/-- The session without spans, and without the number of its runs. -/
def unspanned (s : Session) : Session := ⟨s.machine.unspanned, 0⟩

/-- What a run comes to, without spans. -/
def plainRun (r : Except Stop (Answer × Session)) : Except Stop (Answer × Session) :=
  r.map (Prod.map Answer.unspanned unspanned)

variable {s s' : Session} {kept kept' : List Value} {source source' : Source} {p p' : Program}

theorem arena_unspanned (s : Session) :
    s.unspanned.machine.arena = s.machine.arena.unspanned := rfl

theorem get_unspanned (s : Session) (name : String) :
    s.unspanned.get name = (s.get name).map Value.unspanned := by
  unfold get
  rw [arena_unspanned, Arena.get_unspanned]
  cases s.machine.arena.get 0 name <;> rfl

/-! ## Runs -/

theorem conclude_unspanned (s s' : Session) (o : Outcome (List Value)) :
    plainRun (s.conclude o) =
      (s'.conclude (o.unspanned Value.unspannedAll)).map
        (Prod.map id fun t => ⟨t.machine, 0⟩) := by
  cases o <;> rfl

/-- Only the handles of the values are kept by a collection. -/
theorem collect_congr (s : Session) {held held' : List Value}
    (h : Value.handlesAll held = Value.handlesAll held') : s.collect held = s.collect held' := by
  unfold collect
  rw [h]

theorem collect_unspanned (s : Session) (held : List Value) :
    s.unspanned.collect held = (s.collect held).map unspanned := by
  unfold collect
  rw [arena_unspanned, Arena.collect_unspanned]
  cases s.machine.arena.collect (Value.handlesAll held) <;> rfl

/-- Frees the frames that nothing reaches any more, after an evaluation. -/
def collecting (kept : List Value) (r : Answer × Session) : Except Stop (Answer × Session) := do
  let s ← r.2.collect (r.1.held ++ kept)
  return (r.1, s)

theorem plainRun_collecting (hkept : Value.handlesAll kept = Value.handlesAll kept')
    (r : Answer × Session) : plainRun (collecting kept r) =
      collecting kept' (Prod.map Answer.unspanned unspanned r) := by
  obtain ⟨answer, s⟩ := r
  have hheld : Value.handlesAll (answer.unspanned.held ++ kept') =
      Value.handlesAll (answer.held ++ kept) := by
    rw [handlesAll_append, handlesAll_append, answer.handlesAll_held_unspanned, hkept]
  unfold collecting Prod.map
  simp only [s.unspanned.collect_congr hheld, collect_unspanned]
  cases s.collect (answer.held ++ kept) <;> rfl

/-- Evaluating programs that are the same up to spans. -/
theorem evaluateKeeping_unspanned_eq (hs : s.unspanned = s'.unspanned)
    (hkept : s.machine.arena.reclaiming = true → Value.handlesAll kept = Value.handlesAll kept')
    (hp : unspannedAll p.statements = unspannedAll p'.statements) (n : Nat) :
    plainRun (s.evaluateKeeping kept n p) = plainRun (s'.evaluateKeeping kept' n p') := by
  have hheld (h : s.machine.arena.reclaiming = true) :
      ((Context.root s.runs).holdingAll kept).held =
        ((Context.root s'.runs).holdingAll kept').held :=
    congrArg (· ++ []) (hkept h)
  have hframe : ((Context.root s.runs).holdingAll kept).frame =
      ((Context.root s'.runs).holdingAll kept').frame := rfl
  have hend := evalAll_unspanned_eq n hp hframe hheld (congrArg machine hs)
  show plainRun (s.conclude _) = plainRun (s'.conclude _)
  rw [conclude_unspanned s s, conclude_unspanned s' s, hend]

/-- A source that holds a program is evaluated, and the frames that nothing reaches are freed. -/
theorem runKeeping_of_read (h : Program.read source = .ok p) (s : Session) (kept : List Value)
    (n : Nat) : s.runKeeping kept n source = s.evaluateKeeping kept n p >>= collecting kept := by
  unfold runKeeping
  rw [isBlankText_of_read h, h]
  rfl

/-- Running sources that hold programs which are the same up to spans. -/
theorem runKeeping_unspanned_eq (hs : s.unspanned = s'.unspanned)
    (hkept : Value.handlesAll kept = Value.handlesAll kept') (h : Program.read source = .ok p)
    (h' : Program.read source' = .ok p')
    (hp : unspannedAll p.statements = unspannedAll p'.statements) (n : Nat) :
    plainRun (s.runKeeping kept n source) = plainRun (s'.runKeeping kept' n source') := by
  -- what a run without spans comes to is a function of the evaluation without spans
  have hplain (r : Except Stop (Answer × Session)) {kept : List Value}
      (hk : Value.handlesAll kept = Value.handlesAll kept') :
      plainRun (r >>= collecting kept) = plainRun r >>= collecting kept' := by
    cases r with
    | error stop => rfl
    | ok r => exact plainRun_collecting hk r
  rw [runKeeping_of_read h, runKeeping_of_read h', hplain _ hkept, hplain _ rfl,
    evaluateKeeping_unspanned_eq hs (fun _ => hkept) hp n]

end Session

end UniformScript
