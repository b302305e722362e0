import UniformScript.Eval.Machine
import UniformScript.Syntax.Grammar
import UniformScript.Token.Scan

/-!
# Failures

Everything that can stop a program: its text is no sequence of tokens, its tokens are no program,
or it fails while it runs.  Each failure has a report.
-/

namespace UniformScript

/-- The kind of error a lexical cause belongs to. -/
def Token.LexicalCause.kind : Token.LexicalCause → ErrorKind
  | illegalCharacter _ => .illegalCharacter
  | loneEqual => .expectedCharacter
  | loneBang => .expectedCharacter
  | unclosedQuote => .expectedCharacter

/-- Why a program does not run to its end. -/
inductive Failure where
  /-- Its text is no sequence of tokens. -/
  | lexical (failure : Located Token.LexicalCause)
  /-- Its tokens are no program. -/
  | syntactic (failure : Located Syntax.Expectation)
  /-- It fails while it runs. -/
  | runtime (failure : RuntimeFailure)

/-- What is told about a failure. -/
def Failure.report : Failure → Report
  | lexical f => ⟨f.cause.kind, f.cause.message, f.span, []⟩
  | syntactic f => ⟨.invalidSyntax, f.cause.message, f.span, []⟩
  | runtime f => ⟨.runtime f.cause.kind, f.cause.message, f.span, f.calls⟩

theorem ok_of_toOption {ε α : Type} {x : Except ε α} {a : α} (h : x.toOption = some a) :
    x = .ok a := by
  cases x <;> cases h
  rfl

/-- The program that a source holds. -/
def Program.read (source : Source) : Except Failure Program :=
  match Token.scan source with
  | .error f => .error (.lexical f)
  | .ok tokens =>
    match Syntax.parse tokens with
    | .error f => .error (.syntactic f)
    | .ok p => .ok p

end UniformScript
