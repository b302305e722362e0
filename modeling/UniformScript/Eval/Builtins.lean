import UniformScript.Eval.Machine

/-!
# Calls of built-in functions

A built-in function runs in a frame of its own, without a parent, where its arguments are bound.
The number of arguments is checked before there is a frame, so a call that is refused for it is
never active.
-/

namespace UniformScript.Eval

/-- Refuses a call with too many or too few arguments. -/
def checkArity (ctx : Context) (name : String) (expected given : Nat) (span : Span) : Eval Unit :=
  if expected < given then raise ctx (.tooManyArguments (given - expected) name) span
  else if given < expected then raise ctx (.tooFewArguments (expected - given) name) span
  else Pure.pure ()

/-- The argument that a built-in function was given under a name. -/
def argument (ctx : Context) (name : String) : Eval Value := do
  match ← ask fun a => a.get ctx.frame name with
  | some v => return v
  | none => fault (.unboundArgument name)

/-- Runs a built-in function in its frame. -/
def runBuiltin (ctx : Context) (b : Builtin) (span : Span) : Eval Value := do
  match b with
  | .print =>
    let data ← argument ctx "data"
    turn fun h => ((), h.print data.printed)
    return .null
  | .capture =>
    let data ← argument ctx "data"
    match ← turn fun h => (h.capture data.printed) with
    | some line => return .text line
    | none =>
      let reason ← turn fun h => (h.feed.exhausted, h)
      raise ctx (.noInput reason) span
  | .random => return .number (← turn Host.random)
  | .round =>
    match ← argument ctx "val" with
    | .number x => return .number (Decimal.roundHalfUp x)
    | other => raise ctx (.cannotRound other.type) span

/-- Calls a built-in function. -/
def callBuiltin (ctx : Context) (b : Builtin) (args : List Value) (span : Span) : Eval Value := do
  checkArity ctx b.name b.params.length args.length span
  let frame ← change fun a => a.push none
  setAll frame (b.params.zip args)
  releasing ctx.held frame (runBuiltin (ctx.entering b.name span.start frame ctx.run) b span)

end UniformScript.Eval
