import UniformScript.Arena.Collect
import UniformScript.Host
import UniformScript.Report

/-!
# Steps of evaluation

A step of evaluation changes a `Machine`, the frames and the world around the program.  It ends
with a value, or raises a failure with its cause, its place and the calls that were active.  Two
more endings are kept apart: a fault of the arena, and the bound on the depth of evaluation being
met.

A step runs in a `Context`: the running frame, the run whose program is being evaluated, the
active calls, and the handles on frames held by values that are under way, that is, computed
already and not yet bound or dropped.

* `bind_eq_value_iff` and `bind_eq_raised_iff`: one step after the other ends with a value if both
  do, and fails where the first of them does.
-/

namespace UniformScript

/-! ## Causes of failure -/

/-- Why a program fails. -/
inductive RuntimeCause where
  /-- The name has no binding. -/
  | undefined (name : String)
  /-- The operator is not made for such operands. -/
  | illegalBinary (op : BinaryOp) (left right : ValueType)
  /-- The operator is not made for such an operand. -/
  | illegalUnary (op : UnaryOp) (operand : ValueType)
  /-- The divisor is zero. -/
  | divisionByZero
  /-- A loop counts with something that is no number. -/
  | expectedNumber (actual : ValueType)
  /-- A function is given so many arguments too many. -/
  | tooManyArguments (count : Nat) (function : String)
  /-- A function is given so many arguments too few. -/
  | tooFewArguments (count : Nat) (function : String)
  /-- The called value is no function. -/
  | notCallable (actual : ValueType)
  /-- Only numbers can be rounded. -/
  | cannotRound (actual : ValueType)
  /-- There is no line to read, for the reason given. -/
  | noInput (reason : String)
  deriving DecidableEq, Repr

namespace RuntimeCause

/-- The kind of error a cause belongs to. -/
def kind : RuntimeCause → RuntimeKind
  | undefined _ => .undefinedVariable
  | illegalBinary _ _ _ => .illegalOperation
  | illegalUnary _ _ => .illegalOperation
  | divisionByZero => .divisionByZero
  | expectedNumber _ => .illegalOperation
  | tooManyArguments _ _ => .arityMismatch
  | tooFewArguments _ _ => .arityMismatch
  | notCallable _ => .notCallable
  | cannotRound _ => .illegalOperation
  | noInput _ => .input

/-- The message of a cause. -/
def message : RuntimeCause → String
  | undefined name => "'" ++ name ++ "' is not defined"
  | illegalBinary op left right =>
    "Illegal operation: " ++ left.name ++ " " ++ op.text ++ " " ++ right.name
  | illegalUnary op operand => "Illegal operation: " ++ op.text ++ operand.name
  | divisionByZero => "Division by zero"
  | expectedNumber actual => "Expected a Number, got " ++ actual.name
  | tooManyArguments count function =>
    toString count ++ " too many args passed into '" ++ function ++ "'"
  | tooFewArguments count function =>
    toString count ++ " too few args passed into '" ++ function ++ "'"
  | notCallable actual => actual.name ++ " is not callable"
  | cannotRound actual => "Cannot round a " ++ actual.name
  | noInput reason => "Failed to read input: " ++ reason

end RuntimeCause

/-- A failure of a program. -/
structure RuntimeFailure where
  /-- Why it fails. -/
  cause : RuntimeCause
  /-- The part of the source it is about. -/
  span : Span
  /-- The calls active at the time, the innermost first. -/
  calls : List Activation

namespace Eval

/-! ## Machines and contexts -/

/-- What evaluation changes. -/
structure Machine where
  /-- The frames. -/
  arena : Arena
  /-- The world around the program. -/
  host : Host

/-- In what a step of evaluation runs. -/
structure Context where
  /-- The slot of the running frame. -/
  frame : Nat
  /-- The number of the run whose program is evaluated. -/
  run : Nat
  /-- The active calls, the innermost first. -/
  calls : List Activation
  /-- The handles held by values under way. -/
  held : List Handle

namespace Context

/-- The context of a program's own statements. -/
def root (run : Nat) : Context := ⟨0, run, [], []⟩

/-- The context in which a value is under way. -/
def holding (ctx : Context) (v : Value) : Context := { ctx with held := v.handles ++ ctx.held }

/-- The context in which several values are under way. -/
def holdingAll (ctx : Context) (vs : List Value) : Context :=
  { ctx with held := Value.handlesAll vs ++ ctx.held }

/-- The context of a call that was entered at `entry` and runs in the given frame. -/
def entering (ctx : Context) (name : String) (entry : Position) (frame run : Nat) : Context :=
  ⟨frame, run, ⟨name, some entry⟩ :: ctx.calls, ctx.held⟩

end Context

/-! ## Steps -/

/-- How a step of evaluation ends. -/
inductive Outcome (α : Type) where
  /-- With a value. -/
  | value (a : α) (m : Machine)
  /-- With a failure of the program. -/
  | raised (failure : RuntimeFailure) (m : Machine)
  /-- With a fault of the arena. -/
  | faulted (fault : Fault)
  /-- With the bound on the depth met. -/
  | exhausted

end Eval

/-- A step of evaluation. -/
def Eval (α : Type) : Type := Eval.Machine → Eval.Outcome α

namespace Eval

/-- The step that changes nothing. -/
@[inline] def pure {α : Type} (a : α) : Eval α := fun m => .value a m

/-- One step after the other. -/
@[inline] def bind {α β : Type} (p : Eval α) (f : α → Eval β) : Eval β := fun m =>
  match p m with
  | .value a m' => f a m'
  | .raised failure m' => .raised failure m'
  | .faulted fault => .faulted fault
  | .exhausted => .exhausted

instance : Monad Eval where
  pure := Eval.pure
  bind := Eval.bind

/-- The step that meets the bound on the depth. -/
def exhausted {α : Type} : Eval α := fun _ => .exhausted

/-- The step that fails. -/
def raise {α : Type} (ctx : Context) (cause : RuntimeCause) (span : Span) : Eval α := fun m =>
  .raised ⟨cause, span, ctx.calls⟩ m

/-- The step that meets a fault. -/
def fault {α : Type} (f : Fault) : Eval α := fun _ => .faulted f

/-- Asks the arena. -/
def ask {α : Type} (f : Arena → Except Fault α) : Eval α := fun m =>
  match f m.arena with
  | .ok a => .value a m
  | .error e => .faulted e

/-- Changes the arena. -/
def change {α : Type} (f : Arena → Except Fault (α × Arena)) : Eval α := fun m =>
  match f m.arena with
  | .ok (a, arena) => .value a { m with arena }
  | .error e => .faulted e

/-- Turns to the world. -/
def turn {α : Type} (f : Host → α × Host) : Eval α := fun m =>
  let (a, host) := f m.host
  .value a { m with host }

/-- Binds a name in a frame. -/
def set (frame : Nat) (name : String) (v : Value) : Eval Unit :=
  change fun a => do return ((), ← a.set frame name v)

/-- Binds several names in a frame, in order. -/
def setAll (frame : Nat) : List (String × Value) → Eval Unit
  | [] => Pure.pure ()
  | (name, v) :: rest => do
    set frame name v
    setAll frame rest

/-- Releases a frame after a step, whether it ends with a value or a failure.  The value is under
way then, besides the handles held by others. -/
def releasing (held : List Handle) (frame : Nat) (p : Eval Value) : Eval Value := fun m =>
  match p m with
  | .value v m' =>
    match m'.arena.release (v.handles ++ held) frame with
    | .ok arena => .value v { m' with arena }
    | .error e => .faulted e
  | .raised failure m' =>
    match m'.arena.release held frame with
    | .ok arena => .raised failure { m' with arena }
    | .error e => .faulted e
  | other => other

/-! ### Steps in a row -/

@[simp] theorem pure_apply {α : Type} (a : α) (m : Machine) :
    (Pure.pure a : Eval α) m = .value a m := rfl

theorem bind_eq_value_iff {α β : Type} {p : Eval α} {f : α → Eval β} {m m' : Machine} {b : β} :
    (p >>= f) m = .value b m' ↔ ∃ a m₁, p m = .value a m₁ ∧ f a m₁ = .value b m' := by
  show Eval.bind p f m = _ ↔ _
  unfold Eval.bind
  cases h : p m with
  | value a m₁ =>
    refine ⟨fun h' => ⟨a, m₁, rfl, h'⟩, ?_⟩
    rintro ⟨_, _, h', h''⟩
    cases h'
    exact h''
  | raised failure m₁ => simp
  | faulted fault => simp
  | exhausted => simp

theorem bind_eq_raised_iff {α β : Type} {p : Eval α} {f : α → Eval β} {m m' : Machine}
    {failure : RuntimeFailure} :
    (p >>= f) m = .raised failure m' ↔
      p m = .raised failure m' ∨ ∃ a m₁, p m = .value a m₁ ∧ f a m₁ = .raised failure m' := by
  show Eval.bind p f m = _ ↔ _
  unfold Eval.bind
  cases h : p m with
  | value a m₁ =>
    refine ⟨fun h' => .inr ⟨a, m₁, rfl, h'⟩, ?_⟩
    rintro (h' | ⟨_, _, h', h''⟩)
    · cases h'
    · cases h'
      exact h''
  | raised failure m₁ => simp
  | faulted fault => simp
  | exhausted => simp

end Eval

end UniformScript
