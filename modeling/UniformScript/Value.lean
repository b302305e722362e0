import UniformScript.Syntax.Expr

/-!
# Values

What expressions evaluate to: numbers, texts, lists, functions and the four built-in functions.
Truth is a number: zero is false, any other number true.

A function remembers the frame it was defined in by a `Handle`.  Frames live in numbered slots that
are used again, so a handle also has the serial number of the frame it was taken on.  Which
definition a function comes from is its `Site`: the program that was run and the place in its text.
-/

namespace UniformScript

/-- A claim on a frame: its slot, and the serial number of the frame in it. -/
structure Handle where
  /-- The slot of the frame. -/
  index : Nat
  /-- The serial number of the frame. -/
  serial : Nat
  deriving DecidableEq, Repr

/-- Where a function is defined: the number of the run and the place in its text. -/
structure Site where
  /-- The number of the run whose program defines the function. -/
  run : Nat
  /-- The characters before the definition. -/
  index : Nat
  deriving DecidableEq, Repr

/-- A function of the program. -/
structure Function where
  /-- Its name, if it has one. -/
  name : Option String
  /-- The names its arguments are bound to. -/
  params : List String
  /-- What a call evaluates. -/
  body : Body
  /-- Where it is defined. -/
  site : Site
  /-- The frame it was defined in, where its free names are looked up. -/
  home : Handle

/-- The name of a function as reports and values show it. -/
def Function.shownName (f : Function) : String := f.name.getD "<anonymous>"

/-- The functions that are bound from the start. -/
inductive Builtin where
  /-- Writes a line. -/
  | print
  /-- Shows a prompt and reads a line. -/
  | capture
  /-- Draws a number from zero up to one. -/
  | random
  /-- Rounds a number, a half going up. -/
  | round
  deriving DecidableEq, Repr

namespace Builtin

/-- All built-in functions. -/
def all : List Builtin := [print, capture, random, round]

/-- The name the function is bound to. -/
def name : Builtin → String
  | print => "print"
  | capture => "capture"
  | random => "random"
  | round => "round"

/-- The names its arguments are bound to. -/
def params : Builtin → List String
  | print => ["data"]
  | capture => ["data"]
  | random => []
  | round => ["val"]

end Builtin

/-- What an expression evaluates to. -/
inductive Value where
  /-- A number, also used for truth. -/
  | number (x : Float)
  /-- A text. -/
  | text (s : String)
  /-- A list. -/
  | list (elements : List Value)
  /-- A function of the program. -/
  | function (f : Function)
  /-- A built-in function. -/
  | builtin (b : Builtin)

/-- The kinds of values. -/
inductive ValueType where
  | number | text | list | function | builtin
  deriving DecidableEq, Repr

/-- The name of a kind of values in messages. -/
def ValueType.name : ValueType → String
  | number => "Number"
  | text => "String"
  | list => "List"
  | function => "Function"
  | builtin => "BuiltinFunction"

namespace Value

/-- The value of what has no value of its own. -/
def null : Value := number 0

/-- The number that stands for a truth value. -/
def truth (b : Bool) : Value := number (if b then 1 else 0)

/-- The double nearest to the ratio of a circle's circumference to its diameter. -/
def pi : Value := number (Float.ofBits 0x400921FB54442D18)

/-- The kind of a value. -/
def type : Value → ValueType
  | number _ => .number
  | text _ => .text
  | list _ => .list
  | function _ => .function
  | builtin _ => .builtin

/-- Whether a value counts as true: every number but zero, every text and list that is not empty,
and every function. -/
def isTrue : Value → Bool
  | number x => x != 0
  | text s => !s.isEmpty
  | list elements => !elements.isEmpty
  | function _ => true
  | builtin _ => true

mutual

/-- How a value is shown. -/
def shown : Value → String
  | number x => Decimal.shown.write x
  | text s => "\"" ++ s ++ "\""
  | list elements => "[" ++ ", ".intercalate (shownAll elements) ++ "]"
  | function f => "<function " ++ f.shownName ++ ">"
  | builtin b => "<built-in function " ++ b.name ++ ">"

/-- How the values of a list are shown. -/
def shownAll : List Value → List String
  | [] => []
  | v :: vs => v.shown :: shownAll vs

end

/-- What printing a value writes: a text as it is, anything else as it is shown. -/
def printed : Value → String
  | text s => s
  | v => v.shown

mutual

/-- Whether two values are equal.  Functions are equal if they come from the same definition and
were defined in the same slot; a number that is no number equals nothing. -/
def same : Value → Value → Bool
  | number x, number y => x == y
  | text s, text t => s == t
  | list vs, list ws => sameAll vs ws
  | function f, function g => f.site == g.site && f.home.index == g.home.index
  | builtin b, builtin c => b == c
  | _, _ => false

/-- Whether two lists have the same length and equal values in the same order. -/
def sameAll : List Value → List Value → Bool
  | [], [] => true
  | v :: vs, w :: ws => v.same w && sameAll vs ws
  | _, _ => false

end

mutual

/-- The handles that the functions in a value hold. -/
def handles : Value → List Handle
  | list elements => handlesAll elements
  | function f => [f.home]
  | _ => []

/-- The handles that the functions in a list of values hold. -/
def handlesAll : List Value → List Handle
  | [] => []
  | v :: vs => v.handles ++ handlesAll vs

end

end Value

end UniformScript
