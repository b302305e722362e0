import UniformScript.Value

/-!
# Operations on values

What operators do.  Most are made for two numbers only; addition also joins two texts.  A text can
be compared with anything for equality, and compared with what is no text it is neither equal nor
unequal.  Conjunction and disjunction want two numbers, or a text on the left.
-/

namespace UniformScript

/-- Why an operator has no result. -/
inductive OperationFault where
  /-- The operator is not made for such operands. -/
  | illegal
  /-- The divisor is zero. -/
  | zeroDivisor
  deriving DecidableEq, Repr

namespace Value

/-- The result for two numbers, and for no other operands. -/
def onNumbers (f : Float → Float → Value) : Value → Value → Except OperationFault Value
  | number x, number y => .ok (f x y)
  | _, _ => .error .illegal

/-- The sum of two numbers, or two texts joined. -/
def add : Value → Value → Except OperationFault Value
  | number x, number y => .ok (number (x + y))
  | text s, text t => .ok (text (s ++ t))
  | _, _ => .error .illegal

/-- The quotient of two numbers, of which the second is not zero. -/
def divide : Value → Value → Except OperationFault Value
  | number x, number y => if y == 0 then .error .zeroDivisor else .ok (number (x / y))
  | _, _ => .error .illegal

/-- Equality of two numbers, or of a text and anything. -/
def equal : Value → Value → Except OperationFault Value
  | number x, number y => .ok (truth (x == y))
  | text s, text t => .ok (truth (s == t))
  | text _, _ => .ok (truth false)
  | _, _ => .error .illegal

/-- Inequality of two numbers or two texts; false for a number or text and anything else. -/
def unequal : Value → Value → Except OperationFault Value
  | number x, number y => .ok (truth (x != y))
  | text s, text t => .ok (truth (s != t))
  | text _, _ => .ok (truth false)
  | number _, _ => .ok (truth false)
  | _, _ => .error .illegal

/-- A connective of truth values, for two numbers or for a text and anything. -/
def connect (f : Bool → Bool → Bool) (v w : Value) : Except OperationFault Value :=
  match v, w with
  | number _, number _ => .ok (truth (f v.isTrue w.isTrue))
  | text _, _ => .ok (truth (f v.isTrue w.isTrue))
  | _, _ => .error .illegal

end Value

/-- The result of an operator between two operands. -/
def BinaryOp.apply : BinaryOp → Value → Value → Except OperationFault Value
  | add => Value.add
  | subtract => Value.onNumbers fun x y => .number (x - y)
  | multiply => Value.onNumbers fun x y => .number (x * y)
  | divide => Value.divide
  | power => Value.onNumbers fun x y => .number (x ^ y)
  | equal => Value.equal
  | unequal => Value.unequal
  | less => Value.onNumbers fun x y => .truth (x < y)
  | greater => Value.onNumbers fun x y => .truth (y < x)
  | lessEqual => Value.onNumbers fun x y => .truth (x ≤ y)
  | greaterEqual => Value.onNumbers fun x y => .truth (y ≤ x)
  | conjunction => Value.connect and
  | disjunction => Value.connect or

/-- The result of an operator in front of an operand, which has to be a number. -/
def UnaryOp.apply : UnaryOp → Value → Except OperationFault Value
  | plus, .number x => .ok (.number x)
  | minus, .number x => .ok (.number (x * -1))
  | negation, .number x => .ok (.truth (x == 0))
  | _, _ => .error .illegal

end UniformScript
