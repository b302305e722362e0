/-!
# Binary numbers behind a double

A finite double is a sign and a magnitude `m * 2 ^ q` with natural `m` and integral `q`.  This file
takes a double apart (`Binary.ofFloat`) and makes the double that lies nearest to a quotient of
naturals (`nearest`), both in exact arithmetic on naturals.
-/

namespace UniformScript.Decimal

/-- Two to the power `k`. -/
def twoTo (k : Nat) : Nat := Nat.pow 2 k

/-- Ten to the power `k`. -/
def tenTo (k : Nat) : Nat := Nat.pow 10 k

/-- The magnitude `significand * 2 ^ exponent`. -/
structure Binary where
  /-- The whole number in front. -/
  significand : Nat
  /-- The power of two it is multiplied by. -/
  exponent : Int
  deriving DecidableEq, Repr

/-- The stored fraction of a double: the low fifty-two bits. -/
def fractionBits (x : Float) : Nat := x.toBits.toNat % twoTo 52

/-- The stored exponent of a double: the eleven bits above the fraction. -/
def exponentBits (x : Float) : Nat := x.toBits.toNat / twoTo 52 % twoTo 11

/-- Whether the sign bit of a double is set. -/
def hasMinus (x : Float) : Bool := x.toBits.toNat / twoTo 63 == 1

/-- The magnitude of a finite double.  A stored exponent of zero marks the doubles next to zero,
which have no hidden leading bit. -/
def Binary.ofFloat (x : Float) : Binary :=
  if exponentBits x = 0 then ⟨fractionBits x, -1074⟩
  else ⟨twoTo 52 + fractionBits x, (exponentBits x : Int) - 1075⟩

/-- Whether the next smaller double is half as far away as the next larger one, which happens
where the exponent steps. -/
def Binary.atStep (b : Binary) : Bool := b.significand == twoTo 52 && b.exponent != -1074

/-- The whole number nearest to `num / den`, of two equally near ones the even one. -/
def roundHalfEven (num den : Nat) : Nat :=
  let quotient := num / den
  let twice := 2 * (num % den)
  if twice < den || (twice == den && quotient % 2 == 0) then quotient else quotient + 1

/-- The whole `k` with `2 ^ k ≤ num / den < 2 ^ (k + 1)`, for positive `num` and `den`. -/
def binaryOrder (num den : Nat) : Int :=
  let guess : Int := (num.log2 : Int) - (den.log2 : Int)
  if den * twoTo guess.toNat ≤ num * twoTo (-guess).toNat then guess else guess - 1

/-- The bits of the nonnegative double nearest to `num / den`, of two equally near ones the one
with the even significand; a quotient beyond the largest double gives infinity. -/
def nearestBits (num den : Nat) : Nat :=
  if num = 0 || den = 0 then 0
  else
    let exponent := max (-1074) (binaryOrder num den - 52)
    let significand := roundHalfEven (num * twoTo (-exponent).toNat) (den * twoTo exponent.toNat)
    min (0x7FF * twoTo 52) ((exponent + 1074).toNat * twoTo 52 + significand)

/-- The nonnegative double nearest to `num / den`. -/
def nearest (num den : Nat) : Float := Float.ofBits (UInt64.ofNat (nearestBits num den))

end UniformScript.Decimal
