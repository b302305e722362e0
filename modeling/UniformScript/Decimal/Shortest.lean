import UniformScript.Decimal.Binary

/-!
# Shortest decimal digits

The shortest digits of a double are the fewest decimal digits that read back as that double; among
those of the same count, the nearest to it.  A magnitude `m * 2 ^ q` owns an interval: all the
numbers that are rounded to it.  For one digit, two, and so on up to seventeen, the search looks at
the two points of that decimal grid on either side of the magnitude and takes the first grid with a
point in the interval.  Of two such points the nearer wins, and of two equally near the larger.
-/

namespace UniformScript.Decimal

/-- Decimal digits and the place of the point: the number `0.d₁d₂…dₙ * 10 ^ point`. -/
structure Digits where
  /-- The digits, first the most significant. -/
  digits : List Char
  /-- Where the point stands: how many digits are in front of it. -/
  point : Int
  deriving DecidableEq, Repr

/-- How many zeros follow the point in `num / den`, for `0 < num < den`. -/
def zerosAfterPoint (fuel num den : Nat) : Nat :=
  match fuel with
  | 0 => 0
  | fuel + 1 => if den ≤ 10 * num then 0 else zerosAfterPoint fuel (10 * num) den + 1

/-- The place of the point in `num / den`: the least `e` with `num / den < 10 ^ e`. -/
def pointOf (num den : Nat) : Int :=
  if den ≤ num then (Nat.toDigits 10 (num / den)).length
  else -(zerosAfterPoint den.log2 num den : Int)

/-- The interval of the numbers that round to a magnitude, counted in quarters of the last place;
its ends belong to it only if the significand is even. -/
structure Interval where
  /-- The lower end. -/
  low : Nat
  /-- The magnitude itself. -/
  middle : Nat
  /-- The upper end. -/
  high : Nat
  /-- Whether the ends belong to the interval. -/
  closed : Bool

/-- The interval of a magnitude. -/
def Interval.of (b : Binary) : Interval :=
  { low := 4 * b.significand - (if b.atStep then 1 else 2)
    middle := 4 * b.significand
    high := 4 * b.significand + 2
    closed := b.significand % 2 == 0 }

/-- Whether the point `x / scale` lies in the interval. -/
def Interval.contains (i : Interval) (x scale : Nat) : Bool :=
  if i.closed then i.low * scale ≤ x && x ≤ i.high * scale
  else i.low * scale < x && x < i.high * scale

/-- The point of the grid with step `10 ^ step` that lies in the interval of `b` nearest to its
middle, as a multiple of the step. -/
def gridPoint (b : Binary) (step : Int) : Option Nat :=
  let interval := Interval.of b
  let quarter := b.exponent - 2
  let unit := tenTo step.toNat * twoTo (-quarter).toNat
  let scale := tenTo (-step).toNat * twoTo quarter.toNat
  let below := interval.middle * scale / unit
  let above := below + 1
  let holds := fun k => interval.contains (k * unit) scale
  if holds below && holds above then
    if interval.middle * scale - below * unit < above * unit - interval.middle * scale
    then some below else some above
  else if holds below then some below
  else if holds above then some above
  else none

/-- The digits of `k * 10 ^ step`, without the zeros behind the last other digit. -/
def Digits.ofMultiple (k : Nat) (step : Int) : Digits :=
  let digits := Nat.toDigits 10 k
  ⟨(digits.reverse.dropWhile (· == '0')).reverse, step + digits.length⟩

/-- The first of the grids with `count`, `count + 1`, … digits that has a point in the interval. -/
def searchGrids (b : Binary) (point : Int) (count fuel : Nat) : Digits :=
  match fuel with
  | 0 => Digits.ofMultiple 0 0
  | fuel + 1 =>
    match gridPoint b (point - count) with
    | some k => Digits.ofMultiple k (point - count)
    | none => searchGrids b point (count + 1) fuel

/-- The shortest digits of a positive magnitude; seventeen are always enough. -/
def Binary.shortest (b : Binary) : Digits :=
  let num := b.significand * twoTo b.exponent.toNat
  let den := twoTo (-b.exponent).toNat
  searchGrids b (pointOf num den) 1 17

end UniformScript.Decimal
