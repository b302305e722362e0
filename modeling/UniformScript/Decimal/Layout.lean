import UniformScript.Decimal.Shortest

/-!
# Layouts of numbers

How a double is written: which powers of ten are written without an exponent, and the texts of the
doubles that have no digits.  There are two layouts: `literal` for a number in a program text and
`shown` for a number that a program shows.
-/

namespace UniformScript.Decimal

/-- The decisions of a way to write doubles. -/
structure Layout where
  /-- The text of a double that is no number. -/
  notANumber : String
  /-- The text of positive infinity. -/
  infinity : String
  /-- Whether zero keeps its sign. -/
  signedZero : Bool
  /-- Whether the digits with this place of the point are written without an exponent. -/
  positional : Int → Bool

/-- Numbers as a program text has them: never an exponent, and zero keeps its sign. -/
def literal : Layout := ⟨"NaN", "inf", true, fun _ => true⟩

/-- Numbers as a program shows them: an exponent from `10 ^ 21` up and below `10 ^ -6`. -/
def shown : Layout := ⟨"NaN", "Infinity", false, fun point => -6 < point && point < 22⟩

/-- Digits with the point in its place, and zeros where digits are missing. -/
def Digits.positional (d : Digits) : List Char :=
  if d.point ≤ 0 then '0' :: '.' :: (List.replicate (-d.point).toNat '0' ++ d.digits)
  else
    let whole := d.point.toNat
    if d.digits.length ≤ whole then d.digits ++ List.replicate (whole - d.digits.length) '0'
    else d.digits.take whole ++ '.' :: d.digits.drop whole

/-- Digits with the point behind the first one, and the exponent with its sign. -/
def Digits.scientific (d : Digits) : List Char :=
  let exponent := d.point - 1
  let sign := if exponent < 0 then ['-'] else ['+']
  let fraction := if d.digits.length ≤ 1 then [] else '.' :: d.digits.drop 1
  d.digits.take 1 ++ fraction ++ 'e' :: sign ++ Nat.toDigits 10 exponent.natAbs

/-- The text of a double in a layout. -/
def Layout.write (layout : Layout) (x : Float) : String :=
  if x.isNaN then layout.notANumber
  else
    let magnitude :=
      if x.isInf then layout.infinity
      else if x == 0 then "0"
      else
        let digits := (Binary.ofFloat x).shortest
        String.ofList
          (if layout.positional digits.point then digits.positional else digits.scientific)
    if hasMinus x && (layout.signedZero || x != 0) then "-" ++ magnitude else magnitude

/-- The value of a run of digits. -/
def digitsValue (digits : List Char) : Nat :=
  digits.foldl (fun n c => 10 * n + (c.toNat - '0'.toNat)) 0

/-- The number written with the given digits before and after a point. -/
def ofDigits (whole fraction : List Char) : Float :=
  nearest (digitsValue (whole ++ fraction)) (tenTo fraction.length)

/-- The nearest whole number, a half going up. -/
def roundHalfUp (x : Float) : Float :=
  let rounded := x.round
  if (rounded - x).abs == 0.5 then x.ceil else rounded

end UniformScript.Decimal
