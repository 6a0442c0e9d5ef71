import FuzzyInference.Decimal.Shortest

/-!
# Numbers as text

A number is written with the fewest digits that read back as the same number. Where the
point stands, and whether an exponent is used, is a matter of layout.
-/

namespace FuzzyInference.Decimal

/-- How digits become text. -/
structure Layout where
  /-- Whether a number whose first digit counts this power of ten is written without an exponent. -/
  positional : Int → Bool
  /-- What follows the digits of a whole number that is written without an exponent. -/
  wholeEnding : String

/-- A run of zeros. -/
def zeros (n : Nat) : String := String.ofList (List.replicate n '0')

namespace Digits

/-- The power of ten that the first digit counts. -/
def leading (d : Digits) : Int := (Nat.repr d.coefficient).length - 1 + d.exponent

/-- Digits with zeros on either side as needed to reach the point. -/
def positional (d : Digits) (wholeEnding : String) : String :=
  let digits := Nat.repr d.coefficient
  if 0 ≤ d.exponent then digits ++ zeros d.exponent.toNat ++ wholeEnding
  else
    let places := (-d.exponent).toNat
    let padded := (zeros (places + 1 - digits.length) ++ digits).toList
    let whole := padded.length - places
    String.ofList (padded.take whole) ++ "." ++ String.ofList (padded.drop whole)

/-- One digit before the point, the others after it, and the exponent. -/
def scientific (d : Digits) : String :=
  match (Nat.repr d.coefficient).toList with
  | [] => ""
  | [c] => s!"{String.ofList [c]}e{d.leading}"
  | c :: rest => s!"{String.ofList [c]}.{String.ofList rest}e{d.leading}"

/-- Digits in the given layout. -/
def text (d : Digits) (layout : Layout) : String :=
  if layout.positional d.leading then d.positional layout.wholeEnding else d.scientific

end Digits

/-- The text of a number that is not negative, given by the fields of its double precision format.
-/
def magnitudeText (layout : Layout) (exponentField fraction : Nat) : String :=
  if exponentField = 2047 then
    if fraction = 0 then "inf" else "NaN"
  else if exponentField = 0 && fraction = 0 then
    "0" ++ layout.wholeEnding
  else
    let digits? :=
      if exponentField = 0 then shortest? fraction (-1074)
      else shortest? (Nat.pow 2 52 + fraction) (exponentField - 1075)
    match digits? with
    | some d => d.text layout
    | none => "NaN"

/-- The text of a number in the given layout. The sign of a zero is written, that of a NaN is not.
-/
def text (layout : Layout) (v : Float) : String :=
  let bits := v.toBits.toNat
  let exponentField := bits / Nat.pow 2 52 % Nat.pow 2 11
  let fraction := bits % Nat.pow 2 52
  let magnitude := magnitudeText layout exponentField fraction
  if bits / Nat.pow 2 63 = 1 && !v.isNaN then "-" ++ magnitude else magnitude

end FuzzyInference.Decimal
