import UnitCompiler.Number.Shortest

/-!
# Text of a double

A double is written with its shortest digits, always with a point or an exponent.  Positional
notation serves magnitudes from `10 ^ -4` up to, but not including, `10 ^ 16`.
-/

namespace UnitCompiler

/-- Where positional notation ends, as exponents of the leading digit. -/
structure NumeralStyle where
  leastPositional : Int
  mostPositional : Int
  notANumber : String
  infinity : String

/-- The style of every number in printed text. -/
def Double.style : NumeralStyle := ⟨-4, 15, "NaN", "inf"⟩

namespace Decimal

def digitText (d : Decimal) : String := String.ofList (Nat.toDigits 10 d.digits)

/-- Exponent of the leading digit. -/
def lead (d : Decimal) : Int := d.exponent + digitCount d.digits - 1

def positional (d : Decimal) : String :=
  let text := Nat.toDigits 10 d.digits
  if 0 ≤ d.exponent then String.ofList (text ++ List.replicate d.exponent.toNat '0') ++ ".0"
  else
    let places := (-d.exponent).toNat
    let padded := List.replicate (places + 1 - text.length) '0' ++ text
    let whole := padded.take (padded.length - places)
    let fraction := padded.drop (padded.length - places)
    String.ofList whole ++ "." ++ String.ofList fraction

def scientific (d : Decimal) : String :=
  let mantissa :=
    match Nat.toDigits 10 d.digits with
    | [] => "0"
    | [c] => String.singleton c
    | c :: rest => String.singleton c ++ "." ++ String.ofList rest
  mantissa ++ "e" ++ toString d.lead

end Decimal

/-- The text of a double. -/
def Double.text (x : Double) : String :=
  let style := Double.style
  let sign (negative : Bool) := if negative then "-" else ""
  match x.datum with
  | .nan .. => style.notANumber
  | .infinity negative => sign negative ++ style.infinity
  | .finite negative m q =>
    if m = 0 then sign negative ++ "0.0"
    else
      let d := Decimal.shortest m q
      let positional := decide (style.leastPositional ≤ d.lead) && decide (d.lead ≤ style.mostPositional)
      sign negative ++ (if positional then d.positional else d.scientific)

end UnitCompiler
