import ArrayLoops.Number.Shortest

/-!
# Numbers with exponents

Numbers in their fewest digits, in positional notation if that is not long and else with an exponent.
A number always shows that it is no integer, by a point or by an exponent.
-/

namespace ArrayLoops.Number

def Decimal.exponentialText (decimal : Decimal) : String :=
  let digits := (toString decimal.digits).toList
  let point := if digits.length > 1 then "." else ""
  String.ofList (digits.take 1) ++ point ++ String.ofList (digits.drop 1) ++ "e" ++
    toString (decimal.exponent + (digits.length - 1 : Nat))

/-- Numbers from a hundred thousandth to below ten to the sixteenth are written out. -/
def Decimal.compactText (decimal : Decimal) : String :=
  let magnitude : Int := decimal.exponent + (toString decimal.digits).length
  if -5 < magnitude && magnitude ≤ 16 then
    decimal.text ++ if decimal.exponent ≥ 0 then ".0" else ""
  else decimal.exponentialText

def compactText (x : Float) : String :=
  let b := Binary.ofFloat x
  let sign := if b.negative then "-" else ""
  sign ++ if b.mantissa == 0 then "0.0" else (shortest b.mantissa b.exponent).compactText

end ArrayLoops.Number
