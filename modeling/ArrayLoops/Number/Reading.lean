import ArrayLoops.Number.Binary
import ArrayLoops.Text.Chars
import ArrayLoops.Token.Lexer

/-!
# Numbers read from text

Decimal notation with an optional sign, point and exponent; hexadecimal notation below `2 ^ 64`; and
the conversion of any text to a number.
-/

namespace ArrayLoops.Number

def notANumber : Float := 0.0 / 0.0

def infinity : Float := 1.0 / 0.0

def digitsValue (base : Nat) (digits : List Char) : Nat :=
  digits.foldl (fun n c => n * base + Text.hexValue c) 0

/-- The number nearest to `digits * 10 ^ exponent`. Exponents far outside the range of numbers give
zero or infinity without being computed. -/
def ofDecimal (digits : Nat) (exponent : Int) : Float :=
  let size := (Nat.toDigits 10 digits).length
  if digits == 0 || exponent + size < -400 then 0.0
  else if exponent + size > 400 then infinity
  else Float.ofScientific digits (exponent < 0) exponent.natAbs

def splitSign : List Char → Bool × List Char
  | '-' :: cs => (true, cs)
  | '+' :: cs => (false, cs)
  | cs => (false, cs)

/-- An exponent with nothing behind it; no text at all is the exponent zero. -/
def exponent? : List Char → Option Int
  | [] => some 0
  | e :: cs =>
    if e == 'e' || e == 'E' then
      let (negative, digits) := splitSign cs
      if digits.isEmpty || !digits.all Char.isDigit then none
      else
        let n : Int := digitsValue 10 digits
        some (if negative then -n else n)
    else none

/-- Decimal notation. There must be a digit before or behind the point. -/
def decimal? (cs : List Char) : Option Float := do
  let (negative, cs) := splitSign cs
  let (whole, rest) := Token.run Char.isDigit cs
  let (part, rest) := Token.fraction rest
  let places := part.drop 1
  let exponent ← exponent? rest
  if whole.isEmpty && places.isEmpty then none
  else
    let size := ofDecimal (digitsValue 10 (whole ++ places)) (exponent - places.length)
    some (if negative then -size else size)

/-- Hexadecimal digits with an optional plus sign; the value must fit into 64 bits. -/
def hexadecimal? (cs : List Char) : Option Float :=
  let digits := match cs with
    | '+' :: rest => rest
    | _ => cs
  if digits.isEmpty || !digits.all Text.isHexDigit then none
  else
    let n := digitsValue 16 digits
    if n < twoTo 64 then some (Float.ofScientific n false 0) else none

def hexPart? : List Char → Option (List Char)
  | '0' :: x :: cs => if x == 'x' || x == 'X' then some cs else none
  | _ => none

def ofLiteral? (text : String) : Option Float :=
  match hexPart? text.toList with
  | some digits => hexadecimal? digits
  | none => decimal? text.toList

def ofText (text : String) : Float :=
  let trimmed := Text.trim text
  let cs := trimmed.toList
  if cs.isEmpty then 0.0
  else match hexPart? cs with
    | some digits => (hexadecimal? digits).getD notANumber
    | none =>
      if trimmed == "Infinity" || trimmed == "+Infinity" then infinity
      else if trimmed == "-Infinity" then -infinity
      else (decimal? cs).getD notANumber

end ArrayLoops.Number
