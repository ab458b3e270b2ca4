/-!
# Floating-point numbers as exact binary fractions

A finite number is a mantissa times a power of two, with a sign. Exact arithmetic on such pairs
gives the operations that the hardware leaves out: remainders, truncation and 32-bit integers.
-/

namespace ArrayLoops.Number

abbrev twoTo (exponent : Nat) : Nat := Nat.pow 2 exponent

abbrev tenTo (exponent : Nat) : Nat := Nat.pow 10 exponent

structure Binary where
  negative : Bool
  mantissa : Nat
  exponent : Int
  deriving DecidableEq, Repr

namespace Binary

def ofFloat (x : Float) : Binary :=
  let bits := x.toBits.toNat
  let negative := bits / twoTo 63 == 1
  let exponent : Nat := bits / twoTo 52 % twoTo 11
  let fraction := bits % twoTo 52
  if exponent == 0 then ⟨negative, fraction, -1074⟩
  else ⟨negative, fraction + twoTo 52, (exponent : Int) - 1075⟩

/-- The number with the given exact value, which must have one. -/
def toFloat (b : Binary) : Float :=
  let sign := if b.negative then twoTo 63 else 0
  if b.mantissa == 0 then Float.ofBits (UInt64.ofNat sign)
  else
    -- The exponent of the unit in the last place of a 53-bit mantissa.
    let unit := max (b.exponent + (b.mantissa.log2 : Int) - 52) (-1074)
    let shift := b.exponent - unit
    let mantissa :=
      if shift ≥ 0 then b.mantissa * twoTo shift.toNat else b.mantissa / twoTo (-shift).toNat
    let bits :=
      if mantissa < twoTo 52 then mantissa
      else (unit + 1075).toNat * twoTo 52 + (mantissa - twoTo 52)
    Float.ofBits (UInt64.ofNat (sign + bits))

def truncate (b : Binary) : Int :=
  let size :=
    if b.exponent ≥ 0 then b.mantissa * twoTo b.exponent.toNat
    else b.mantissa / twoTo (-b.exponent).toNat
  if b.negative then -(size : Int) else size

end Binary

/-- The remainder of a division whose quotient is rounded toward zero; it has the sign of `x`. -/
def remainder (x y : Float) : Float :=
  if x.isNaN || y.isNaN || x.isInf || y == 0.0 then 0.0 / 0.0
  else if y.isInf then x
  else
    let a := Binary.ofFloat x
    let b := Binary.ofFloat y
    let unit := min a.exponent b.exponent
    let rest := a.mantissa * twoTo (a.exponent - unit).toNat % (b.mantissa * twoTo (b.exponent - unit).toNat)
    Binary.toFloat ⟨a.negative, rest, unit⟩

def truncated (x : Float) : Float := if x < 0.0 then x.ceil else x.floor

/-- The whole part modulo `2 ^ 32`, read as a signed word; numbers that are not finite give zero. -/
def toInt32 (x : Float) : Int32 :=
  if x.isNaN || x.isInf then 0 else Int32.ofInt (Binary.ofFloat x).truncate

end ArrayLoops.Number
