import ArrayLoops.Number.Binary

/-!
# Numbers in decimal

A number is written with the fewest decimal digits that read back as the same number, the nearest
such digits if there are several, and always in positional notation.
-/

namespace ArrayLoops.Number

structure Decimal where
  digits : Nat
  exponent : Int
  deriving DecidableEq, Repr

/-- Compares `4 * d * 10 ^ k` with `n * 2 ^ q`. -/
def compareScaled (d : Nat) (k : Int) (n : Nat) (q : Int) : Ordering :=
  compare (4 * d * tenTo k.toNat * twoTo (-q).toNat) (n * twoTo q.toNat * tenTo (-k).toNat)

/-- Whether a decimal reads back as `m * 2 ^ q`: it lies between the middles to the two neighbours,
which themselves count if `m` is even. The lower neighbour of a power of two is nearer. -/
def readsBack (m : Nat) (q : Int) (d : Nat) (k : Int) : Bool :=
  let below := if m == twoTo 52 && q > -1074 then 1 else 2
  let low := compareScaled d k (4 * m - below) q
  let high := compareScaled d k (4 * m + 2) q
  if m % 2 == 0 then low != .lt && high != .gt else low == .gt && high == .lt

/-- The power of ten of the leading digit of `m * 2 ^ q`, which is not zero. -/
def leadingExponent (m : Nat) (q : Int) : Int :=
  let whole := m * twoTo q.toNat / twoTo (-q).toNat
  if whole > 0 then (Nat.toDigits 10 whole).length - 1
  else
    let scaled := m * tenTo 400 / twoTo (-q).toNat
    (Nat.toDigits 10 scaled).length - 401

/-- The decimals next to `m * 2 ^ q` on the grid of multiples of `10 ^ k`, of which those that read
back are kept and the nearer one is taken; the upper one if both are equally near. -/
def onGrid? (m : Nat) (q k : Int) : Option Decimal :=
  let num := m * twoTo q.toNat * tenTo (-k).toNat
  let den := twoTo (-q).toNat * tenTo k.toNat
  let d := num / den
  let down := readsBack m q d k
  let up := readsBack m q (d + 1) k
  if down && up then
    some ⟨if 2 * (num - d * den) < den then d else d + 1, k⟩
  else if down then some ⟨d, k⟩
  else if up then some ⟨d + 1, k⟩
  else none

/-- The first grid that has a decimal which reads back, among `count` grids from `10 ^ k` down. -/
def firstOnGrids (m : Nat) (q : Int) : Nat → Int → Decimal
  | 0, k => ⟨0, k⟩
  | count + 1, k =>
    match onGrid? m q k with
    | some decimal => decimal
    | none => firstOnGrids m q count (k - 1)

/-- The shortest decimal for `m * 2 ^ q`, which is not zero. The number may round up to the next
power of ten, and seventeen digits always suffice. -/
def shortest (m : Nat) (q : Int) : Decimal := firstOnGrids m q 19 (leadingExponent m q + 1)

/-- Positional notation, without a point for whole numbers. -/
def Decimal.text (decimal : Decimal) : String :=
  let digits := toString decimal.digits
  if decimal.exponent ≥ 0 then
    digits ++ String.ofList (List.replicate decimal.exponent.toNat '0')
  else
    let places := (-decimal.exponent).toNat
    let count := digits.length
    if places < count then
      let cs := digits.toList
      String.ofList (cs.take (count - places) ++ '.' :: cs.drop (count - places))
    else "0." ++ String.ofList (List.replicate (places - count) '0') ++ digits

/-- The text of a number. Both zeros are `0`. -/
def text (x : Float) : String :=
  if x.isNaN then "NaN"
  else if x.isInf then (if x < 0.0 then "-Infinity" else "Infinity")
  else
    let b := Binary.ofFloat x
    if b.mantissa == 0 then "0"
    else
      let sign := if b.negative then "-" else ""
      let whole := b.truncate.natAbs
      -- A whole number below 2 ^ 53 is its own shortest decimal.
      if b.exponent < 0 && whole < twoTo 53 && whole * twoTo (-b.exponent).toNat == b.mantissa then
        sign ++ toString whole
      else sign ++ (shortest b.mantissa b.exponent).text

end ArrayLoops.Number
