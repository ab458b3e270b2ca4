import ArrayLoops.Machine.Rendering
import ArrayLoops.Number.Binary
import ArrayLoops.Number.Reading

/-!
# Conversions of values

Numbers from values, equality with conversions, and the keys of array elements. Objects are converted
by way of their text, which is why a conversion can fail.
-/

namespace ArrayLoops.Machine

namespace Value

def toNumber? (heap : Heap) : Value → Option Float
  | .undefined => some Number.notANumber
  | .null => some 0.0
  | .boolean b => some (if b then 1.0 else 0.0)
  | .number x => some x
  | .string s => some (Number.ofText s)
  | .object id => (display? heap (.object id)).map Number.ofText

def toInt32? (heap : Heap) (value : Value) : Option Int32 := (toNumber? heap value).map Number.toInt32

/-- The text by which an object is compared with something that is none. -/
def comparedText? (heap : Heap) : Value → Option String
  | .string s => some s
  | .object id => display? heap (.object id)
  | value => (toNumber? heap value).map Number.text

def looseEquals? (heap : Heap) (a b : Value) : Option Bool :=
  if a.isNullish || b.isNullish then some (a.isNullish && b.isNullish)
  else
    match a, b with
    | .object i, .object j => some (i == j)
    | .object _, _ | _, .object _ => do
      return (← comparedText? heap a) == (← comparedText? heap b)
    | .string s, .string t => some (s == t)
    | a, b => do
      return (← toNumber? heap a) == (← toNumber? heap b)

/-- How two values compare: strings by their characters, all else as numbers. Nothing compares with
what is not a number. -/
def compare? (heap : Heap) (a b : Value) : Option (Option Ordering) :=
  match a, b with
  | .string s, .string t => some (some (Ord.compare s t))
  | a, b => do
    let x ← toNumber? heap a
    let y ← toNumber? heap b
    return if x < y then some .lt else if x == y then some .eq else if x > y then some .gt else none

end Value

/-- The place in an array that a key stands for: a decimal number below `2 ^ 64` without leading
zeros. -/
def arrayIndex? (key : String) : Option Nat :=
  let cs := key.toList
  if cs.isEmpty || (cs.length > 1 && cs.head? == some '0') || !cs.all Char.isDigit then none
  else
    let n := cs.foldl (fun n c => n * 10 + (c.toNat - '0'.toNat)) 0
    if n < Number.twoTo 64 then some n else none

def units16 (s : String) : Nat :=
  s.toList.foldl (fun n c => n + if c.toNat < 0x10000 then 1 else 2) 0

end ArrayLoops.Machine
