import ArrayLoops.Json.Problem
import ArrayLoops.Number.Exponential
import ArrayLoops.Text.Chars
import ArrayLoops.Text.LineMap

/-!
# Reading JSON

A reader goes through a JSON text from left to right and stops at the first problem. It checks what
it expects as it goes, so a value of the wrong type is a problem before the rest is looked at.
-/

namespace ArrayLoops.Json

/-- A fault, and how many bytes of the text lie behind it once its place is known. -/
structure Stop where
  fault : Fault
  left : Option Nat
  deriving DecidableEq, Repr

abbrev Reader := EStateM Stop (List Char)

def stopAfter {α : Type} (count : Nat) (fault : Fault) : Reader α := fun cs =>
  .error ⟨fault, some (Text.byteLength cs - count)⟩ cs

def stopHere {α : Type} (fault : Fault) : Reader α := stopAfter 0 fault

def stopAtNext {α : Type} (fault : Fault) : Reader α := stopAfter 1 fault

def refuse {α : Type} (fault : Fault) : Reader α := fun cs => .error ⟨fault, none⟩ cs

/-- Gives a fault without a place the one behind what was read. -/
def placed {α : Type} (reader : Reader α) : Reader α := fun cs =>
  match reader cs with
  | .error ⟨fault, none⟩ rest => .error ⟨fault, some (Text.byteLength rest)⟩ rest
  | result => result

/-- Reads what is enclosed and then the end. The end is passed after a fault too, if it is there,
but the fault stays. -/
def enclosed {α : Type} (inside : Reader α) (finish : Reader Unit) : Reader α := fun cs =>
  match inside cs with
  | .ok value rest =>
    match finish rest with
    | .ok _ rest => .ok value rest
    | .error stop rest => .error stop rest
  | .error stop rest =>
    match finish rest with
    | .ok _ rest | .error _ rest => .error stop rest

def isBlank (c : Char) : Bool := c == ' ' || c == '\n' || c == '\t' || c == '\r'

def peek : Reader (Option Char) := modifyGet fun cs =>
  let rest := cs.dropWhile isBlank
  (rest.head?, rest)

def skip : Reader Unit := modify (·.drop 1)

def letters : List Char → Reader Unit
  | [] => return
  | expected :: more => do
    match ← get with
    | [] => stopHere .endInValue
    | c :: rest =>
      if c == expected then
        set rest
        letters more
      else stopAtNext .badWord

def hex4 : Reader Nat := do
  let cs ← get
  let digits := cs.take 4
  if Text.byteLength digits < 4 then stopAfter 4 .endInString
  else if digits.all Text.isHexDigit then
    set (cs.drop 4)
    return digits.foldl (fun n c => n * 16 + Text.hexValue c) 0
  else stopAfter 4 .badEscape

def pairChar (expected : Char) : Reader Unit := do
  match ← get with
  | [] => stopHere .endInString
  | c :: rest => if c == expected then set rest else stopAtNext .missingHalf

/-- The character of a numeric escape. Those outside the first plane come as two escapes. -/
def unicodeEscape : Reader Char := do
  let high ← hex4
  if 0xDC00 ≤ high && high ≤ 0xDFFF then stopHere .loneHalf
  else if high < 0xD800 || 0xDBFF < high then return Char.ofNat high
  else
    pairChar '\\'
    pairChar 'u'
    let low ← hex4
    if low < 0xDC00 || 0xDFFF < low then stopHere .loneHalf
    else return Char.ofNat ((high - 0xD800) * 0x400 + (low - 0xDC00) + 0x10000)

def escapedLetter? : Char → Option Char
  | '"' => some '"'
  | '\\' => some '\\'
  | '/' => some '/'
  | 'b' => some '\x08'
  | 'f' => some '\x0c'
  | 'n' => some '\n'
  | 'r' => some '\r'
  | 't' => some '\t'
  | _ => none

/-- The character of an escape whose backslash was passed. -/
def escape : Reader Char := do
  match ← get with
  | [] => stopHere .endInString
  | 'u' :: rest =>
    set rest
    unicodeEscape
  | c :: rest =>
    match escapedLetter? c with
    | some meant =>
      set rest
      return meant
    | none => stopAtNext .badEscape

/-- The rest of a string whose opening quote was passed, last character first. -/
def stringOnto : Nat → List Char → Reader (List Char)
  | 0, _ => stopHere .endInString
  | n + 1, value => do
    match ← get with
    | [] => stopHere .endInString
    | c :: rest =>
      set rest
      if c == '"' then return value
      else if c == '\\' then stringOnto n ((← escape) :: value)
      else if c.toNat < 0x20 then stopHere .controlCharacter
      else stringOnto n (c :: value)

def stringRest : Reader String := do
  let cs ← get
  return String.ofList (← stringOnto (cs.length + 1) []).reverse

def digits : Reader (List Char) := modifyGet fun cs => cs.span Char.isDigit

def someDigits : Reader (List Char) := do
  match ← digits with
  | [] => if (← get).isEmpty then stopHere .endInValue else stopAtNext .badNumber
  | ds => return ds

def oneOf (chars : List Char) : Reader (Option Char) := modifyGet fun cs =>
  match cs with
  | c :: rest => if chars.contains c then (some c, rest) else (none, cs)
  | [] => (none, [])

/-- Digits before the point: a zero alone, or digits that do not start with one. -/
def wholePart : Reader (List Char) := do
  match ← get with
  | '0' :: rest =>
    set rest
    if rest.head?.any Char.isDigit then stopAtNext .badNumber
    else return ['0']
  | _ => someDigits

/-- Appends digits to a number as long as it fits into the given number of bits, and counts them. -/
def appended (bits n count : Nat) : List Char → Nat × Nat
  | [] => (n, count)
  | c :: rest =>
    let next := n * 10 + Text.hexValue c
    if next < Number.twoTo bits then appended bits next (count + 1) rest else (n, count)

def largestPower : Nat := 308

/-- Multiplies a number by a power of ten, in at most `count` steps; `none` if it gets too large.
Four steps take any number to zero. -/
def scaled? : (count : Nat) → Float → Int → Option Float
  | 0, x, _ => some x
  | count + 1, x, exponent =>
    let power (n : Nat) := Float.ofScientific 1 false n
    if exponent.natAbs ≤ largestPower then
      if exponent < 0 then some (x / power exponent.natAbs)
      else
        let y := x * power exponent.natAbs
        if y.isInf then none else some y
    else if x == 0.0 then some x
    else if exponent < 0 then scaled? count (x / power largestPower) (exponent + largestPower)
    else none

/-- The exponent behind a number, if there is one. It has 31 bits; a number that is not zero gets too
large at the first digit that does not fit, and otherwise the further digits make no difference. -/
def exponentPart (isZero : Bool) : Reader (Option Int) := do
  match ← oneOf ['e', 'E'] with
  | none => return none
  | some _ =>
    let sign ← oneOf ['+', '-']
    let start ← get
    let ds ← someDigits
    let (size, count) := appended 31 0 0 ds
    if sign == some '-' then return some (-size)
    else if isZero || count == ds.length then return some size
    else
      set start
      stopAfter (count + 1) .largeNumber

/-- A number behind its sign. Integers have 64 bits; all else is a 64-bit float. -/
def number (isNegative : Bool) : Reader Found := do
  let whole ← wholePart
  let part ← match ← oneOf ['.'] with
    | some _ => someDigits
    | none => pure []
  let (n, wholeCount) := appended 64 0 0 whole
  let (significand, partCount) := appended 64 n 0 part
  let exponent ← exponentPart (significand == 0)
  let isInteger := part.isEmpty && exponent.isNone && wholeCount == whole.length
  if isInteger && (!isNegative || (0 < n && n ≤ Number.twoTo 63)) then
    return .number true ((if isNegative then "-" else "") ++ toString n)
  else
    let exponent := exponent.getD 0 + (whole.length - wholeCount : Nat) - partCount
    match scaled? 4 (Float.ofNat significand) exponent with
    | some x => return .number false (Number.compactText (if isNegative then -x else x))
    | none => stopHere .largeNumber

def found : Reader Found := do
  match (← get).head? with
  | some 'n' =>
    letters "null".toList
    return .null
  | some 't' =>
    letters "true".toList
    return .flag true
  | some 'f' =>
    letters "false".toList
    return .flag false
  | some '-' =>
    skip
    number true
  | some '"' =>
    skip
    return .text (← stringRest)
  | some '[' => return .list
  | some '\x7b' => return .object
  | some c => if c.isDigit then number false else stopAtNext .noValue
  | none => stopAtNext .noValue

/-- The problem with the value that comes next, which is of the wrong type. -/
def wrongType {α : Type} (expected : String) : Reader α := do
  let found ← found
  stopHere (.wrongType found expected)

def peekValue : Reader Char := do
  match ← peek with
  | some c => return c
  | none => stopAtNext .endInValue

def string (expected : String) : Reader String := do
  if (← peekValue) == '"' then
    skip
    stringRest
  else wrongType expected

def null (expected : String) : Reader Unit := do
  if (← peekValue) == 'n' then letters "null".toList
  else wrongType expected

def colon : Reader Unit := do
  match ← peek with
  | some ':' => skip
  | some _ => stopAtNext .noColon
  | none => stopAtNext .endInObject

def hasItem (first : Bool) : Reader Bool := do
  match ← peek with
  | none => stopAtNext .endInList
  | some ']' => return false
  | some c =>
    if first then return true
    else if c == ',' then
      skip
      if (← peekValue) == ']' then stopAtNext .trailingComma
      else return true
    else stopAtNext .noListEnd

def endList : Reader Unit := do
  match ← peek with
  | none => stopAtNext .endInList
  | some ']' => skip
  | some ',' =>
    skip
    stopAtNext (if (← peek) == some ']' then .trailingComma else .trailingText)
  | some _ => stopAtNext .trailingText

def itemsOnto {α : Type} (item : Reader α) : Nat → List α → Reader (List α)
  | 0, items => return items.reverse
  | n + 1, items => do
    if ← hasItem items.isEmpty then itemsOnto item n ((← item) :: items)
    else return items.reverse

def list {α : Type} (item : Reader α) : Reader (List α) := do
  if (← peekValue) == '[' then
    skip
    placed (enclosed (do itemsOnto item (← get).length []) endList)
  else wrongType "a sequence"

def hasMember (first : Bool) : Reader Bool := do
  match ← peek with
  | none => stopAtNext .endInObject
  | some '\x7d' => return false
  | some c =>
    if first then
      if c == '"' then return true else stopAtNext .badKey
    else if c == ',' then
      skip
      match ← peekValue with
      | '"' => return true
      | '\x7d' => stopAtNext .trailingComma
      | _ => stopAtNext .badKey
    else stopAtNext .noObjectEnd

def endObject : Reader Unit := do
  match ← peek with
  | none => stopAtNext .endInObject
  | some '\x7d' => skip
  | some ',' => stopAtNext .trailingComma
  | some _ => stopAtNext .trailingText

/-- Reads a name: written as a string, or as an object with the name and null. -/
def named {α : Type} (known : List (String × α)) : Reader α := do
  let find : Reader α := do
    let name ← string "variant identifier"
    match known.lookup name with
    | some value => return value
    | none => stopHere (.unknownName name (known.map (·.1)))
  match ← peekValue with
  | '"' => find
  | '\x7b' =>
    skip
    let value ← find
    colon
    null "unit"
    match ← peek with
    | some '\x7d' =>
      skip
      return value
    | some _ => stopHere .noValue
    | none => stopHere .endInObject
  | _ => stopAtNext .noValue

def endText : Reader Unit := do
  if (← peek).isSome then stopAtNext .trailingText

def Stop.problem (stop : Stop) (text : String) : Problem :=
  let position := (Text.LineMap.ofText text).position (text.utf8ByteSize - stop.left.getD 0)
  { fault := stop.fault, line := position.line + 1, column := position.character }

def read {α : Type} (reader : Reader α) (text : String) : Except Problem α :=
  match (reader <* endText) text.toList with
  | .ok value _ => .ok value
  | .error stop _ => .error (stop.problem text)

end ArrayLoops.Json
