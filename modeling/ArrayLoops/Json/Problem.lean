import ArrayLoops.Text.Printable

/-!
# Problems with JSON texts

What can be wrong with a JSON text, and where.
-/

namespace ArrayLoops.Json

inductive Found where
  | null
  | flag (value : Bool)
  | number (isInteger : Bool) (text : String)
  | text (value : String)
  | list
  | object
  deriving DecidableEq, Repr

def Found.title : Found → String
  | .null => "null"
  | .flag value => "boolean `" ++ (if value then "true" else "false") ++ "`"
  | .number true shown => "integer `" ++ shown ++ "`"
  | .number false shown => "floating point `" ++ shown ++ "`"
  | .text value => "string " ++ Text.escaped value
  | .list => "sequence"
  | .object => "map"

inductive Fault where
  /-- The text ends in a value, a string, a list or an object. -/
  | endInValue | endInString | endInList | endInObject
  | noValue
  | noColon
  | noListEnd
  | noObjectEnd
  | badWord
  | badNumber
  | largeNumber
  | controlCharacter
  | badEscape
  /-- One half of a pair of escapes, without the other or with something else in its place. -/
  | loneHalf | missingHalf
  | badKey
  | trailingComma
  | trailingText
  /-- The text is JSON so far, but not of the expected kind. -/
  | wrongType (found : Found) (expected : String)
  | unknownField (name : String) (known : List String)
  | unknownName (name : String) (known : List String)
  | repeatedField (name : String)
  deriving DecidableEq, Repr

inductive Category where
  | malformed
  | incomplete
  | unsuitable
  deriving DecidableEq, Repr

def Category.title : Category → String
  | .malformed => "Syntax"
  | .incomplete => "Eof"
  | .unsuitable => "Data"

def alternatives (names : List String) : String :=
  match names.map fun name => "`" ++ name ++ "`" with
  | [first, second] => first ++ " or " ++ second
  | [name] => name
  | names => "one of " ++ ", ".intercalate names

namespace Fault

def category : Fault → Category
  | .endInValue | .endInString | .endInList | .endInObject => .incomplete
  | .wrongType .. | .unknownField .. | .unknownName .. | .repeatedField _ => .unsuitable
  | _ => .malformed

def message : Fault → String
  | .endInValue => "EOF while parsing a value"
  | .endInString => "EOF while parsing a string"
  | .endInList => "EOF while parsing a list"
  | .endInObject => "EOF while parsing an object"
  | .noValue => "expected value"
  | .noColon => "expected `:`"
  | .noListEnd => "expected `,` or `]`"
  | .noObjectEnd => "expected `,` or `\x7d`"
  | .badWord => "expected ident"
  | .badNumber => "invalid number"
  | .largeNumber => "number out of range"
  | .controlCharacter =>
    "control character (\\u0000-\\u001F) found while parsing a string"
  | .badEscape => "invalid escape"
  | .loneHalf => "lone leading surrogate in hex escape"
  | .missingHalf => "unexpected end of hex escape"
  | .badKey => "key must be a string"
  | .trailingComma => "trailing comma"
  | .trailingText => "trailing characters"
  | .wrongType found expected => "invalid type: " ++ found.title ++ ", expected " ++ expected
  | .unknownField name known =>
    "unknown field `" ++ name ++ "`, expected " ++ alternatives known
  | .unknownName name known =>
    "unknown variant `" ++ name ++ "`, expected " ++ alternatives known
  | .repeatedField name => "duplicate field `" ++ name ++ "`"

end Fault

/-- A fault and its place. Lines count from one; the column is the number of bytes on the line up to
and with the place. -/
structure Problem where
  fault : Fault
  line : Nat
  column : Nat
  deriving DecidableEq, Repr

def Problem.message (problem : Problem) : String :=
  problem.fault.message ++ " at line " ++ toString problem.line ++ " column " ++
    toString problem.column

end ArrayLoops.Json
