import ArrayLoops.Token.Kind

/-!
# Complaints about source text

What can be wrong with a source text, where, and how it is reported. A message is a template with
numbered places, each a number in braces. Filling replaces the places one after the other, so that a
later argument also fills places which an earlier argument brought in.
-/

namespace ArrayLoops

namespace Text

/-- Replaces the occurrences of `pattern` from the left, none overlapping another. The first
`skip` characters belong to an occurrence already replaced. -/
def replaceFrom (pattern replacement : List Char) : Nat → List Char → List Char
  | _, [] => []
  | skip + 1, _ :: cs => replaceFrom pattern replacement skip cs
  | 0, c :: cs =>
    if pattern.isPrefixOf (c :: cs) then
      replacement ++ replaceFrom pattern replacement (pattern.length - 1) cs
    else c :: replaceFrom pattern replacement 0 cs

def place (i : Nat) : List Char := '\x7b' :: (toString i).toList ++ ['\x7d']

/-- Fills the places `i`, `i + 1`, … in this order. -/
def fillFrom (i : Nat) (template : List Char) : List String → List Char
  | [] => template
  | arg :: args => fillFrom (i + 1) (replaceFrom (place i) arg.toList 0 template) args

def fill (template : String) (args : List String) : String :=
  String.ofList (fillFrom 0 template.toList args)

end Text

inductive Fault where
  | unclosedComment
  | unterminatedString
  | hexDigitExpected
  | invalidCharacter
  | expected (kind : Token.Kind)
  | identifierExpected
  | propertyExpected
  | expressionExpected
  | lineBreakAfterThrow
  | statementExpected
  | destructuring
  | forInOrOf
  | label
  | arrayHole
  | nestingTooDeep
  | assignmentTarget
  deriving DecidableEq, Repr

namespace Fault

def message : Fault → String
  | .unclosedComment => "'*/' expected."
  | .unterminatedString => "Unterminated string literal."
  | .hexDigitExpected => "Hexadecimal digit expected."
  | .invalidCharacter => "Invalid character."
  | .expected kind => Text.fill "'\x7b0\x7d' expected." [kind.spelling]
  | .identifierExpected => "Identifier expected."
  | .propertyExpected => "Property assignment expected."
  | .expressionExpected => "Expression expected."
  | .lineBreakAfterThrow => "Line break not permitted here."
  | .statementExpected => "Declaration or statement expected."
  | .destructuring => "Destructuring patterns are not supported."
  | .forInOrOf => "'for-in' and 'for-of' loops are not supported."
  | .label => "Labels are not supported."
  | .arrayHole => "Array holes are not supported."
  | .nestingTooDeep => "Maximum nesting depth exceeded."
  | .assignmentTarget =>
    "The left-hand side of an assignment expression must be a variable or a property access."

def code : Fault → Nat
  | .unterminatedString => 1002
  | .identifierExpected | .propertyExpected => 1003
  | .unclosedComment | .expected _ => 1005
  | .expressionExpected | .lineBreakAfterThrow => 1109
  | .hexDigitExpected | .invalidCharacter => 1127
  | .statementExpected => 1128
  | .destructuring | .forInOrOf | .label | .arrayHole => 1200
  | .nestingTooDeep => 1201
  | .assignmentTarget => 2364

end Fault

structure Complaint where
  start : Nat
  length : Nat
  fault : Fault
  deriving DecidableEq, Repr

end ArrayLoops
