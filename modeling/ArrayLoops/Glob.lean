import ArrayLoops.Glob.Pattern

/-!
# Globs

Patterns for paths. `?` is any byte and `*` any number of bytes, slashes included; `**` between
slashes stands for any number of folders; `[a-z]` and `[!a-z]` are bytes inside and outside of a set,
`{a,b}` is a choice, and a backslash takes the next character as it is.
-/

namespace ArrayLoops.Glob

inductive Problem where
  | unclosedSet
  | invalidRange (lo hi : Char)
  | unopenedChoice
  | unclosedChoice
  | danglingEscape
  deriving DecidableEq, Repr

def Problem.message : Problem → String
  | .unclosedSet => "unclosed character class; missing ']'"
  | .invalidRange lo hi =>
    "invalid range; '" ++ String.singleton lo ++ "' > '" ++ String.singleton hi ++ "'"
  | .unopenedChoice =>
    "unopened alternate group; missing '\x7b' (maybe escape '\x7d' with '[\x7d]'?)"
  | .unclosedChoice =>
    "unclosed alternate group; missing '\x7d' (maybe escape '\x7b' with '[\x7b]'?)"
  | .danglingEscape => "dangling '\\'"

inductive Piece where
  | literal (c : Char)
  | any
  | star
  /-- `**` and a slash in front of everything. -/
  | leadingFolders
  /-- A slash and `**` behind everything. -/
  | trailingFolders
  /-- `**` between slashes. -/
  | innerFolders
  | set (bytes : ByteSet)
  | choice (pattern : Pattern)
  deriving DecidableEq, Repr

def bytesOf (c : Char) : List UInt8 := String.utf8EncodeChar c

def byte (b : UInt8) : Pattern := .one { ranges := [(b, b)] }

def slash : Pattern := byte 0x2F

def Piece.pattern : Piece → Pattern
  | .literal c => (bytesOf c).foldr (fun b rest => (byte b).andThen rest) .empty
  | .any => .one ByteSet.all
  | .star => .anything
  | .leadingFolders => .choice .empty (.choice slash (.chain .anything slash))
  | .trailingFolders => .chain slash .anything
  | .innerFolders => .choice slash (.chain slash (.chain .anything slash))
  | .set bytes => .one bytes
  | .choice pattern => pattern

def patternOf (pieces : List Piece) : Pattern :=
  pieces.foldr (fun piece rest => piece.pattern.andThen rest) .empty

/-- The bytes of a range of characters: those of the ends, and what lies between the last byte of
the lower end and the first byte of the upper end. -/
def rangeBytes (range : Char × Char) : List (UInt8 × UInt8) :=
  let (lo, hi) := range
  let single (b : UInt8) := (b, b)
  if lo == hi then (bytesOf lo).map single
  else
    match (bytesOf lo).reverse, bytesOf hi with
    | last :: before, first :: behind =>
      before.reverse.map single ++ (last, first) :: behind.map single
    | _, _ => []

structure OpenSet where
  negated : Bool
  /-- The ranges read so far, last first. -/
  ranges : List (Char × Char) := []
  isFirst : Bool := true
  /-- Whether a hyphen waits for the upper end of a range. -/
  inRange : Bool := false

namespace OpenSet

def close (set : OpenSet) : Piece :=
  let ranges := if set.inRange then ('-', '-') :: set.ranges else set.ranges
  .set { negated := set.negated, ranges := ranges.reverse.flatMap rangeBytes }

def add (set : OpenSet) (c : Char) : Except Problem OpenSet :=
  let ranges := set.ranges
  if c == '-' && !set.isFirst && !set.inRange then .ok { set with inRange := true }
  else if set.inRange then
    match ranges with
    | (lo, _) :: rest =>
      if c < lo then .error (.invalidRange lo c)
      else .ok { set with ranges := (lo, c) :: rest, inRange := false, isFirst := false }
    | [] => .ok { set with inRange := false }
  else .ok { set with ranges := (c, c) :: ranges, isFirst := false }

end OpenSet

structure OpenChoice where
  /-- The pieces in front of the choice, last first. -/
  outer : List Piece
  /-- The branches read so far, last first. -/
  branches : List Pattern := []

structure Reading where
  /-- The pieces of the glob or of the current branch, last first. -/
  pieces : List Piece := []
  /-- The choices around the current branch, innermost first. -/
  choices : List OpenChoice := []
  set : Option OpenSet := none
  before : Option Char := none

namespace Reading

def push (reading : Reading) (before : Char) (piece : Piece) : Reading :=
  { reading with pieces := piece :: reading.pieces, before := some before }

def branch (reading : Reading) : Pattern := patternOf reading.pieces.reverse

def openChoice (reading : Reading) : Reading :=
  { reading with
    pieces := []
    choices := { outer := reading.pieces } :: reading.choices
    before := some '\x7b' }

def nextBranch (reading : Reading) : Reading :=
  match reading.choices with
  | [] => reading.push ',' (.literal ',')
  | choice :: rest =>
    { reading with
      pieces := []
      choices := { choice with branches := reading.branch :: choice.branches } :: rest
      before := some ',' }

def closeChoice (reading : Reading) : Except Problem Reading :=
  match reading.choices with
  | [] => .error .unopenedChoice
  | choice :: rest =>
    let pattern := Pattern.oneOf (reading.branch :: choice.branches).reverse
    .ok { reading with
      pieces := .choice pattern :: choice.outer
      choices := rest
      before := some '\x7d' }

/-- `**` that stands for folders, in place of the slash in front of it. -/
def pushFolders (reading : Reading) (before : Char) (isLast : Bool) : Reading :=
  match reading.pieces with
  | .leadingFolders :: _ | .trailingFolders :: _ => { reading with before := some before }
  | pieces =>
    let piece := if isLast then Piece.trailingFolders else .innerFolders
    { reading with pieces := piece :: pieces.drop 1, before := some before }

/-- `**` that stands for nothing more than two stars. -/
def pushStars (reading : Reading) : Reading :=
  { reading with pieces := .star :: .star :: reading.pieces, before := some '*' }

/-- Whether `**` here can stand for folders, by the character in front of it. -/
def canHoldFolders (reading : Reading) : Bool :=
  reading.before == some '/' ||
    (!reading.choices.isEmpty && (reading.before == some ',' || reading.before == some '\x7b'))

def run (reading : Reading) : List Char → Except Problem Reading
  | [] => if reading.set.isSome then .error .unclosedSet else .ok reading
  | c :: cs =>
    match reading.set with
    | some set =>
      if c == ']' && !set.isFirst then
        { reading.push ']' set.close with set := none }.run cs
      else do
        let set ← set.add c
        { reading with set := some set, before := some c }.run cs
    | none =>
      match c, cs with
      | '?', cs => (reading.push '?' .any).run cs
      | '*', '*' :: cs =>
        if reading.pieces.isEmpty then
          match cs with
          | [] => (reading.push '*' .leadingFolders).run []
          | '/' :: rest => (reading.push '/' .leadingFolders).run rest
          | d :: rest => reading.pushStars.run (d :: rest)
        else if !reading.canHoldFolders then reading.pushStars.run cs
        else
          match cs with
          | [] => (reading.pushFolders '*' true).run []
          | '/' :: rest => (reading.pushFolders '/' false).run rest
          | d :: rest =>
            if (d == ',' || d == '\x7d') && !reading.choices.isEmpty then
              (reading.pushFolders '*' true).run (d :: rest)
            else reading.pushStars.run (d :: rest)
      | '*', cs => (reading.push '*' .star).run cs
      | '[', '!' :: cs | '[', '^' :: cs =>
        { reading with set := some { negated := true }, before := some '!' }.run cs
      | '[', cs => { reading with set := some { negated := false }, before := some '[' }.run cs
      | '\x7b', cs => reading.openChoice.run cs
      | '\x7d', cs => do (← reading.closeChoice).run cs
      | ',', cs => reading.nextBranch.run cs
      | '\\', [] => .error .danglingEscape
      | '\\', d :: cs => (reading.push d (.literal d)).run cs
      | c, cs => (reading.push c (.literal c)).run cs

end Reading

/-- The pattern of a glob. A glob that is nothing but `**` stands for everything. -/
def parse (glob : String) : Except Problem Pattern := do
  let reading ← Reading.run {} glob.toList
  if !reading.choices.isEmpty then throw .unclosedChoice
  match reading.pieces with
  | [.leadingFolders] => return .anything
  | _ => return reading.branch

def Pattern.matchesPath (pattern : Pattern) (path : String) : Bool :=
  pattern.accepts (path.toList.flatMap bytesOf)

end ArrayLoops.Glob
