/-!
# Lines of a text

A text can be cut at a separator or into its lines. A line map holds the byte offsets at which the
lines start. A position counts lines from zero and bytes from the start of the line.
-/

namespace ArrayLoops.Text

/-- The pieces between the separators, which are one more than the separators. `piece` holds what
was read of the first piece, last character first. -/
def piecesOnto (separator : Char) (piece : List Char) : List Char → List (List Char)
  | [] => [piece.reverse]
  | c :: cs =>
    if c == separator then piece.reverse :: piecesOnto separator [] cs
    else piecesOnto separator (c :: piece) cs

def pieces (separator : Char) (text : String) : List String :=
  (piecesOnto separator [] text.toList).map String.ofList

/-- The lines of a text, each without the newline that ends it and without a carriage return before
that newline. Nothing follows a last newline. -/
def linesOnto (line : List Char) : List Char → List (List Char)
  | [] => if line.isEmpty then [] else [line.reverse]
  | '\r' :: '\n' :: cs => line.reverse :: linesOnto [] cs
  | c :: cs =>
    if c == '\n' then line.reverse :: linesOnto [] cs else linesOnto (c :: line) cs

def lines (text : String) : List (List Char) := linesOnto [] text.toList

structure Position where
  line : Nat
  character : Nat
  deriving DecidableEq, Repr

/-- The offsets at which the lines start, that of the first line included. -/
structure LineMap where
  starts : List Nat
  deriving DecidableEq, Repr

def startsAfterNewlines (offset : Nat) : List Char → List Nat
  | [] => []
  | c :: cs =>
    let next := offset + c.utf8Size
    if c == '\n' then next :: startsAfterNewlines next cs else startsAfterNewlines next cs

/-- The index of `x` in a rising list, or as an error the index where it would have to stand. -/
def search (xs : List Nat) (x : Nat) : Except Nat Nat :=
  let index := xs.countP (· < x)
  if xs[index]? == some x then .ok index else .error index

namespace LineMap

def ofText (text : String) : LineMap := ⟨0 :: startsAfterNewlines 0 text.toList⟩

def lineCount (map : LineMap) : Nat := map.starts.length

/-- An offset at which no line starts lies in the line before the one that would start there. -/
def lineAt (map : LineMap) (offset : Nat) : Nat :=
  match search map.starts offset with
  | .ok line => line
  | .error next => next - 1

def position (map : LineMap) (offset : Nat) : Position :=
  let line := map.lineAt offset
  ⟨line, offset - map.starts[line]?.getD 0⟩

end LineMap

end ArrayLoops.Text
