/-!
# Writers

A writer collects text line by line and indents each line by its current level. Ending a line twice
leaves no blank line.
-/

namespace ArrayLoops.Layout

structure Writer where
  out : String
  level : Nat
  width : Nat
  atLineStart : Bool
  deriving DecidableEq, Repr

namespace Writer

def new (width : Nat) : Writer := ⟨"", 0, width, true⟩

/-- Indents the current line unless something stands on it. -/
def indented (w : Writer) : Writer :=
  if w.atLineStart then
    { w with out := w.out ++ String.ofList (List.replicate (w.level * w.width) ' ')
             atLineStart := false }
  else w

def write (w : Writer) (text : String) : Writer :=
  if text.isEmpty then w
  else
    let w := w.indented
    { w with out := w.out ++ text }

def writeChar (w : Writer) (c : Char) : Writer :=
  let w := w.indented
  { w with out := w.out.push c }

def line (w : Writer) : Writer :=
  if w.atLineStart then w else { w with out := w.out.push '\n', atLineStart := true }

def indent (w : Writer) : Writer := { w with level := w.level + 1 }

def dedent (w : Writer) : Writer := { w with level := w.level - 1 }

def take (w : Writer) : String × Writer := (w.out, { w with out := "", atLineStart := true })

end Writer

end ArrayLoops.Layout
