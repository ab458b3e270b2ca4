/-!
# Patterns over bytes

The patterns that globs stand for: single bytes of some set, anything at all, one pattern after
another and a choice between two. A pattern is run on a set of rests of a text and gives the rests
that can remain behind it.
-/

namespace ArrayLoops.Glob

/-- Bytes by ranges, or all bytes outside of them. -/
structure ByteSet where
  negated : Bool := false
  ranges : List (UInt8 × UInt8)
  deriving DecidableEq, Repr

def ByteSet.has (set : ByteSet) (byte : UInt8) : Bool :=
  (set.ranges.any fun (lo, hi) => lo ≤ byte && byte ≤ hi) != set.negated

def ByteSet.all : ByteSet := { negated := true, ranges := [] }

inductive Pattern where
  | empty
  | one (set : ByteSet)
  | anything
  | chain (first second : Pattern)
  | choice (first second : Pattern)
  deriving DecidableEq, Repr

namespace Pattern

def tails {α : Type} : List α → List (List α)
  | [] => [[]]
  | a :: as => (a :: as) :: tails as

/-- The rests that can remain behind the pattern when it starts at one of `rests`. -/
def rests : Pattern → List (List UInt8) → List (List UInt8)
  | empty, rests => rests
  | one set, rests => rests.filterMap fun rest =>
    match rest with
    | byte :: rest => if set.has byte then some rest else none
    | [] => none
  | anything, rests => (rests.flatMap tails).eraseDups
  | chain first second, rests => second.rests (first.rests rests)
  | choice first second, rests => (first.rests rests ++ second.rests rests).eraseDups

def accepts (pattern : Pattern) (bytes : List UInt8) : Bool := (pattern.rests [bytes]).contains []

/-- One pattern after another; the empty one adds nothing. -/
def andThen : Pattern → Pattern → Pattern
  | empty, second => second
  | first, empty => first
  | first, second => chain first second

def oneOf (patterns : List Pattern) : Pattern :=
  match patterns.filter (· != empty) with
  | [] => empty
  | first :: rest => rest.foldl choice first

end Pattern

end ArrayLoops.Glob
