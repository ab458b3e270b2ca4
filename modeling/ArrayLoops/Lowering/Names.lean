/-!
# Fresh names

Names for the variables of generated loops. A name is made from a hint with an underscore and, if
that is taken, a number. Taken are the names that occur in the program and those given out in a
function that is still open; the names of a function that was left can be given out again.
-/

namespace ArrayLoops.Lowering

structure Names where
  reserved : List String
  /-- The names given out in the innermost open function, or at the top level. -/
  inner : List String
  /-- The names given out in the functions around it, innermost first. -/
  outer : List (List String)
  deriving DecidableEq, Repr

namespace Names

def ofReserved (reserved : List String) : Names := ⟨reserved, [], []⟩

def enter (names : Names) : Names := { names with inner := [], outer := names.inner :: names.outer }

def exit (names : Names) : Names :=
  match names.outer with
  | [] => names
  | inner :: outer => { names with inner, outer }

/-- The number of open functions, the top level included. -/
def depth (names : Names) : Nat := names.outer.length + 1

def taken (names : Names) : List String := names.reserved ++ names.inner ++ names.outer.flatten

/-- The names for a hint in order: first without a number, then with two, three and so on. -/
def candidate (hint : String) (i : Nat) : String :=
  "_" ++ hint ++ if i = 0 then "" else toString (i + 1)

/-- The first candidate from the `i`-th on that is not taken, looking at `count` of them. -/
def firstFree (taken : List String) (hint : String) : Nat → Nat → String
  | 0, i => candidate hint i
  | count + 1, i =>
    if taken.contains (candidate hint i) then firstFree taken hint count (i + 1)
    else candidate hint i

/-- Gives out a name. Of one candidate more than there are names taken, one is free. -/
def fresh (names : Names) (hint : String) : String × Names :=
  let name := firstFree names.taken hint names.taken.length 0
  (name, { names with inner := name :: names.inner })

end Names

end ArrayLoops.Lowering
