import ArrayLoops.Grammar.Statement
import ArrayLoops.Tree.Walk

/-!
# Parsing a file

The whole of a source text as a tree, with every complaint about it in the order of the places
complained about.
-/

namespace ArrayLoops

open ArrayLoops.Tree (Arena Node)

structure ParsedFile where
  root : Node
  arena : Arena
  complaints : List Complaint

namespace Grammar

/-- Puts a complaint before the first that starts at the same place or later. -/
def insertByStart (complaint : Complaint) : List Complaint → List Complaint
  | [] => [complaint]
  | other :: rest =>
    if complaint.start ≤ other.start then complaint :: other :: rest
    else other :: insertByStart complaint rest

/-- Sorts complaints by their start; those with the same start keep their order. -/
def sortByStart (complaints : List Complaint) : List Complaint :=
  complaints.foldr insertByStart []

/-- The number of productions that can be open inside each other: no more than seven are, between
two tokens that are passed. -/
def fuelFor (tokens : List Token) : Nat := 8 * (tokens.length + 2)

def statementsOf (tokens : List Token) : List Node × State :=
  let n := fuelFor tokens
  (statementList n .endOfFile (productions n)).run (.start tokens)

end Grammar

/-- Parses a list of tokens. The file itself is the last node. -/
def parseTokens (name : String) (tokens : List Token) : ParsedFile :=
  let (statements, s) := Grammar.statementsOf tokens
  let (root, arena) := s.arena.add 0 s.current.fin {} (.file name statements)
  { root
    arena
    complaints := Grammar.sortByStart (s.complaints.reverse ++ s.lexical.reverse) }

def parse (name text : String) : ParsedFile := parseTokens name (Token.list text)

end ArrayLoops
