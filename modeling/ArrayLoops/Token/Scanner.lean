import ArrayLoops.Token.Lexer

/-!
# Scanners

A scanner reads a text token by token, collects the complaints and can be taken back to a token
it has passed. A snapshot keeps the number of complaints, not the complaints themselves.
-/

namespace ArrayLoops

structure Scanner where
  source : String
  current : Token
  rest : List Char
  complaints : List Complaint

namespace Scanner

structure Snapshot where
  current : Token
  rest : List Char
  complaintCount : Nat

def ofText (source : String) : Scanner where
  source
  current := ⟨.unknown, 0, 0, "", "", false, []⟩
  rest := source.toList
  complaints := []

def scan (s : Scanner) : Scanner :=
  let (token, rest) := Token.next s.current.fin s.rest
  { s with current := token, rest, complaints := s.complaints ++ token.complaints }

def save (s : Scanner) : Snapshot := ⟨s.current, s.rest, s.complaints.length⟩

def restore (s : Scanner) (snapshot : Snapshot) : Scanner :=
  { s with
    current := snapshot.current
    rest := snapshot.rest
    complaints := s.complaints.take snapshot.complaintCount }

end Scanner

end ArrayLoops
