/-!
# Diagnostics

What is reported of a file to the user.
-/

namespace ArrayLoops

inductive Severity where
  | error | warning | message
  deriving DecidableEq, Repr

def Severity.label : Severity → String
  | .error => "error"
  | .warning => "warning"
  | .message => "message"

def Severity.title : Severity → String
  | .error => "Error"
  | .warning => "Warning"
  | .message => "Message"

def Severity.ofLabel? (label : String) : Option Severity :=
  [.error, .warning, .message].find? fun severity => severity.label == label

structure Diagnostic where
  file : String
  start : Nat
  length : Nat
  message : String
  code : Nat
  severity : Severity := .error
  deriving DecidableEq, Repr

def Diagnostic.isError (diagnostic : Diagnostic) : Bool := diagnostic.severity == .error

end ArrayLoops
