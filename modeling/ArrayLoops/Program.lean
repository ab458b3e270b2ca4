import ArrayLoops.Grammar
import ArrayLoops.Machine.Call

/-!
# Running programs

A program is observed by the lines it logs and by how it completes: with the value of the variable
`result`, or with the value it throws.
-/

namespace ArrayLoops

open Machine (Failure Recursion Value)
open ArrayLoops.Tree (Node)

inductive Ending where
  | normal (result : String)
  | threw (value : String)
  deriving DecidableEq, Repr

structure Outcome where
  log : List String
  ending : Ending
  deriving DecidableEq, Repr

inductive RunError where
  | grammar (count : Nat) (first : String)
  | failure (failure : Failure)
  deriving DecidableEq, Repr

def RunError.message : RunError → String
  | .grammar count first => toString count ++ " syntax error(s), first: " ++ first
  | .failure inner => inner.message

namespace Program

def statements : Node → List Node
  | .mk _ (.file _ statements) => statements
  | _ => []

def shown (m : Machine) (value : Value) : Except Failure String :=
  match value.inspect? m.heap with
  | some text => .ok text
  | none => .error .stuck

def run (nodes : Nat) (root : Node) : Except Failure Outcome :=
  let r := Machine.recursion (Machine.depthFor nodes)
  match Machine.execAll r (statements root) Machine.start with
  | .ok _ m => do
    let result := (m.scopes.lookup m.scope "result").getD .undefined
    return { log := m.log.reverse, ending := .normal (← shown m result) }
  | .error (.thrown value) m => do
    return { log := m.log.reverse, ending := .threw (← shown m value) }
  | .error (.fatal failure) _ => .error failure

end Program

def programName : String := "program.js"

def runSource (source : String) : Except RunError Outcome :=
  let parsed := parse programName source
  match parsed.complaints with
  | first :: _ => .error (.grammar parsed.complaints.length first.fault.message)
  | [] =>
    match Program.run parsed.arena.size parsed.root with
    | .ok outcome => .ok outcome
    | .error failure => .error (.failure failure)

end ArrayLoops
