import ArrayLoops.Lowering.Operation

/-!
# Options

Which calls are lowered.
-/

namespace ArrayLoops.Lowering

inductive ThisPolicy where
  | thread
  | reject
  deriving DecidableEq, Repr

namespace ThisPolicy

def all : List ThisPolicy := [.thread, .reject]

def ofName? : String → Option ThisPolicy
  | "thread" => some .thread
  | "reject" => some .reject
  | _ => none

def name : ThisPolicy → String
  | .thread => "thread"
  | .reject => "reject"

def title : ThisPolicy → String
  | .thread => "Thread"
  | .reject => "Reject"

def unknownMessage (name : String) : String :=
  "unknown thisArg policy `" ++ name ++ "` (expected thread|reject)"

end ThisPolicy

structure Options where
  operations : List Operation := Operation.all
  thisArg : ThisPolicy := .thread
  deriving DecidableEq, Repr

def Options.isEnabled (options : Options) (operation : Operation) : Bool :=
  options.operations.contains operation

end ArrayLoops.Lowering
