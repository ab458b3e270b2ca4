import ArrayLoops.Lowering.Options
import ArrayLoops.Text.Chars
import ArrayLoops.Text.LineMap

/-!
# Arguments

What the command is asked to do. Options may be spelled `--name value`, `--name=value`, `-nvalue` and
`-n=value`; behind `--` everything is a path. A value that stands apart from its option is looked at
when the next argument shows that it is complete, so that of two mistakes an unknown argument may be
reported before an earlier bad value.
-/

namespace ArrayLoops.CommandLine

open Lowering (Operation ThisPolicy)

structure Arguments where
  paths : List String := []
  outFolder : Option String := none
  config : Option String := none
  only : Option (List Operation) := none
  thisArg : Option ThisPolicy := none
  exclude : List String := []
  report : Bool := false
  noColor : Bool := false
  deriving DecidableEq, Repr

/-- Why the command does not run: the arguments are wrong, or they ask for its description. -/
inductive UsageError where
  | unknownArgument
  | emptyValue
  | refusedValue
  | repeated
  | superfluousValue
  | help
  | version
  deriving DecidableEq, Repr

inductive Setting where
  | outFolder | config | only | thisArg | exclude
  deriving DecidableEq, Repr

inductive Switch where
  | report | noColor | help | version
  deriving DecidableEq, Repr

def longOption? : String → Option (Setting ⊕ Switch)
  | "out-dir" | "outDir" => some (.inl .outFolder)
  | "config" => some (.inl .config)
  | "only" => some (.inl .only)
  | "this-arg" | "thisArg" => some (.inl .thisArg)
  | "exclude" => some (.inl .exclude)
  | "report" => some (.inr .report)
  | "no-color" => some (.inr .noColor)
  | "help" => some (.inr .help)
  | "version" => some (.inr .version)
  | _ => none

def shortOption? : Char → Option (Setting ⊕ Switch)
  | 'o' => some (.inl .outFolder)
  | 'c' => some (.inl .config)
  | 'h' => some (.inr .help)
  | 'V' => some (.inr .version)
  | _ => none

namespace Arguments

def nonEmpty (value : String) : Except UsageError String :=
  if value.isEmpty then .error .emptyValue else .ok value

def once {α : Type} (old : Option α) (value : Except UsageError α) :
    Except UsageError (Option α) :=
  if old.isSome then .error .repeated else value.map some

def operation (name : String) : Except UsageError Operation :=
  (Operation.ofName (Text.trim name)).mapError fun _ => .refusedValue

def policy (name : String) : Except UsageError ThisPolicy :=
  match ThisPolicy.ofName? (Text.trim name) with
  | some policy => .ok policy
  | none => .error .refusedValue

def accept (arguments : Arguments) (setting : Setting) (value : String) :
    Except UsageError Arguments :=
  match setting with
  | .outFolder => do
    return { arguments with outFolder := ← once arguments.outFolder (nonEmpty value) }
  | .config => do
    return { arguments with config := ← once arguments.config (nonEmpty value) }
  | .only => do
    let operations ← (Text.pieces ',' value).mapM operation
    return { arguments with only := some (arguments.only.getD [] ++ operations) }
  | .thisArg => do
    return { arguments with thisArg := ← once arguments.thisArg (policy value) }
  | .exclude => .ok { arguments with exclude := arguments.exclude ++ [value] }

def turnOn (arguments : Arguments) (switch : Switch) : Except UsageError Arguments :=
  match switch with
  | .report =>
    if arguments.report then .error .repeated else .ok { arguments with report := true }
  | .noColor =>
    if arguments.noColor then .error .repeated else .ok { arguments with noColor := true }
  | .help => .error .help
  | .version => .error .version

end Arguments

inductive Pending where
  | nothing
  | setting (setting : Setting) (value : Option String)
  | paths (paths : List String)
  deriving DecidableEq, Repr

structure Draft where
  arguments : Arguments := {}
  pending : Pending := .nothing
  /-- Whether only paths can follow. -/
  onlyPaths : Bool := false

namespace Draft

def settle (draft : Draft) : Except UsageError Draft :=
  match draft.pending with
  | .nothing => .ok draft
  | .setting _ none => .error .emptyValue
  | .setting setting (some value) => do
    return { draft with arguments := ← draft.arguments.accept setting value, pending := .nothing }
  | .paths paths => do
    let paths ← paths.mapM Arguments.nonEmpty
    let arguments := { draft.arguments with paths := draft.arguments.paths ++ paths }
    return { draft with arguments, pending := .nothing }

def addPath (draft : Draft) (path : String) : Except UsageError Draft :=
  match draft.pending with
  | .paths paths => .ok { draft with pending := .paths (paths ++ [path]) }
  | _ => do
    let draft ← draft.settle
    return { draft with pending := .paths [path] }

def addOption (draft : Draft) (option : Setting ⊕ Switch) (value : Option String) :
    Except UsageError Draft :=
  match option, value with
  | .inl setting, some value => do
    let draft ← draft.settle
    return { draft with arguments := ← draft.arguments.accept setting value }
  | .inl setting, none => do
    let draft ← draft.settle
    return { draft with pending := .setting setting none }
  | .inr _, some _ => .error .superfluousValue
  | .inr switch, none => do
    let draft ← draft.settle
    return { draft with arguments := ← draft.arguments.turnOn switch }

def addLong (draft : Draft) (text : List Char) : Except UsageError Draft :=
  let name := text.takeWhile (· != '=')
  let value := match text.dropWhile (· != '=') with
    | _ :: value => some (String.ofList value)
    | [] => none
  match longOption? (String.ofList name) with
  | some option => draft.addOption option value
  | none => .error .unknownArgument

/-- A short option. What follows a switch is not looked at: the short switches end the reading. -/
def addShort (draft : Draft) (name : Char) (rest : List Char) : Except UsageError Draft :=
  match shortOption? name with
  | some (.inl setting) =>
    let value := match rest with
      | [] => none
      | '=' :: value => some (String.ofList value)
      | value => some (String.ofList value)
    draft.addOption (.inl setting) value
  | some (.inr switch) => draft.addOption (.inr switch) none
  | none => .error .unknownArgument

def addValue (draft : Draft) (value : String) : Except UsageError Draft :=
  match draft.pending with
  | .setting setting none => .ok { draft with pending := .setting setting (some value) }
  | _ => draft.addPath value

def add (draft : Draft) (argument : String) : Except UsageError Draft :=
  if draft.onlyPaths then draft.addPath argument
  else
    match argument.toList with
    | ['-', '-'] => .ok { draft with onlyPaths := true }
    | '-' :: '-' :: text => draft.addLong text
    | '-' :: name :: rest => draft.addShort name rest
    | _ => draft.addValue argument

end Draft

def Arguments.parse (arguments : List String) : Except UsageError Arguments := do
  let draft ← arguments.foldlM Draft.add {}
  return (← draft.settle).arguments

end ArrayLoops.CommandLine
