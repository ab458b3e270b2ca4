import ArrayLoops.Lowering.Options
import ArrayLoops.Text.Chars
import ArrayLoops.Text.LineMap
import ArrayLoops.Text.Lowercase
import ArrayLoops.Text.Word

/-!
# Fixtures

A fixture is a program with notes for its use in comment lines of the form `// @key: value`. A
fixture that contains the word `FUN` is a template: the name of an operation takes its place.
-/

namespace ArrayLoops.Fixture

open Lowering (Operation Options ThisPolicy UnknownOperation)
open Text (isBlank isWordChar)

/-- The key and the value of a note. Keys are read without regard to case. -/
def note? (line : List Char) : Option (String × String) :=
  match line.dropWhile isBlank with
  | '/' :: '/' :: comment =>
    match comment.dropWhile isBlank with
    | '@' :: rest =>
      let key := rest.takeWhile isWordChar
      match (rest.dropWhile isWordChar).dropWhile isBlank with
      | ':' :: value =>
        if key.isEmpty then none
        else
          let value := (value.dropWhile isBlank).takeWhile fun c => c != '\r' && c != '\n'
          some (Text.lowercase (String.ofList key), Text.trim (String.ofList value))
      | _ => none
    | _ => none
  | _ => none

abbrev Notes := List (String × String)

/-- A later note replaces an earlier one of the same key. -/
def Notes.put (key value : String) : Notes → Notes
  | [] => [(key, value)]
  | (other, old) :: rest =>
    if key == other then (key, value) :: rest
    else if key < other then (key, value) :: (other, old) :: rest
    else (other, old) :: Notes.put key value rest

def notes (content : String) : Notes :=
  (Text.lines content).foldl (fun notes line =>
    match note? line with
    | some (key, value) => Notes.put key value notes
    | none => notes) []

def isSkipped (notes : Notes) : Bool := (notes.lookup "skip").isSome

def isWordEnd (next : Option Char) : Bool := !next.any isWordChar

/-- Puts `name` in place of the word `FUN`. `before` is the character in front of the text. -/
def instantiateFrom (name : List Char) (before : Option Char) : List Char → List Char
  | 'F' :: 'U' :: 'N' :: rest =>
    if isWordEnd before && isWordEnd rest.head? then
      name ++ instantiateFrom name (some 'N') rest
    else 'F' :: 'U' :: 'N' :: instantiateFrom name (some 'N') rest
  | c :: rest => c :: instantiateFrom name (some c) rest
  | [] => []

def instantiate (content : String) (operation : Operation) : String :=
  String.ofList (instantiateFrom operation.name.toList none content.toList)

def hasPlaceholder (before : Option Char) : List Char → Bool
  | 'F' :: 'U' :: 'N' :: rest =>
    isWordEnd before && isWordEnd rest.head? || hasPlaceholder (some 'N') rest
  | c :: rest => hasPlaceholder (some c) rest
  | [] => false

def isTemplate (content : String) : Bool := hasPlaceholder none content.toList

inductive NoteError where
  | kinds (error : UnknownOperation)
  | operations (error : UnknownOperation)
  | thisArg (name : String)
  deriving DecidableEq, Repr

def NoteError.message : NoteError → String
  | .kinds error => "invalid @kinds: " ++ error.message
  | .operations error => "invalid @operations: " ++ error.message
  | .thisArg name => "invalid @thisArg: " ++ ThisPolicy.unknownMessage name

def operationList (value : String) : Except UnknownOperation (List Operation) :=
  let names := (Text.pieces ',' value).map Text.trim
  (names.filter fun name => !name.isEmpty).mapM Operation.ofName

def kinds (notes : Notes) : Except NoteError (List Operation) :=
  match notes.lookup "kinds" with
  | some value => (operationList value).mapError .kinds
  | none => .ok Operation.all

def options (notes : Notes) : Except NoteError Options := do
  let operations ← match notes.lookup "operations" with
    | some value => (operationList value).mapError .operations
    | none => pure Operation.all
  let thisArg ← match notes.lookup "thisarg" with
    | some name =>
      match ThisPolicy.ofName? name with
      | some policy => pure policy
      | none => throw (.thisArg name)
    | none => pure .thread
  return { operations, thisArg }

end ArrayLoops.Fixture
