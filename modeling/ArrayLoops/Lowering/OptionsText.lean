import ArrayLoops.Json.Reader
import ArrayLoops.Lowering.Options

/-!
# Options as text

Options are written as a JSON object with the fields `operations` and `thisArg`. Fields can be left
out, and a list of the two values in this order is read in the same way.
-/

namespace ArrayLoops.Lowering

open Json (Reader)

namespace Options

def operationsReader : Reader (List Operation) :=
  Json.list (Json.named (Operation.all.map fun operation => (operation.name, operation)))

def policyReader : Reader ThisPolicy :=
  Json.named (ThisPolicy.all.map fun policy => (policy.name, policy))

structure Fields where
  operations : Option (List Operation) := none
  thisArg : Option ThisPolicy := none

def Fields.toOptions (fields : Fields) : Options :=
  let defaults : Options := {}
  { operations := fields.operations.getD defaults.operations
    thisArg := fields.thisArg.getD defaults.thisArg }

def fieldNames : List String := ["operations", "thisArg"]

def membersOnto : Nat → Bool → Fields → Reader Fields
  | 0, _, fields => return fields
  | n + 1, first, fields => do
    if ← Json.hasMember first then
      Json.skip
      let name ← Json.stringRest
      match name with
      | "operations" =>
        if fields.operations.isSome then Json.refuse (.repeatedField name)
        else
          Json.colon
          membersOnto n false { fields with operations := some (← operationsReader) }
      | "thisArg" =>
        if fields.thisArg.isSome then Json.refuse (.repeatedField name)
        else
          Json.colon
          membersOnto n false { fields with thisArg := some (← policyReader) }
      | _ => Json.refuse (.unknownField name fieldNames)
    else return fields

def itemsReader : Reader Fields := do
  if ← Json.hasItem true then
    let operations := some (← operationsReader)
    if ← Json.hasItem false then
      return { operations, thisArg := some (← policyReader) }
    else return { operations }
  else return {}

def fieldsReader : Reader Fields := do
  match ← Json.peekValue with
  | '[' =>
    Json.skip
    Json.placed (Json.enclosed itemsReader Json.endList)
  | '\x7b' =>
    Json.skip
    Json.placed (Json.enclosed (membersOnto 3 true {}) Json.endObject)
  | _ => Json.wrongType "struct LoweringOptions"

def ofText (text : String) : Except Json.Problem Options :=
  (Json.read fieldsReader text).map Fields.toOptions

end Options

end ArrayLoops.Lowering
