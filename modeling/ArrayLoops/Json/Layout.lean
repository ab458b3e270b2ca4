import ArrayLoops.Text.Chars

/-!
# JSON over several lines

Values as they are laid out at some indentation: every item on a line of its own, two blanks deeper
than the brackets around it.
-/

namespace ArrayLoops.Json

open Text (hexDigit)

def quotedChar (c : Char) : List Char :=
  match c with
  | '"' => ['\\', '"']
  | '\\' => ['\\', '\\']
  | '\x08' => ['\\', 'b']
  | '\x0c' => ['\\', 'f']
  | '\n' => ['\\', 'n']
  | '\r' => ['\\', 'r']
  | '\t' => ['\\', 't']
  | c =>
    if c.toNat < 0x20 then
      ['\\', 'u', '0', '0', hexDigit (c.toNat / 16), hexDigit (c.toNat % 16)]
    else [c]

def quoted (value : String) : String :=
  String.ofList ('"' :: value.toList.flatMap quotedChar ++ ['"'])

abbrev Laid := Nat → String

def newline (indent : Nat) : String := "\n" ++ String.ofList (List.replicate (2 * indent) ' ')

def bracketed (left right : String) (items : List Laid) : Laid := fun indent =>
  if items.isEmpty then left ++ right
  else
    left ++ ",".intercalate (items.map fun item => newline (indent + 1) ++ item (indent + 1)) ++
      newline indent ++ right

def laidText (text : String) : Laid := fun _ => quoted text

def laidNumber (number : Nat) : Laid := fun _ => toString number

def laidFlag (flag : Bool) : Laid := fun _ => if flag then "true" else "false"

def laidList (items : List Laid) : Laid := bracketed "[" "]" items

def laidObject (members : List (String × Laid)) : Laid :=
  bracketed "\x7b" "\x7d" (members.map fun (key, value) indent => quoted key ++ ": " ++ value indent)

end ArrayLoops.Json
