import ArrayLoops.Token.Lexer

/-!
# Scanning by byte offsets

The scanner at work: it holds a byte offset, looks at the text from there on, moves by the size of
what it has seen or jumps, and cuts the words out at the end. A cut behind the end of the text or
inside a character fails.
-/

namespace ArrayLoops.Token.Cursor

open Text

/-- The characters before and behind a byte offset. -/
def splitAt? : List Char → Nat → Option (List Char × List Char)
  | cs, 0 => some ([], cs)
  | [], _ + 1 => none
  | c :: cs, pos + 1 =>
    if c.utf8Size ≤ pos + 1 then
      (splitAt? cs (pos + 1 - c.utf8Size)).map fun (before, behind) => (c :: before, behind)
    else none

def slice? (text : List Char) (start fin : Nat) : Option (List Char) := do
  let (before, _) ← splitAt? text fin
  let (_, inside) ← splitAt? before start
  return inside

/-- The character `index` places behind the offset, if the text goes on so far. -/
def peekAt (text : List Char) (pos index : Nat) : Option (Option Char) := do
  let (_, behind) ← splitAt? text pos
  return behind[index]?

section
variable (text : List Char)

def bump (pos : Nat) : Option Nat := do
  return pos + ((← peekAt text pos 0).elim 0 Char.utf8Size)

def bumpTimes : Nat → Nat → Option Nat
  | 0, pos => some pos
  | count + 1, pos => do bumpTimes count (← bump text pos)

def bumpWhile (p : Char → Bool) : Nat → Nat → Option Nat
  | 0, _ => none
  | fuel + 1, pos => do
    match ← peekAt text pos 0 with
    | some c => if p c then bumpWhile p fuel (pos + c.utf8Size) else return pos
    | none => return pos

/-- Where blanks and comments end, whether a line ended in them, and the start of a comment that is
not closed. -/
def skip : Nat → Gap → Nat → Bool → Option (Nat × Bool × Option Nat)
  | 0, _, _, _ => none
  | fuel + 1, .blank, pos, lineBreak => do
    match ← peekAt text pos 0 with
    | none => return (pos, lineBreak, none)
    | some c =>
      if isLineBreak c then skip fuel .blank (pos + c.utf8Size) true
      else if isInlineBlank c then skip fuel .blank (pos + c.utf8Size) lineBreak
      else if c == '/' && (← peekAt text pos 1) == some '/' then skip fuel .lineComment pos lineBreak
      else if c == '/' && (← peekAt text pos 1) == some '*' then
        skip fuel (.blockComment pos) (pos + 2) lineBreak
      else return (pos, lineBreak, none)
  | fuel + 1, .lineComment, pos, lineBreak => do
    match ← peekAt text pos 0 with
    | none => skip fuel .blank pos lineBreak
    | some c =>
      if isLineBreak c then skip fuel .blank pos lineBreak
      else skip fuel .lineComment (pos + c.utf8Size) lineBreak
  | fuel + 1, .blockComment start, pos, lineBreak => do
    match ← peekAt text pos 0 with
    | none => return (pos, lineBreak, some start)
    | some c =>
      let behind := pos + c.utf8Size
      if isLineBreak c then skip fuel (.blockComment start) behind true
      else if c == '*' && (← peekAt text behind 0) == some '/' then
        skip fuel .blank (← bump text behind) lineBreak
      else skip fuel (.blockComment start) behind lineBreak

def fraction (fuel pos : Nat) : Option Nat := do
  if (← peekAt text pos 0) == some '.' then bumpWhile text Char.isDigit fuel (← bump text pos)
  else return pos

def sign (pos : Nat) : Option Nat := do
  if (← peekAt text pos 0).any fun c => c == '+' || c == '-' then bump text pos else return pos

/-- Goes back to the offset when no digit follows. -/
def exponent (fuel pos : Nat) : Option Nat := do
  if (← peekAt text pos 0).any fun e => e == 'e' || e == 'E' then
    let unsigned ← sign text (← bump text pos)
    if (← peekAt text unsigned 0).any Char.isDigit then bumpWhile text Char.isDigit fuel unsigned
    else return pos
  else return pos

def number (fuel pos : Nat) : Option Nat := do
  if (← peekAt text pos 0) == some '0' && (← peekAt text pos 1).any (fun x => x == 'x' || x == 'X') then
    bumpWhile text isHexDigit fuel (pos + 2)
  else
    exponent text fuel (← fraction text fuel (← bumpWhile text Char.isDigit fuel pos))

/-- Where a string ends, what its inside stands for, and whether a quote closes it. -/
def inString (quote : Char) : Nat → Nat → Cooking → Option (Nat × Cooking × Bool)
  | 0, _, _ => none
  | fuel + 1, pos, k => do
    match ← peekAt text pos 0 with
    | none => return (pos, k.finish, false)
    | some c =>
      let behind := pos + c.utf8Size
      match k.state with
      | .backslash => inString quote fuel behind (k.step c)
      | .hex _ _ _ =>
        if isHexDigit c then inString quote fuel behind (k.step c) else inString quote fuel pos k.finish
      | .outside =>
        if c == quote then return (behind, k, true)
        else if isLineBreak c then return (pos, k, false)
        else inString quote fuel behind (k.step c)

/-- The kind, the value, the end and the complaints of the token that starts at the offset. -/
def lex (fuel start : Nat) : Option (Kind × String × Nat × List Complaint) := do
  match ← peekAt text start 0 with
  | none => return (.endOfFile, "", start, [])
  | some c =>
    let behind := start + c.utf8Size
    if c == '"' || c == '\'' then
      let (fin, cooked, closed) ← inString text c fuel behind (.start behind)
      let unterminated := if closed then [] else [⟨start, fin - start, .unterminatedString⟩]
      return (.string, .ofList cooked.value.reverse, fin, cooked.complaints ++ unterminated)
    else if c.isDigit || (c == '.' && (← peekAt text start 1).any Char.isDigit) then
      let fin ← number text fuel start
      return (.number, .ofList (← slice? text start fin), fin, [])
    else if isNameStart c then
      let fin ← bumpWhile text isNamePart fuel start
      let word := .ofList (← slice? text start fin)
      return ((Kind.ofWord? word).getD .identifier, word, fin, [])
    else
      -- A mark has at most three characters.
      let ahead := (← peekAt text behind 0).toList ++ (← peekAt text behind 1).toList
      match punctuationAt? (c :: ahead) with
      | some kind => return (kind, "", ← bumpTimes text (kind.spelling.length - 1) behind, [])
      | none => return (.unknown, "", behind, [⟨start, c.utf8Size, .invalidCharacter⟩])

/-- The next token at or behind the offset. -/
def scan (pos : Nat) : Option Token := do
  let fuel := 2 * text.length + 2
  let (start, lineBreak, unclosed) ← skip text fuel .blank pos false
  let (kind, value, fin, complaints) ← lex text fuel start
  let word ← slice? text start fin
  let before := unclosed.toList.map fun comment => ⟨comment, start - comment, .unclosedComment⟩
  return ⟨kind, start, fin, value, .ofList word, lineBreak, before ++ complaints⟩

end

end ArrayLoops.Token.Cursor
