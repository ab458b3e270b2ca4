import ArrayLoops.Complaint
import ArrayLoops.Text.Chars

/-!
# From characters to tokens

A token is read at a byte offset from the characters that follow. Reading first passes over blanks
and comments, then takes the longest token, and leaves the characters behind it. All lexical
complaints of a token are kept in it, those of the comments before it included.
-/

namespace ArrayLoops

structure Token where
  kind : Token.Kind
  start : Nat
  fin : Nat
  value : String
  text : String
  /-- Whether a line ends between the token before and this one. -/
  lineBreakBefore : Bool
  complaints : List Complaint
  deriving DecidableEq, Repr

namespace Token

/-- A token without its place in a text. -/
structure Word where
  kind : Kind
  value : String
  text : String
  deriving DecidableEq, Repr

def word (token : Token) : Word := ⟨token.kind, token.value, token.text⟩

open Text

/-- Where a character between two tokens stands. -/
inductive Gap where
  | blank
  | lineComment
  | blockComment (start : Nat)

/-- What lies before a token: where it ends, whether a line ended in it, the characters behind it
and the start of a comment that is not closed. -/
structure Trivia where
  fin : Nat
  lineBreak : Bool
  rest : List Char
  unclosed : Option Nat

def skipTrivia : Gap → Nat → Bool → List Char → Trivia
  | .blank, pos, lineBreak, '/' :: '/' :: cs => skipTrivia .lineComment (pos + 2) lineBreak cs
  | .blank, pos, lineBreak, '/' :: '*' :: cs => skipTrivia (.blockComment pos) (pos + 2) lineBreak cs
  | .blank, pos, lineBreak, c :: cs =>
    if isLineBreak c then skipTrivia .blank (pos + c.utf8Size) true cs
    else if isInlineBlank c then skipTrivia .blank (pos + c.utf8Size) lineBreak cs
    else ⟨pos, lineBreak, c :: cs, none⟩
  | .lineComment, pos, lineBreak, c :: cs =>
    if isLineBreak c then skipTrivia .blank (pos + c.utf8Size) true cs
    else skipTrivia .lineComment (pos + c.utf8Size) lineBreak cs
  | .blockComment _, pos, lineBreak, '*' :: '/' :: cs => skipTrivia .blank (pos + 2) lineBreak cs
  | .blockComment start, pos, lineBreak, c :: cs =>
    skipTrivia (.blockComment start) (pos + c.utf8Size) (lineBreak || isLineBreak c) cs
  | .blockComment start, pos, lineBreak, [] => ⟨pos, lineBreak, [], some start⟩
  | _, pos, lineBreak, [] => ⟨pos, lineBreak, [], none⟩

def run (p : Char → Bool) (cs : List Char) : List Char × List Char :=
  (cs.takeWhile p, cs.dropWhile p)

def fraction : List Char → List Char × List Char
  | '.' :: cs => let (digits, rest) := run Char.isDigit cs; ('.' :: digits, rest)
  | cs => ([], cs)

def sign : List Char → List Char × List Char
  | c :: cs => if c == '+' || c == '-' then ([c], cs) else ([], c :: cs)
  | [] => ([], [])

/-- An exponent; an `e` without digits behind it is none. -/
def exponent : List Char → List Char × List Char
  | e :: cs =>
    if e == 'e' || e == 'E' then
      let (sign, unsigned) := sign cs
      match run Char.isDigit unsigned with
      | ([], _) => ([], e :: cs)
      | (digits, rest) => (e :: sign ++ digits, rest)
    else ([], e :: cs)
  | [] => ([], [])

def number (cs : List Char) : List Char × List Char :=
  match cs with
  | '0' :: x :: rest =>
    if x == 'x' || x == 'X' then
      let (digits, rest) := run isHexDigit rest
      ('0' :: x :: digits, rest)
    else decimal cs
  | _ => decimal cs
where
  decimal (cs : List Char) : List Char × List Char :=
    let (whole, rest) := run Char.isDigit cs
    let (part, rest) := fraction rest
    let (power, rest) := exponent rest
    (whole ++ part ++ power, rest)

/-- The inside of a string literal up to its closing quote, the rest from that quote on, and
whether the quote is there. A character behind a backslash never closes the string. -/
def stringBody (quote : Char) : List Char → List Char × List Char × Bool
  | [] => ([], [], false)
  | '\\' :: c :: cs =>
    let (body, rest, closed) := stringBody quote cs
    ('\\' :: c :: body, rest, closed)
  | c :: cs =>
    if c == quote then ([], c :: cs, true)
    else if isLineBreak c then ([], c :: cs, false)
    else
      let (body, rest, closed) := stringBody quote cs
      (c :: body, rest, closed)

/-- How far the resolution of an escape has come. -/
inductive EscapeState where
  | outside
  | backslash
  | hex (start digits code : Nat)

/-- Resolution of escapes, character by character. -/
structure Cooking where
  state : EscapeState
  pos : Nat
  value : List Char
  complaints : List Complaint

namespace Cooking

def start (pos : Nat) : Cooking := ⟨.outside, pos, [], []⟩

/-- A character outside of escapes. -/
def plain (k : Cooking) (c : Char) : Cooking :=
  if c == '\\' then { k with state := .backslash }
  else { k with state := .outside, value := c :: k.value }

/-- The single character that a one-letter escape stands for. -/
def simpleEscape (c : Char) : Char :=
  match c with
  | 'n' => '\n'
  | 't' => '\t'
  | 'r' => '\r'
  | 'b' => '\x08'
  | 'f' => '\x0c'
  | 'v' => '\x0b'
  | '0' => '\x00'
  | c => c

/-- Ends a numeric escape: four digits give a character unless they name half a surrogate pair. -/
def closeHex (k : Cooking) (start digits code : Nat) : Cooking :=
  if digits == 4 && !(0xD800 ≤ code && code ≤ 0xDFFF) then
    { k with state := .outside, value := Char.ofNat code :: k.value }
  else
    { k with state := .outside, complaints := k.complaints ++ [⟨start, digits, .hexDigitExpected⟩] }

def step (k : Cooking) (c : Char) : Cooking :=
  let next := k.pos + c.utf8Size
  match k.state with
  | .outside => { k.plain c with pos := next }
  | .backslash =>
    if c == 'u' then { k with state := .hex next 0 0, pos := next }
    else if isLineBreak c then { k with state := .outside, pos := next }
    else { k with state := .outside, value := simpleEscape c :: k.value, pos := next }
  | .hex start digits code =>
    if isHexDigit c then
      let k := { k with pos := next }
      if digits == 3 then k.closeHex start 4 (code * 16 + hexValue c)
      else { k with state := .hex start (digits + 1) (code * 16 + hexValue c) }
    else { (k.closeHex start digits code).plain c with pos := next }

def finish (k : Cooking) : Cooking :=
  match k.state with
  | .hex start digits code => k.closeHex start digits code
  | _ => k

def ofBody (pos : Nat) (body : List Char) : Cooking := (body.foldl step (start pos)).finish

end Cooking

def punctuationAt? (cs : List Char) : Option Kind :=
  Kind.punctuation.find? fun kind => kind.spelling.toList.isPrefixOf cs

structure Lexeme where
  kind : Kind
  value : String
  text : List Char
  rest : List Char
  complaints : List Complaint

def stringLexeme (pos : Nat) (quote : Char) (cs : List Char) : Lexeme :=
  let (body, rest, closed) := stringBody quote cs
  let text := quote :: body ++ (if closed then [quote] else [])
  let cooked := Cooking.ofBody (pos + quote.utf8Size) body
  let unterminated := if closed then [] else [⟨pos, byteLength text, .unterminatedString⟩]
  { kind := .string
    value := String.ofList cooked.value.reverse
    text
    rest := if closed then rest.drop 1 else rest
    complaints := cooked.complaints ++ unterminated }

def nameLexeme (cs : List Char) : Lexeme :=
  let (name, rest) := run isNamePart cs
  let word := String.ofList name
  { kind := (Kind.ofWord? word).getD .identifier
    value := word
    text := name
    rest
    complaints := [] }

def numberLexeme (cs : List Char) : Lexeme :=
  let (digits, rest) := number cs
  { kind := .number, value := String.ofList digits, text := digits, rest, complaints := [] }

def markLexeme (pos : Nat) (c : Char) (cs : List Char) : Lexeme :=
  match punctuationAt? (c :: cs) with
  | some kind =>
    let mark := kind.spelling.toList
    { kind, value := "", text := mark, rest := (c :: cs).drop mark.length, complaints := [] }
  | none =>
    { kind := .unknown
      value := ""
      text := [c]
      rest := cs
      complaints := [⟨pos, c.utf8Size, .invalidCharacter⟩] }

/-- Whether a number starts here: with a digit, or with a point and a digit. -/
def startsNumber : List Char → Bool
  | c :: cs => c.isDigit || (c == '.' && (cs.head?.any Char.isDigit))
  | [] => false

def lexemeAt (pos : Nat) : List Char → Lexeme
  | [] => { kind := .endOfFile, value := "", text := [], rest := [], complaints := [] }
  | c :: cs =>
    if c == '"' || c == '\'' then stringLexeme pos c cs
    else if startsNumber (c :: cs) then numberLexeme (c :: cs)
    else if isNameStart c then nameLexeme (c :: cs)
    else markLexeme pos c cs

/-- The next token at or behind `pos`, and the characters that follow it. -/
def next (pos : Nat) (cs : List Char) : Token × List Char :=
  let gap := skipTrivia .blank pos false cs
  let lexeme := lexemeAt gap.fin gap.rest
  let unclosed := match gap.unclosed with
    | some start => [⟨start, gap.fin - start, .unclosedComment⟩]
    | none => []
  ({ kind := lexeme.kind
     start := gap.fin
     fin := gap.fin + byteLength lexeme.text
     value := lexeme.value
     text := String.ofList lexeme.text
     lineBreakBefore := gap.lineBreak
     complaints := unclosed ++ lexeme.complaints },
   lexeme.rest)

/-- At most `count` tokens, ending with the first end-of-file token. -/
def listFrom : Nat → Nat → List Char → List Token
  | 0, _, _ => []
  | count + 1, pos, cs =>
    let (token, rest) := next pos cs
    if token.kind == .endOfFile then [token] else token :: listFrom count token.fin rest

/-- All tokens of a text, the end-of-file token included. Every token but this one takes a
character, so there are at most one more than characters. -/
def list (text : String) : List Token :=
  let cs := text.toList
  listFrom (cs.length + 1) 0 cs

end Token

end ArrayLoops
