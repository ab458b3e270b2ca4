import ArrayLoops.Diagnostic
import ArrayLoops.Text.LineMap

/-!
# Reporting

A reporter knows the texts of some files and writes diagnostics as
`file:line:column - error LD1005: message`, with the line in question and a mark below the span. Line
maps are made when they are first needed and kept.
-/

namespace ArrayLoops

open Text (LineMap Position)

structure Reporter where
  color : Bool := false
  /-- The texts by file; the first one of a file counts. -/
  sources : List (String × String) := []
  lineMaps : List (String × LineMap) := []

namespace Reporter

/-- Gives a file a text. A line map that was made of an earlier text stays. -/
def addSource (reporter : Reporter) (file text : String) : Reporter :=
  { reporter with sources := (file, text) :: reporter.sources }

def lineMap? (reporter : Reporter) (file : String) : Option LineMap × Reporter :=
  match reporter.sources.lookup file with
  | none => (none, reporter)
  | some text =>
    match reporter.lineMaps.lookup file with
    | some map => (some map, reporter)
    | none =>
      let map := LineMap.ofText text
      (some map, { reporter with lineMaps := (file, map) :: reporter.lineMaps })

def position? (reporter : Reporter) (file : String) (offset : Nat) :
    Option Position × Reporter :=
  let (map, reporter) := reporter.lineMap? file
  (map.map (·.position offset), reporter)

/-- Offsets and columns are words of 32 bits. -/
def wrapped (n : Nat) : Nat := n % 0x100000000

def painted (reporter : Reporter) (code text : String) : String :=
  if reporter.color then "\x1b[" ++ code ++ "m" ++ text ++ "\x1b[0m" else text

def severityColor : Severity → String
  | .error => "1;31"
  | .warning => "1;33"
  | .message => "1;36"

def width (c : Char) : Nat := if c == '\t' then 4 else 1

/-- Marks below the characters numbered from `first` up to `last`, blanks below those before.
`offset` is the number of the first character. -/
def marks (first last offset : Nat) : List Char → List Char
  | [] => []
  | c :: cs =>
    if last ≤ offset then []
    else
      List.replicate (width c) (if offset < first then ' ' else '~') ++
        marks first last (offset + 1) cs

def underline (line : List Char) (first length : Nat) : List Char :=
  let marks := marks first (wrapped (first + length)) 0 line
  if marks.contains '~' then marks else marks ++ ['~']

def padded (width : Nat) (text : String) : String :=
  String.ofList (List.replicate (width - text.length) ' ') ++ text

def snippet? (reporter : Reporter) (file : String) (start length : Nat) :
    Option String × Reporter :=
  if file.isEmpty || length == 0 then (none, reporter)
  else
    match reporter.position? file start with
    | (none, reporter) => (none, reporter)
    | (some position, reporter) =>
      let text? := do (Text.lines (← reporter.sources.lookup file))[position.line]?
      (text?.map fun text =>
        "\n  " ++ padded 3 (toString (position.line + 1)) ++ "   " ++ String.ofList text ++ "\n        " ++
          reporter.painted "31" (String.ofList (underline text position.character length)), reporter)

/-- Where a diagnostic is: at a line and a column of a known text, both counted from one, or just in
a file. -/
def location (reporter : Reporter) (file : String) (start : Nat) : String × Reporter :=
  if file.isEmpty then ("<unknown>", reporter)
  else
    match reporter.position? file start with
    | (none, reporter) => (file, reporter)
    | (some position, reporter) =>
      (file ++ ":" ++ toString (position.line + 1) ++ ":" ++
        toString (wrapped (position.character + 1)), reporter)

def label (reporter : Reporter) (diagnostic : Diagnostic) : String :=
  let severity := reporter.painted (severityColor diagnostic.severity) diagnostic.severity.label
  if diagnostic.code == 0 then severity
  else severity ++ " " ++ reporter.painted "94" ("LD" ++ toString diagnostic.code)

def format (reporter : Reporter) (diagnostic : Diagnostic) : String × Reporter :=
  let (location, reporter) := reporter.location diagnostic.file diagnostic.start
  let (snippet, reporter) := reporter.snippet? diagnostic.file diagnostic.start diagnostic.length
  (location ++ " - " ++ reporter.label diagnostic ++ ": " ++ diagnostic.message ++
    snippet.getD "", reporter)

def formatEach (reporter : Reporter) : List Diagnostic → List String × Reporter
  | [] => ([], reporter)
  | diagnostic :: rest =>
    let (text, reporter) := reporter.format diagnostic
    let (texts, reporter) := reporter.formatEach rest
    (text :: texts, reporter)

def render (reporter : Reporter) (diagnostics : List Diagnostic) : String × Reporter :=
  let (texts, reporter) := reporter.formatEach diagnostics
  ("\n".intercalate texts, reporter)

end Reporter

end ArrayLoops
