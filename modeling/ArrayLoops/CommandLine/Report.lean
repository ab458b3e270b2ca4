import ArrayLoops.CommandLine.Run
import ArrayLoops.Json.Layout
import ArrayLoops.Text.LineMap

/-!
# Reports

Which calls of which files were lowered.
-/

namespace ArrayLoops.CommandLine

open Lowering (Mode Operation)
open Text (LineMap)

/-- A lowered call. Lines and columns count from one, columns in bytes. -/
structure Site where
  operation : Operation
  mode : Mode
  line : Nat
  column : Nat

structure FileReport where
  path : String
  isLowered : Bool
  sites : List Site

structure Report where
  files : List FileReport

def FileResult.report (file : FileResult) : FileReport :=
  let sites := match file.outcome with
    | .ok lowered =>
      let map := LineMap.ofText file.source
      lowered.changes.map fun change =>
        let position := map.position change.pos
        { operation := change.operation, mode := change.mode
          line := position.line + 1, column := position.character + 1 }
    | .error _ => []
  { path := file.input.display, isLowered := file.isLowered, sites }

def Run.report (run : Run) : Report := { files := run.files.map FileResult.report }

namespace Report

def siteCount (report : Report) : Nat :=
  report.files.foldl (fun count file => count + file.sites.length) 0

def failedCount (report : Report) : Nat := (report.files.filter fun file => !file.isLowered).length

def siteLaid (site : Site) : Json.Laid :=
  Json.laidObject [("kind", Json.laidText site.operation.name),
    ("mode", Json.laidText site.mode.name), ("line", Json.laidNumber site.line),
    ("column", Json.laidNumber site.column)]

def fileLaid (file : FileReport) : Json.Laid :=
  Json.laidObject [("path", Json.laidText file.path), ("lowered", Json.laidFlag file.isLowered),
    ("rewrites", Json.laidList (file.sites.map siteLaid))]

def text (report : Report) : String :=
  Json.laidObject [("files", Json.laidList (report.files.map fileLaid)),
    ("totalRewrites", Json.laidNumber report.siteCount),
    ("failedFiles", Json.laidNumber report.failedCount)] 0

end Report

end ArrayLoops.CommandLine
