import Specializer.Source.File
import Specializer.Text.Style

/-!
# Diagnostics

A diagnostic is shown as a header, an excerpt with the span underlined, and notes. A span outside
the known files has no excerpt.
-/

set_option autoImplicit false

namespace Specializer

inductive Severity where
  | error | warning
  deriving DecidableEq

structure Diagnostic where
  severity : Severity
  code : String
  message : String
  span : Span
  /-- the instance that was being built -/
  context : Option String
  notes : List String

namespace Diagnostic

open Text

def plain (severity : Severity) (code message : String) (span : Span) : Diagnostic :=
  ⟨severity, code, message, span, none, []⟩

def isError (d : Diagnostic) : Bool := decide (d.severity = .error)

def arrow (colors : Bool) : String := (Style.boldOf .blue).paint colors "-->"

def pipe (colors : Bool) : String := (Style.boldOf .blue).paint colors (padRight 3 "|")

def bold (colors : Bool) (text : String) : String := Style.paint ⟨true, none⟩ colors text

def header (d : Diagnostic) (colors : Bool) : String :=
  (match d.severity with
    | .error => (Style.boldOf .red).paint colors "Error" ++ "[" ++
        (Style.boldOf .red).paint colors d.code ++ "]: "
    | .warning => (Style.boldOf .yellow).paint colors "Warning" ++ "[" ++
        Style.paint ⟨false, some .yellow⟩ colors d.code ++ "]: ") ++
    bold colors d.message ++ "\n" ++
    match d.context with
    | some name => "  " ++ (Style.boldOf .blue).paint colors "in instance" ++ " " ++ name ++ "\n"
    | none => ""

/-- The number of carets: within one line the columns that the span covers, otherwise the bytes of
the line behind the start; never less than one. -/
def underlineLength (line column stopLine stopColumn lineBytes : Nat) : Nat :=
  max (if line = stopLine then stopColumn - column else lineBytes - column) 1

def underline (colors : Bool) (column carets : Nat) : String :=
  "   " ++ pipe colors ++ String.ofList (List.replicate (column - 1) ' ') ++
    (Style.boldOf .red).paint colors (String.ofList (List.replicate carets '^')) ++ "\n"

def excerpt (d : Diagnostic) (colors : Bool) (file : SourceFile) : Read String := do
  let (line, column) ← file.locate d.span.start
  let (stopLine, stopColumn) ← file.locate d.span.stop
  return "  " ++ arrow colors ++ " " ++ bold colors file.path ++ ":" ++
    bold colors (toString line) ++ ":" ++ bold colors (toString column) ++ "\n" ++
    "   " ++ pipe colors ++ "\n" ++
    match (Source.lines file.text)[line - 1]? with
    | some shown =>
        let shown := String.ofList shown
        (Style.boldOf .blue).paint colors (padRight 3 (toString line)) ++ pipe colors ++ shown ++
          "\n" ++ underline colors column
            (underlineLength line column stopLine stopColumn shown.utf8ByteSize)
    | none => ""

def body (d : Diagnostic) (colors : Bool) (sources : SourceMap) : Read String :=
  match sources.get? d.span.file with
  | some file => d.excerpt colors file
  | none => .ok ("  " ++ arrow colors ++ " <synthetic>\n")

def render (d : Diagnostic) (colors : Bool) (sources : SourceMap) : Read String := do
  return d.header colors ++ (← d.body colors sources) ++
    String.join (d.notes.map fun note =>
      "  " ++ (Style.boldOf .cyan).paint colors "note:" ++ " " ++ note ++ "\n") ++ "\n"

end Diagnostic

end Specializer
