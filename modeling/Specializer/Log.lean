import Specializer.Settings.Basic
import Specializer.Text.Style

/-!
# Log lines

Banners of phases, traces of single topics and debug lines. The settings decide which of them are
kept.
-/

set_option autoImplicit false

namespace Specializer

inductive LogLine where
  | started (message : String)
  | finished (message : String)
  | cautioned (message : String)
  | traced (topic : Topic) (message : String)
  | debug (message : String)
  deriving DecidableEq

def Settings.shows (s : Settings) : LogLine → Bool
  | .started _ => s.showsPhases
  | .finished _ => s.showsPhases
  | .cautioned _ => s.showsPhases
  | .traced topic _ => s.tracing topic
  | .debug _ => s.showsDebug

namespace LogLine

def arrow (color : Text.Color) (colors : Bool) : String :=
  (Text.Style.boldOf color).paint colors "-->"

def text (colors : Bool) : LogLine → String
  | .started message => "    " ++ arrow .brightGreen colors ++ " " ++ message ++ "\n"
  | .finished message => arrow .brightGreen colors ++ " " ++ message ++ "\n"
  | .cautioned message => arrow .brightYellow colors ++ " " ++ message ++ "\n"
  | .traced topic message => "debug[" ++ topic.name ++ "]: " ++ message ++ "\n"
  | .debug message => "debug: " ++ message ++ "\n"

end LogLine

/-- The lines kept so far, newest first. -/
abbrev Log : Type := List LogLine

namespace Log

def write (log : Log) (settings : Settings) (line : LogLine) : Log :=
  if settings.shows line then line :: log else log

def text (colors : Bool) (log : Log) : String := String.join (log.reverse.map (LogLine.text colors))

end Log

end Specializer
