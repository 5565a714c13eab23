import Specializer.Settings.Basic
import Specializer.Toml.Format

/-!
# Settings files

A settings file is a document with the lists `debug_trace` and `dump` and the table `mono`; what
is missing has its standard value, and other keys are ignored. Instead of the table there may be
an array with its values in order. How documents look as texts is up to a format.
-/

set_option autoImplicit false

namespace Specializer

namespace Toml

def isVoid : Toml → Bool
  | .array items => items.isEmpty
  | .table _ entries => entries.isEmpty
  | .tables rows => rows.isEmpty
  | _ => false

/-- A name: a string, or a table that has the name as its only key, with an empty value. -/
def name? : Toml → Option String
  | .string value => some value
  | .table _ [(key, value)] => if value.isVoid then some key else none
  | _ => none

def items? : Toml → Option (List Toml)
  | .array items => some items
  | .tables rows => some (rows.map (.table .header))
  | _ => none

def natural? : Toml → Option Nat
  | .integer value => if 0 ≤ value then some value.toNat else none
  | _ => none

def boolean? : Toml → Option Bool
  | .boolean value => some value
  | _ => none

end Toml

/-- The value under a key as `read` understands it, or the standard one if the key is missing. -/
def readOr {α : Type} (read : Toml → Option α) (standard : α) (found : Option Toml) : Option α :=
  match found with
  | some value => read value
  | none => some standard

namespace Limits

def ofFields (maxInstances verifyConcrete : Option Toml) : Option Limits := do
  return ⟨← readOr Toml.natural? standard.maxInstances maxInstances,
    ← readOr Toml.boolean? standard.verifyConcrete verifyConcrete⟩

/-- Limits from a table, or from an array with the same values in order. A date has no such key. -/
def ofToml (value : Toml) : Option Limits :=
  match value with
  | .table _ entries =>
      ofFields (Toml.lookup entries "max_instances") (Toml.lookup entries "verify_concrete")
  | .moment => some standard
  | value => do
      let items ← value.items?
      ofFields items[0]? items[1]?

end Limits

namespace SettingsFile

def namesOf {α : Type} (ofName? : String → Option α) (value : Toml) : Option (List α) := do
  (← value.items?).mapM fun item => do ofName? (← item.name?)

def ofEntries (entries : Toml.Entries) : Option SettingsFile := do
  return ⟨← readOr (namesOf Topic.ofName?) [] (Toml.lookup entries "debug_trace"),
    ← readOr (namesOf Dump.ofName?) [] (Toml.lookup entries "dump"),
    ← readOr Limits.ofToml .standard (Toml.lookup entries "mono")⟩

def parse (format : Format) (text : String) : Option SettingsFile := do
  ofEntries (← format.read text)

def nameArray {α : Type} (name : α → String) (xs : List α) : Toml :=
  .array (xs.map fun x => .string (name x))

def document (file : SettingsFile) : Toml.Document where
  fields := [("debug_trace", nameArray Topic.name file.traces),
    ("dump", nameArray Dump.name file.dumps)]
  tables := [("mono", [("max_instances", .integer file.limits.maxInstances),
    ("verify_concrete", .boolean file.limits.verifyConcrete)])]

def write (format : Format) (file : SettingsFile) : Option String := format.write file.document

end SettingsFile

end Specializer
