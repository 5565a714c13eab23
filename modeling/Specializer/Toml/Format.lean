import Specializer.Toml.Document

/-!
# Formats

A document to be written has values under keys and, behind them, tables of such values. A format
writes documents and reads texts. The one given here keeps to plain documents: keys without quotes,
strings without escapes, integers, truth values, and arrays of these on one line.
-/

set_option autoImplicit false

namespace Specializer

namespace Toml

/-- Characters that stand for themselves between quotes. -/
def isPlainChar (c : Char) : Bool := isTextChar c && c != '"' && c != '\\'

def isBareWord (word : String) : Bool := !word.toList.isEmpty && word.toList.all isBareChar

def isScalar : Toml → Bool
  | .string value => value.toList.all isPlainChar
  | .integer _ => true
  | .boolean _ => true
  | _ => false

def isPlain : Toml → Bool
  | .array items => items.all isScalar
  | value => value.isScalar

def isScalarInRange : Toml → Bool
  | .integer value => decide (-(maxInteger + 1) ≤ value ∧ value ≤ maxInteger)
  | _ => true

/-- Whether all integers have 64 bits. -/
def isInRange : Toml → Bool
  | .array items => items.all isScalarInRange
  | value => value.isScalarInRange

def scalarText : Toml → String
  | .string value => "\"" ++ value ++ "\""
  | .integer value => toString value
  | .boolean value => if value then "true" else "false"
  | _ => ""

def text : Toml → String
  | .array items => "[" ++ ", ".intercalate (items.map scalarText) ++ "]"
  | value => value.scalarText

def entryText (entry : String × Toml) : String := entry.1 ++ " = " ++ entry.2.text ++ "\n"

def blockText (block : Entries) : String := String.join (block.map entryText)

def tableText (table : String × Entries) : String :=
  "\n[" ++ table.1 ++ "]\n" ++ blockText table.2

structure Document where
  fields : Entries
  tables : List (String × Entries)

namespace Document

/-- What a text of the document holds: every table has a header of its own. -/
def entries (d : Document) : Entries :=
  d.fields ++ d.tables.map fun table => (table.1, .table .header table.2)

/-- The parts of a document that have keys and values of their own. -/
def blocks (d : Document) : List Entries := d.fields :: d.tables.map Prod.snd

def isPlain (d : Document) : Bool :=
  (d.entries :: d.blocks).all (fun block => decide (block.map Prod.fst).Nodup) &&
    (d.entries :: d.blocks).all (fun block => block.all fun entry => isBareWord entry.1) &&
    d.blocks.all fun block => block.all fun entry => entry.2.isPlain

def isInRange (d : Document) : Bool :=
  d.blocks.all fun block => block.all fun entry => entry.2.isInRange

def text (d : Document) : String := blockText d.fields ++ String.join (d.tables.map tableText)

def write (d : Document) : Option String := if d.isPlain && d.isInRange then some d.text else none

end Document

end Toml

structure Format where
  write : Toml.Document → Option String
  read : String → Option Toml.Entries

def Format.toml : Format := ⟨Toml.Document.write, Toml.parse⟩

end Specializer
