/-!
# Values of a configuration text

A document is a table of entries. Tables remember how they came about, because that decides what
may still be added to them: a table written by a header can be filled once, one that only lies on
the way to another can still get a header of its own, one grown by dotted keys takes further
dotted keys only, and one written as a value is closed.
-/

set_option autoImplicit false

namespace Specializer

inductive TableOrigin where
  /-- written as a value -/
  | inline
  /-- passed through by a header of a table inside it -/
  | passed
  /-- grown by dotted keys -/
  | dotted
  /-- opened by its own header -/
  | header
  deriving DecidableEq

inductive Toml where
  | string (value : String)
  | integer (value : Int)
  | float
  | boolean (value : Bool)
  /-- a date, a time of day or both -/
  | moment
  | array (items : List Toml)
  | table (origin : TableOrigin) (entries : List (String × Toml))
  /-- tables that share one header, in order -/
  | tables (rows : List (List (String × Toml)))

namespace Toml

abbrev Entries : Type := List (String × Toml)

def lookup (entries : Entries) (key : String) : Option Toml :=
  (entries.find? fun entry => decide (entry.1 = key)).map Prod.snd

def put (entries : Entries) (key : String) (value : Toml) : Entries :=
  match entries with
  | [] => [(key, value)]
  | entry :: rest => if entry.1 = key then (key, value) :: rest else entry :: put rest key value

def insertNew (entries : Entries) (key : String) (value : Toml) : Option Entries :=
  match lookup entries key with
  | some _ => none
  | none => some (entries ++ [(key, value)])

def changeLast (rows : List Entries) (change : Entries → Option Entries) :
    Option (List Entries) := do
  let last ← rows.getLast?
  return rows.dropLast ++ [← change last]

/-- Change the table at the end of the path of a header. Missing tables on the way are made, and of
tables that share a header the last one is meant. -/
def changeAt (entries : Entries) (change : Entries → Option Entries) : List String → Option Entries
  | [] => change entries
  | key :: path =>
      match lookup entries key with
      | none => do return entries ++ [(key, .table .passed (← changeAt [] change path))]
      | some (.table .inline _) => none
      | some (.table origin inner) => do
          return put entries key (.table origin (← changeAt inner change path))
      | some (.tables rows) => do
          return put entries key (.tables (← changeLast rows fun row => changeAt row change path))
      | some _ => none

/-- Put a value at a dotted key. All but the last part name tables; those are made when they are
missing, may not have a header of their own, and the one that takes the value has to be grown by
dotted keys. -/
def insertDotted (value : Toml) : Entries → List String → Option Entries
  | _, [] => none
  | entries, [key] => insertNew entries key value
  | entries, key :: path =>
      match lookup entries key with
      | none => do return entries ++ [(key, .table .dotted (← insertDotted value [] path))]
      | some (.table .dotted inner) => do
          return put entries key (.table .dotted (← insertDotted value inner path))
      | some (.table .passed inner) =>
          if path.length = 1 then none
          else do return put entries key (.table .passed (← insertDotted value inner path))
      | some (.tables rows) =>
          if path.length = 1 then none
          else do
            let rows ← changeLast rows fun row => insertDotted value row path
            return put entries key (.tables rows)
      | some _ => none

def openTable (entries : Entries) (key : String) : Option Entries :=
  match lookup entries key with
  | none => some (entries ++ [(key, .table .header [])])
  | some (.table .passed inner) => some (put entries key (.table .header inner))
  | some _ => none

def openRow (entries : Entries) (key : String) : Option Entries :=
  match lookup entries key with
  | none => some (entries ++ [(key, .tables [[]])])
  | some (.tables rows) => some (put entries key (.tables (rows ++ [[]])))
  | some _ => none

end Toml

end Specializer
