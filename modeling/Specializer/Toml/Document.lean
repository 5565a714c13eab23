import Specializer.Toml.Quoted

/-!
# Documents

A document is a sequence of lines: headers, entries, comments and empty lines. Arrays may spread
over several lines and may end in a comma; a table written as a value stays on one line and may
not.
-/

set_option autoImplicit false

namespace Specializer.Toml

def skipComment : List Char → List Char
  | '#' :: rest => rest.dropWhile isTextChar
  | cs => cs

/-- Skip blanks, newlines and comments with the newline behind them. Inside a comment, its beginning
is kept: a comment without a newline is not skipped. -/
def skipTriviaFrom : Option (List Char) → List Char → List Char
  | beginning, [] => beginning.getD []
  | _, '\n' :: rest => skipTriviaFrom none rest
  | _, '\r' :: '\n' :: rest => skipTriviaFrom none rest
  | none, c :: rest =>
      if isBlank c then skipTriviaFrom none rest
      else if c = '#' then skipTriviaFrom (some (c :: rest)) rest
      else c :: rest
  | some beginning, c :: rest =>
      if isTextChar c then skipTriviaFrom (some beginning) rest else beginning

def skipTrivia (cs : List Char) : List Char := skipTriviaFrom none cs

def itemsWithin (item : List Char → Option (Toml × List Char)) :
    Nat → List Char → Option (List Toml × List Char)
  | 0, _ => none
  | fuel + 1, cs =>
      match skipTrivia cs with
      | ']' :: rest => some ([], rest)
      | cs => do
          let (first, rest) ← item cs
          match skipTrivia rest with
          | ',' :: rest => do
              let (others, rest) ← itemsWithin item fuel rest
              return (first :: others, rest)
          | ']' :: rest => return ([first], rest)
          | _ => none

def entry (item : List Char → Option (Toml × List Char)) (cs : List Char) :
    Option ((List String × Toml) × List Char) := do
  let (path, rest) ← key cs
  let rest ← expect '=' rest
  let (value, rest) ← item (skipBlanks rest)
  return ((path, value), rest)

def inlineWithin (item : List Char → Option (Toml × List Char)) :
    Nat → Entries → List Char → Option (Entries × List Char)
  | 0, _, _ => none
  | fuel + 1, entries, cs => do
      let ((path, value), rest) ← entry item cs
      let entries ← insertDotted value entries path
      match skipBlanks rest with
      | ',' :: rest => inlineWithin item fuel entries rest
      | '\x7d' :: rest => return (entries, rest)
      | _ => none

def inlineTable (bound : Nat) (item : List Char → Option (Toml × List Char)) (cs : List Char) :
    Option (Entries × List Char) :=
  match skipBlanks cs with
  | '\x7d' :: rest => some ([], rest)
  | rest => inlineWithin item bound [] rest

def stringValue (cs : List Char) : Option (Toml × List Char) :=
  (quotedString cs).map fun found => (.string (String.ofList found.1), found.2)

/-- A value that holds others to the given depth, and at no place more of them than the bound. -/
def value (bound : Nat) : Nat → List Char → Option (Toml × List Char)
  | depth, cs =>
      match depth, cs with
      | _, '"' :: _ => stringValue cs
      | _, '\'' :: _ => stringValue cs
      | depth + 1, '[' :: rest =>
          (itemsWithin (value bound depth) bound rest).map fun found => (.array found.1, found.2)
      | depth + 1, '\x7b' :: rest =>
          (inlineTable bound (value bound depth) rest).map fun found =>
            (.table .inline found.1, found.2)
      | _, _ => scalar cs

/-- What may follow on a line: blanks, a comment, and a newline or the end of the text. -/
def lineEnd (cs : List Char) : Option (List Char) :=
  match skipComment (skipBlanks cs) with
  | [] => some []
  | rest => newline rest

structure Reading where
  root : Entries
  path : List String

/-- A header, which opens the table at the end of its path. -/
def header (opened : Entries → String → Option Entries) (closing : List Char) (r : Reading)
    (cs : List Char) : Option (Reading × List Char) := do
  let (path, rest) ← key cs
  let rest ← if closing.isPrefixOf rest then some (rest.drop closing.length) else none
  let last ← path.getLast?
  let root ← changeAt r.root (fun entries => opened entries last) path.dropLast
  return (⟨root, path⟩, ← lineEnd rest)

def line (bound : Nat) (r : Reading) (cs : List Char) : Option (Reading × List Char) :=
  match cs with
  | '[' :: '[' :: rest => header openRow [']', ']'] r rest
  | '[' :: rest => header openTable [']'] r rest
  | _ => do
      let ((path, v), rest) ← entry (value bound (maxNesting - 1)) cs
      let root ← changeAt r.root (fun entries => insertDotted v entries path) r.path
      return (⟨root, r.path⟩, ← lineEnd rest)

def linesWithin (bound : Nat) : Nat → Reading → List Char → Option Entries
  | 0, _, _ => none
  | fuel + 1, r, cs =>
      match skipTrivia cs with
      | [] => some r.root
      | '#' :: rest => if (rest.dropWhile isTextChar).isEmpty then some r.root else none
      | cs => do
          let (r, rest) ← line bound r cs
          linesWithin bound fuel r rest

/-- The entries of a document. A byte order mark in front is skipped. No part of a document can hold
more than the document has characters, which bounds every loop. -/
def parse (text : String) : Option Entries :=
  let cs := match text.toList with
    | '\ufeff' :: rest => rest
    | cs => cs
  let bound := cs.length + 1
  linesWithin bound bound ⟨[], []⟩ cs

end Specializer.Toml
