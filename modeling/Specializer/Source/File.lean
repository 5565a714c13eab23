import Specializer.Source.Span

/-!
# Source files and positions

A file knows the byte at which each of its lines starts. A position is shown as a line and a column,
both counted from one; columns count characters, or bytes where the position cuts a character apart.
Positions behind the end of the text count as its end. Whatever is read from the table or cut out of
the text is asked for by index, and an index or a range that does not fit is a fault. Positions,
lines and columns have 32 bits, and a line or a column beyond them is a fault as well.
-/

set_option autoImplicit false

namespace Specializer

namespace Source

def bytes (text : String) : List UInt8 := text.toUTF8.data.toList

def newline : UInt8 := 10

/-- The first line starts the text, and another one starts after every newline. -/
def startsOf (bytes : List UInt8) : List Nat :=
  0 :: bytes.zipIdx.filterMap fun entry => if entry.1 = newline then some (entry.2 + 1) else none

def wordLimit : Nat := 4294967296

/-- Line starts are cut to 32 bits. -/
def lineTable (bytes : List UInt8) : Array Nat :=
  ((startsOf bytes).map fun start => start % wordLimit).toArray

/-- The number of 32 bits that follows a count, which is itself cut to them. -/
def following (count : Nat) : Read Nat :=
  if count % wordLimit + 1 < wordLimit then .ok (count % wordLimit + 1) else .error .overflow

def entry {α : Type} (items : Array α) (index : Nat) : Read α :=
  match items[index]? with
  | some item => .ok item
  | none => .error .outside

def cut (bytes : List UInt8) (start stop : Nat) : Read (List UInt8) :=
  if stop < start then .error .reversed
  else if bytes.length < stop then .error .outside
  else .ok ((bytes.take stop).drop start)

/-- Among the lines from `low` up to `high`, of which the first starts at or before a position, the
last one that does. The lines are halved until one is left. -/
def searchLine (starts : Array Nat) (position low high : Nat) : Read Nat :=
  if h : low + 1 < high then do
    if (← entry starts ((low + high) / 2)) ≤ position then
      searchLine starts position ((low + high) / 2) high
    else
      searchLine starts position low ((low + high) / 2)
  else
    return low
termination_by high - low

/-- The number of characters that the bytes spell, or of bytes if they spell no text. -/
def width (slice : List UInt8) : Nat :=
  match String.fromUTF8? ⟨slice.toArray⟩ with
  | some text => text.length
  | none => slice.length

/-- The pieces between newlines; there is one more of them than there are newlines. -/
def pieces : List Char → List (List Char)
  | [] => [[]]
  | c :: rest =>
      if c = '\n' then [] :: pieces rest
      else match pieces rest with
        | first :: others => (c :: first) :: others
        | [] => [[c]]

def dropReturn (cs : List Char) : List Char :=
  if cs.getLast? = some '\r' then cs.dropLast else cs

/-- The lines of a text without their terminators: a newline, or a carriage return and a newline.
The empty piece behind a last newline is no line. -/
def lines (text : String) : List (List Char) :=
  let all := pieces text.toList
  let last := all.getLast?.getD []
  all.dropLast.map dropReturn ++ if last.isEmpty then [] else [last]

end Source

open Source

structure SourceFile where
  path : String
  text : String
  lineStarts : Array Nat
  starts_eq : lineStarts = lineTable (bytes text)

namespace SourceFile

def ofText (path text : String) : SourceFile := ⟨path, text, lineTable (bytes text), rfl⟩

/-- Line and column of a byte position, both from one. -/
def locate (f : SourceFile) (position : Nat) : Read (Nat × Nat) := do
  let all := bytes f.text
  let line ← searchLine f.lineStarts position 0 f.lineStarts.size
  let lineStart ← entry f.lineStarts line
  let stop := min position all.length
  let slice ← cut all (min lineStart stop) stop
  return (← following line, ← following (width slice))

end SourceFile

structure SourceMap where
  files : Arena .files SourceFile

namespace SourceMap

def empty : SourceMap := ⟨.empty⟩

def add (m : SourceMap) (label text : String) : FileId × SourceMap :=
  (m.files.next, ⟨m.files.push (.ofText ("<" ++ label ++ ">") text)⟩)

def get? (m : SourceMap) (id : FileId) : Option SourceFile := m.files.get? id

def locate (m : SourceMap) (file : FileId) (position : Nat) : Read (Nat × Nat) := do
  (← m.files.read file).locate position

end SourceMap

end Specializer
