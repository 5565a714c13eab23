/-!
# Boxed tables

Rows of cells under headers, drawn with box characters. A table that is too wide takes one
character at a time from its widest column, the last one among equals, and a cell that no longer
fits ends in a plus sign. A table without rows is an empty box.
-/

set_option autoImplicit false

namespace Specializer.Text

structure Table where
  headers : List (List Char)
  rows : List (List (List Char))
  maxWidth : Nat

namespace Table

def naturalWidths (t : Table) : List Nat :=
  t.rows.foldl (fun widths row => List.zipWith max widths (row.map List.length))
    (t.headers.map List.length)

/-- The width of the whole box: three characters between columns, two at either end. -/
def boxWidth (widths : List Nat) : Nat :=
  widths.foldl (fun sum width => sum + width) (3 * (widths.length - 1) + 4)

/-- Take one from the last of the greatest widths. -/
def shrink (widths : List Nat) : List Nat :=
  let widest := widths.foldl max 0
  let last := widths.length - 1 - (widths.reverse.findIdx fun w => w == widest)
  widths.modify last fun w => w - 1

def widths (t : Table) : List Nat :=
  let natural := t.naturalWidths
  Nat.repeat shrink (boxWidth natural - t.maxWidth) natural

def fit (width : Nat) (cell : List Char) : List Char :=
  if cell.length ≤ width then cell ++ List.replicate (width - cell.length) ' '
  else if width = 0 then []
  else cell.take (width - 1) ++ ['+']

def line (left middle right : String) (cells : List (List Char)) : String :=
  left ++ middle.intercalate (cells.map String.ofList) ++ right ++ "\n"

def rule (left middle right : String) (widths : List Nat) : String :=
  line left middle right (widths.map fun w => List.replicate w '─')

def row (widths : List Nat) (cells : List (List Char)) : String :=
  line "│ " " │ " " │" (List.zipWith fit widths cells)

def render (t : Table) : String :=
  if t.rows.isEmpty then "┌──┐\n│  │\n└──┘\n"
  else
    let widths := t.widths
    rule "┌─" "─┬─" "─┐" widths ++ row widths t.headers ++ rule "├─" "─┼─" "─┤" widths ++
      String.join (t.rows.map (row widths)) ++ rule "└─" "─┴─" "─┘" widths

end Table

end Specializer.Text
