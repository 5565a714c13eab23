import Specializer.Decimal.Shortest
import Specializer.Text.Escape

/-!
# Literals

Compile-time constants. Two literals denote the same value when their canonical forms are equal:
all patterns that are no number are one value, and so are the two zeros. This is coarser than
equality of literals, whose text may still tell them apart.
-/

set_option autoImplicit false

namespace Specializer

inductive Width where
  | w8 | w16 | w32 | w64
  deriving DecidableEq

inductive Precision where
  | single | double
  deriving DecidableEq

/-- A constant; floating-point numbers are kept as bit patterns and a character is one byte. -/
inductive Literal where
  | signed (width : Width) (value : Int)
  | unsigned (width : Width) (value : Nat)
  | floating (precision : Precision) (bits : Nat)
  | boolean (value : Bool)
  | character (byte : Nat)
  | string (value : String)
  | unit
  deriving DecidableEq

def Width.rank : Width → Nat
  | .w8 => 0
  | .w16 => 1
  | .w32 => 2
  | .w64 => 3

def Precision.format : Precision → Decimal.Format
  | .single => Decimal.single
  | .double => Decimal.double

/-- A number that orders bit patterns by value, with all patterns that are no number at the top. -/
def Decimal.Format.orderKey (f : Decimal.Format) (bits : Nat) : Int :=
  let magnitude := f.magnitude bits
  if f.infinity < magnitude then f.infinity + 1
  else if f.isNegative bits then -magnitude else magnitude

namespace Literal

def canonical : Literal → Literal
  | .floating precision bits =>
      let f := precision.format
      if f.infinity < f.magnitude bits then .floating precision (f.infinity + 1)
      else if f.magnitude bits = 0 then .floating precision 0
      else .floating precision bits
  | literal => literal

def same (a b : Literal) : Bool := decide (a.canonical = b.canonical)

def rank : Literal → Nat
  | .signed width _ => width.rank
  | .unsigned width _ => 4 + width.rank
  | .floating .single _ => 8
  | .floating .double _ => 9
  | .boolean _ => 10
  | .character _ => 11
  | .string _ => 12
  | .unit => 13

def measure : Literal → Nat
  | .signed _ value => value.natAbs
  | .unsigned _ value => value
  | .floating _ bits => bits
  | .boolean value => value.toNat
  | .character byte => byte
  | .string value => value.length
  | .unit => 0

/-- Kinds first, then values. -/
def order (a b : Literal) : Ordering :=
  (compare a.rank b.rank).then <|
    match a, b with
    | .signed _ x, .signed _ y => compare x y
    | .unsigned _ x, .unsigned _ y => compare x y
    | .floating precision x, .floating _ y =>
        compare (precision.format.orderKey x) (precision.format.orderKey y)
    | .boolean x, .boolean y => compare x y
    | .character x, .character y => compare x y
    | .string x, .string y => compare x y
    | _, _ => .eq

def text : Literal → String
  | .signed _ value => toString value
  | .unsigned _ value => toString value
  | .floating precision bits => Decimal.text precision.format bits
  | .boolean value => if value then "true" else "false"
  | .character byte => "'" ++ Text.byteChar byte ++ "'"
  | .string value => Text.quoted value
  | .unit => "()"

end Literal

end Specializer
