import Specializer.Decimal.Shortest
import Specializer.Toml.Value

/-!
# Numbers, truth values and dates

A scalar without quotes is a run of letters, digits and a few signs, and is read as a whole.
Integers have 64 bits; a positive float that exceeds every finite number is refused; dates follow
the calendar.
-/

set_option autoImplicit false

namespace Specializer.Toml

def isWordChar (c : Char) : Bool :=
  c.isAlphanum || c == '+' || c == '-' || c == '_' || c == '.' || c == ':'

/-- Digits, of which single underscores may keep neighbours apart. -/
def isDigitRun (isDigit : Char → Bool) : List Char → Bool
  | [] => false
  | [c] => isDigit c
  | c :: '_' :: rest => isDigit c && isDigitRun isDigit rest
  | c :: rest => isDigit c && isDigitRun isDigit rest

def digitValue (c : Char) : Nat :=
  if c.isDigit then c.toNat - '0'.toNat else 10 + (c.toLower.toNat - 'a'.toNat)

def numeral (base : Nat) (cs : List Char) : Nat :=
  (cs.filter fun c => c ≠ '_').foldl (fun n c => base * n + digitValue c) 0

def isDecimal (c : Char) : Bool := c.isDigit

def isHexadecimal (c : Char) : Bool :=
  c.isDigit || ('a' ≤ c && c ≤ 'f') || ('A' ≤ c && c ≤ 'F')

def isOctal (c : Char) : Bool := '0' ≤ c && c ≤ '7'

def isBinary (c : Char) : Bool := c == '0' || c == '1'

def splitSign : List Char → Bool × List Char
  | '-' :: rest => (true, rest)
  | '+' :: rest => (false, rest)
  | cs => (false, cs)

/-- A decimal numeral has no zero in front of other digits. -/
def isPlainDecimal (cs : List Char) : Bool :=
  isDigitRun isDecimal cs && (cs.length == 1 || cs.head? != some '0')

def maxInteger : Nat := 9223372036854775807

def based (base : Nat) (isDigit : Char → Bool) (cs : List Char) : Option Int :=
  if isDigitRun isDigit cs && decide (numeral base cs ≤ maxInteger) then
    some (numeral base cs)
  else none

def decimal (cs : List Char) : Option Int :=
  let (negative, digits) := splitSign cs
  if isPlainDecimal digits then
    let n := numeral 10 digits
    if negative then (if n ≤ maxInteger + 1 then some (-n) else none)
    else if n ≤ maxInteger then some n else none
  else none

def integer? : List Char → Option Int
  | '0' :: 'x' :: rest => based 16 isHexadecimal rest
  | '0' :: 'o' :: rest => based 8 isOctal rest
  | '0' :: 'b' :: rest => based 2 isBinary rest
  | cs => decimal cs

/-- Whether `digits · 10^place` rounds to infinity in double precision. -/
def overflows (digits : Nat) (place : Int) : Bool :=
  let bound := Decimal.power 2 1024 - Decimal.power 2 970
  let size : Int := (toString digits).length + place
  if digits = 0 ∨ size < 300 then false
  else if 400 < size then true
  else decide (bound * Decimal.power 10 (-place).toNat ≤ digits * Decimal.power 10 place.toNat)

def exponent? : List Char → Option Int
  | [] => some 0
  | e :: rest =>
      let (negative, digits) := splitSign rest
      if (e == 'e' || e == 'E') && isDigitRun isDecimal digits then
        let n : Int := numeral 10 digits
        some (if negative then -n else n)
      else none

def isFloatDigit (c : Char) : Bool := c.isDigit || c == '_'

/-- A float has a fraction, an exponent or both. -/
def finite? (negative : Bool) (cs : List Char) : Option Unit := do
  let whole := cs.takeWhile isFloatDigit
  let rest := cs.dropWhile isFloatDigit
  guard (isPlainDecimal whole && !rest.isEmpty)
  let (fraction, rest) ← match rest with
    | '.' :: tail =>
        let fraction := tail.takeWhile isFloatDigit
        if isDigitRun isDecimal fraction then some (fraction, tail.dropWhile isFloatDigit) else none
    | _ => some ([], rest)
  let place ← exponent? rest
  let digits := (whole ++ fraction).filter fun c => c ≠ '_'
  let places := (fraction.filter fun c => c ≠ '_').length
  guard (negative || !overflows (numeral 10 digits) (place - places))

def float? (cs : List Char) : Option Unit :=
  let (negative, rest) := splitSign cs
  if rest = ['i', 'n', 'f'] ∨ rest = ['n', 'a', 'n'] then some () else finite? negative rest

def twoDigits (low high : Nat) : List Char → Option (Nat × List Char)
  | a :: b :: rest =>
      let n := numeral 10 [a, b]
      if a.isDigit && b.isDigit && decide (low ≤ n ∧ n ≤ high) then some (n, rest) else none
  | _ => none

def expect (c : Char) : List Char → Option (List Char)
  | d :: rest => if d = c then some rest else none
  | [] => none

def daysIn (year month : Nat) : Nat :=
  if month = 2 then
    if year % 4 = 0 ∧ (year % 100 ≠ 0 ∨ year % 400 = 0) then 29 else 28
  else if month ∈ [4, 6, 9, 11] then 30
  else 31

def date? (cs : List Char) : Option (List Char) := do
  let year := cs.take 4
  guard (year.length == 4 && year.all Char.isDigit)
  let rest ← expect '-' (cs.drop 4)
  let (month, rest) ← twoDigits 1 12 rest
  let rest ← expect '-' rest
  let (_, rest) ← twoDigits 1 (daysIn (numeral 10 year) month) rest
  return rest

/-- A time of day with seconds; a leap second is allowed. -/
def time? (cs : List Char) : Option (List Char) := do
  let (_, rest) ← twoDigits 0 23 cs
  let rest ← expect ':' rest
  let (_, rest) ← twoDigits 0 59 rest
  let rest ← expect ':' rest
  let (_, rest) ← twoDigits 0 60 rest
  match rest with
  | '.' :: fraction =>
      if (fraction.takeWhile Char.isDigit).isEmpty then none
      else return fraction.dropWhile Char.isDigit
  | _ => return rest

def offset? : List Char → Option Unit
  | [] => some ()
  | ['Z'] => some ()
  | ['z'] => some ()
  | sign :: rest => do
      guard (sign == '+' || sign == '-')
      let (_, rest) ← twoDigits 0 23 rest
      let rest ← expect ':' rest
      let (_, rest) ← twoDigits 0 59 rest
      guard rest.isEmpty

def timeOfDate? (cs : List Char) : Option Unit := do offset? (← time? cs)

/-- A date alone or with a time behind the letter T, or a time alone. -/
def moment? (cs : List Char) : Option Unit :=
  match date? cs with
  | some [] => some ()
  | some (c :: rest) => if c == 'T' || c == 't' then timeOfDate? rest else none
  | none => do guard (← time? cs).isEmpty

def scalar? (cs : List Char) : Option Toml :=
  if cs = ['t', 'r', 'u', 'e'] then some (.boolean true)
  else if cs = ['f', 'a', 'l', 's', 'e'] then some (.boolean false)
  else match integer? cs with
    | some n => some (.integer n)
    | none => ((float? cs).map fun _ => .float) <|> (moment? cs).map fun _ => .moment

/-- A scalar and what follows it. A blank may stand between a date and a time. -/
def scalar (cs : List Char) : Option (Toml × List Char) := do
  let word := cs.takeWhile isWordChar
  let rest := cs.dropWhile isWordChar
  let value ← scalar? word
  match rest with
  | ' ' :: tail =>
      if date? word = some [] ∧ timeOfDate? (tail.takeWhile isWordChar) = some () then
        return (.moment, tail.dropWhile isWordChar)
      else return (value, rest)
  | _ => return (value, rest)

end Specializer.Toml
