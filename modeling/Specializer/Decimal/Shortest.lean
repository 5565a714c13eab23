/-!
# Shortest decimals of binary floating-point numbers

A finite binary number `m · 2^e` is written with the fewest decimal digits that read back as the
same number; among those the nearest one is taken, and an exact tie goes upwards. All comparisons
are made in exact integer arithmetic.
-/

set_option autoImplicit false

namespace Specializer.Decimal

/-- The power of a base, fixed to natural numbers. -/
def power (base exponent : Nat) : Nat := Nat.pow base exponent

structure Format where
  fraction : Nat
  exponent : Nat

def single : Format := ⟨23, 8⟩

def double : Format := ⟨52, 11⟩

inductive Binary where
  | nan
  | infinite (negative : Bool)
  /-- `mantissa · 2^exponent`; `edge` says that the next smaller number is only half as far away as
  the next larger one -/
  | finite (negative : Bool) (mantissa : Nat) (exponent : Int) (edge : Bool)

namespace Format

def magnitude (f : Format) (bits : Nat) : Nat := bits % power 2 (f.fraction + f.exponent)

def isNegative (f : Format) (bits : Nat) : Bool := bits / power 2 (f.fraction + f.exponent) % 2 == 1

/-- The magnitude of infinity; every greater magnitude is no number. -/
def infinity (f : Format) : Nat := (power 2 f.exponent - 1) * power 2 f.fraction

def decode (f : Format) (bits : Nat) : Binary :=
  let magnitude := f.magnitude bits
  let negative := f.isNegative bits
  let significand := magnitude % power 2 f.fraction
  let biased := magnitude / power 2 f.fraction
  let offset : Int := power 2 (f.exponent - 1) - 2 + f.fraction
  if f.infinity < magnitude then .nan
  else if magnitude = f.infinity then .infinite negative
  else if biased = 0 then .finite negative significand (-offset) false
  else .finite negative (power 2 f.fraction + significand) (biased - 1 - offset)
    (significand == 0 && decide (1 < biased))

end Format

/-- The point of the grid `10^place` that reads back as `m · 2^e`, if there is one: the nearer one
of the two neighbours of the number on that grid, the upper one on a tie. The ends of the interval
that reads back belong to it exactly when the mantissa is even. -/
def onGrid (mantissa : Nat) (exponent : Int) (edge : Bool) (place : Int) : Option Nat :=
  let quarter := exponent - 2
  let scale (x : Nat) : Nat := x * power 2 quarter.toNat * power 10 (-place).toNat
  let unit := power 2 (-quarter).toNat * power 10 place.toNat
  let value := scale (4 * mantissa)
  let low := scale (4 * mantissa - if edge then 1 else 2)
  let high := scale (4 * mantissa + 2)
  let reads (candidate : Nat) : Bool :=
    if mantissa % 2 = 0 then decide (low ≤ candidate * unit ∧ candidate * unit ≤ high)
    else decide (low < candidate * unit ∧ candidate * unit < high)
  let below := value / unit
  let above := below + 1
  match reads below, reads above with
  | true, true =>
      if value - below * unit < above * unit - value then some below else some above
  | true, false => some below
  | false, true => some above
  | false, false => none

/-- A decimal place that lies above the number: `log10 2` is less than `0.30103`. -/
def topPlace (mantissa : Nat) (exponent : Int) : Int :=
  ((Nat.log2 mantissa + 1 + exponent) * 30103) / 100000 + 2

/-- Digits and decimal place of the shortest decimal. Seventeen digits always suffice for the
formats above, so the search over the coarsest grids finds one. -/
def shortest (mantissa : Nat) (exponent : Int) (edge : Bool) : Nat × Int :=
  if mantissa = 0 then (0, 0)
  else
    let top := topPlace mantissa exponent
    let places : List Int := (List.range 24).map fun step : Nat => top - step
    (places.findSome? fun place =>
      (onGrid mantissa exponent edge place).map fun digits => (digits, place)).getD (0, 0)

/-- `digits · 10^place` without an exponent. -/
def positional (digits : Nat) (place : Int) : String :=
  let text := (toString digits).toList
  let point : Int := text.length + place
  if 0 ≤ place then String.ofList (text ++ List.replicate place.toNat '0')
  else if 0 < point then
    String.ofList (text.take point.toNat ++ '.' :: text.drop point.toNat)
  else String.ofList ('0' :: '.' :: List.replicate (-point).toNat '0' ++ text)

/-- The text of a bit pattern: never an exponent, no point after a whole number, a sign for negative
zero, none for what is no number. -/
def text (f : Format) (bits : Nat) : String :=
  match f.decode bits with
  | .nan => "NaN"
  | .infinite negative => if negative then "-inf" else "inf"
  | .finite negative mantissa exponent edge =>
      let (digits, place) := shortest mantissa exponent edge
      (if negative then "-" else "") ++ positional digits place

end Specializer.Decimal
