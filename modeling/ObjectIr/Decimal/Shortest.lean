import ObjectIr.Double

/-!
# Shortest decimals

Every finite double has an interval of reals that round to it. `shortest` finds the coarsest power
of ten that has a multiple in the interval, and of its multiples there the one nearest to the
double, the upper one when two are equally near. That decimal has the fewest digits of all that
read back as the same double. All arithmetic is on natural numbers.
-/

namespace ObjectIr

/-- The number `digits * 10 ^ exponent`. -/
structure Decimal where
  digits : Nat
  exponent : Int
  deriving DecidableEq

/--
The reals that round to one positive double, in units of `2 ^ exponent`. The ends belong to the
interval exactly when `closed` holds.
-/
structure RoundingInterval where
  low : Nat
  value : Nat
  high : Nat
  exponent : Int
  closed : Bool

namespace Double

/-- The fractions of a double have 52 bits. -/
def fractionRange : Nat := Nat.pow 2 52

/--
The interval of a positive finite double. A double rounds to an even significand from both ends;
below a power of two the neighbour is only half as far away, except at the subnormals.
-/
def roundingInterval (x : Double) : RoundingInterval :=
  let field := x.magnitude / fractionRange
  let fraction := x.magnitude % fractionRange
  let significand := if field = 0 then fraction else fractionRange + fraction
  let exponent : Int := (if field = 0 then 1 else field : Nat) - 1075
  let halfway := if fraction = 0 ∧ 1 < field then 1 else 2
  ⟨4 * significand - halfway, 4 * significand, 4 * significand + 2, exponent - 2,
    significand % 2 == 0⟩

end Double

namespace RoundingInterval

/-- The numerator of `n * 2 ^ i.exponent` over `i.unit e`. -/
def scaled (i : RoundingInterval) (e : Int) (n : Nat) : Nat :=
  n * Nat.pow 2 i.exponent.toNat * Nat.pow 10 (-e).toNat

/-- The numerator of `10 ^ e` on the same denominator. -/
def unit (i : RoundingInterval) (e : Int) : Nat :=
  Nat.pow 2 (-i.exponent).toNat * Nat.pow 10 e.toNat

/-- Whether `d * 10 ^ e` rounds to the double. -/
def holds (i : RoundingInterval) (e : Int) (d : Nat) : Bool :=
  let point := d * i.unit e
  let low := i.scaled e i.low
  let high := i.scaled e i.high
  if i.closed then low ≤ point && point ≤ high else low < point && point < high

/-- The nearest multiple of `10 ^ e` in the interval, if there is one. -/
def onGrid? (i : RoundingInterval) (e : Int) : Option Nat :=
  let value := i.scaled e i.value
  let below := value / i.unit e
  let gap := value - below * i.unit e
  match i.holds e below, i.holds e (below + 1) with
  | true, true => some (if 2 * gap < i.unit e then below else below + 1)
  | true, false => some below
  | false, true => some (below + 1)
  | false, false => none

/-- Tries the grids from `10 ^ e` down, `steps` of them. -/
def search (i : RoundingInterval) (e : Int) : Nat → Decimal
  | 0 => ⟨i.scaled e i.value / i.unit e, e⟩
  | steps + 1 =>
    match i.onGrid? e with
    | some d => ⟨d, e⟩
    | none => i.search (e - 1) steps

/-- The exponent of a power of ten above every number of the interval. -/
def ceiling (i : RoundingInterval) : Int :=
  ((i.high.log2 : Int) + i.exponent + 1) * 30103 / 100000 + 1

end RoundingInterval

/-- The shortest decimal that reads back as the positive finite double `x`. -/
def Double.shortest (x : Double) : Decimal :=
  let i := x.roundingInterval
  i.search i.ceiling 22

end ObjectIr
