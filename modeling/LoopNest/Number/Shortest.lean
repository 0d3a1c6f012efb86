import LoopNest.Number.Binary

/-!
# The shortest decimal that reads back

Every real number close enough to a floating-point number rounds to it.  Among the decimals in that
interval one with the fewest digits is wanted, and of those the nearest.  A decimal with few digits
is a multiple of a large power of ten, so the powers are tried from the largest downwards.  On each
grid only the two neighbours of the number can lie in the interval, so testing these two is enough.

All comparisons are made on integers, so nothing is lost to rounding.
-/

namespace LoopNest
namespace Number

/-- The interval of a positive number `mantissa * 2 ^ exponent`, in quarters of its last bit: its
ends are `low * 2 ^ (exponent - 2)` and `high * 2 ^ (exponent - 2)`.  The lower half is narrower
where the mantissa is the least of its binade, and the ends belong to the interval when the
mantissa is even. -/
structure Interval where
  low : Nat
  middle : Nat
  high : Nat
  closed : Bool

/-- The reals that round to a number of the format. -/
def Format.interval (f : Format) (mantissa : Nat) (exponent : Int) : Interval where
  low := if mantissa = Nat.pow 2 f.fractionBits && f.minExponent < exponent then 4 * mantissa - 1
    else 4 * mantissa - 2
  middle := 4 * mantissa
  high := 4 * mantissa + 2
  closed := mantissa % 2 = 0

/-- A decimal: `digits * 10 ^ exponent`. -/
structure Decimal where
  digits : Nat
  exponent : Int
  deriving DecidableEq, Repr

/-- The scales that bring a multiple of `10 ^ power` and a quarter of the last bit of
`2 ^ exponent` to one unit. -/
def units (power exponent : Int) : Nat × Nat :=
  let quarter := exponent - 2
  (Nat.pow 10 power.toNat * Nat.pow 2 (-quarter).toNat,
    Nat.pow 2 quarter.toNat * Nat.pow 10 (-power).toNat)

/-- The decimal on the grid `10 ^ power` that lies in the interval and is nearest to the middle, a
tie going to even digits. -/
def Interval.onGrid? (i : Interval) (exponent power : Int) : Option Decimal :=
  let (ten, two) := units power exponent
  let inside (d : Nat) : Bool :=
    if i.closed then i.low * two ≤ d * ten && d * ten ≤ i.high * two
    else i.low * two < d * ten && d * ten < i.high * two
  let below := i.middle * two / ten
  let above := below + 1
  match inside below, inside above with
  | false, false => none
  | true, false => some ⟨below, power⟩
  | false, true => some ⟨above, power⟩
  | true, true =>
      let short := i.middle * two - below * ten
      let long := above * ten - i.middle * two
      if short < long then some ⟨below, power⟩
      else if long < short then some ⟨above, power⟩
      else some ⟨below + below % 2, power⟩

/-- A power of ten above the number `mantissa * 2 ^ exponent`. -/
def powerAbove (mantissa : Nat) (exponent : Int) : Int :=
  ((Nat.log2 mantissa + exponent + 1) * 30103).fdiv 100000 + 1

/-- The shortest decimal that rounds to the positive number `mantissa * 2 ^ exponent`.  Seventeen
digits always suffice, and the search starts at most two powers too high. -/
def Format.shortest (f : Format) (mantissa : Nat) (exponent : Int) : Decimal :=
  let i := f.interval mantissa exponent
  let top := powerAbove mantissa exponent
  ((List.range 24).findSome? fun (k : Nat) => i.onGrid? exponent (top - k)).getD ⟨mantissa, 0⟩

end Number
end LoopNest
