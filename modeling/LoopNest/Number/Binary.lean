/-!
# Binary floating-point numbers as integers

A finite floating-point number is a mantissa times a power of two.  This module takes numbers apart
into that form and puts them together again from an exact quotient, rounded to the nearest number
of the format, a tie going to the even mantissa.  Everything that must be exact (reading decimals,
dividing integers, the shortest text of a number) is done on the integers found here.

* `Format`: how many bits a format has for the fraction and for the exponent.
* `Parts`: a number taken apart.
* `Format.nearest?`: the mantissa and exponent nearest to a quotient.
* `Float.parts`, `Float.ofQuotient`: the two directions for `Float`.
-/

namespace LoopNest
namespace Number

/-- A binary interchange format, given by the widths of its fields. -/
structure Format where
  fractionBits : Nat
  exponentBits : Nat

/-- Double precision. -/
def double : Format := ⟨52, 11⟩

/-- Single precision. -/
def single : Format := ⟨23, 8⟩

/-- Half precision. -/
def half : Format := ⟨10, 5⟩

namespace Format

variable (f : Format)

/-- The exponent of the last bit of the smallest numbers. -/
def minExponent : Int := 2 - Int.pow 2 (f.exponentBits - 1) - f.fractionBits

/-- The exponent of the last bit of the largest numbers. -/
def maxExponent : Int := Int.pow 2 (f.exponentBits - 1) - 1 - f.fractionBits

end Format

/-- A floating-point number taken apart: not a number, an infinity, or `mantissa * 2 ^ exponent`,
with a sign that zero has too. -/
inductive Parts where
  | nan
  | infinite (negative : Bool)
  | finite (negative : Bool) (mantissa : Nat) (exponent : Int)
  deriving DecidableEq, Repr

/-- The parts that a bit pattern of a format stands for. -/
def Format.partsOf (f : Format) (bits : Nat) : Parts :=
  let fraction := bits % Nat.pow 2 f.fractionBits
  let field := bits / Nat.pow 2 f.fractionBits % Nat.pow 2 f.exponentBits
  let negative := bits / Nat.pow 2 (f.fractionBits + f.exponentBits) % 2 = 1
  if field = Nat.pow 2 f.exponentBits - 1 then
    if fraction = 0 then .infinite negative else .nan
  else if field = 0 then .finite negative fraction f.minExponent
  else .finite negative (Nat.pow 2 f.fractionBits + fraction) (f.minExponent + (field - 1))

/-- A quotient rounded to the nearest integer, a tie to the even one. -/
def roundQuotient (num den : Nat) : Nat :=
  let whole := num / den
  let twice := 2 * (num % den)
  if twice < den then whole
  else if den < twice then whole + 1
  else whole + whole % 2

/-- A number times a power of two, as a quotient of integers. -/
def scale (num den : Nat) (exponent : Int) : Nat × Nat :=
  if 0 ≤ exponent then (num * Nat.pow 2 exponent.toNat, den)
  else (num, den * Nat.pow 2 (-exponent).toNat)

/-- The mantissa and exponent of a format nearest to `num / den`, for a positive denominator;
nothing when the quotient rounds beyond the largest number. -/
def Format.nearest? (f : Format) (num den : Nat) : Option (Nat × Int) :=
  if num = 0 then some (0, f.minExponent)
  else
    -- with this exponent the scaled quotient lies between `2 ^ (b - 1)` and `2 ^ (b + 1)`
    let guess : Int := Nat.log2 num - Nat.log2 den - f.fractionBits
    let (n, d) := scale num den (-guess)
    let sharp := if n < Nat.pow 2 f.fractionBits * d then guess - 1 else guess
    let exponent := max sharp f.minExponent
    let (n, d) := scale num den (-exponent)
    let mantissa := roundQuotient n d
    let (mantissa, exponent) :=
      if mantissa = Nat.pow 2 (f.fractionBits + 1) then (Nat.pow 2 f.fractionBits, exponent + 1)
      else (mantissa, exponent)
    if f.maxExponent < exponent then none else some (mantissa, exponent)

/-- The bit pattern of a mantissa and an exponent of the format. -/
def Format.bitsOf (f : Format) (negative : Bool) (mantissa : Nat) (exponent : Int) : Nat :=
  (if negative then Nat.pow 2 (f.fractionBits + f.exponentBits) else 0)
    + (exponent - f.minExponent).toNat * Nat.pow 2 f.fractionBits + mantissa

/-- The bit pattern of an infinity. -/
def Format.infinityBits (f : Format) (negative : Bool) : Nat :=
  (if negative then Nat.pow 2 (f.fractionBits + f.exponentBits) else 0)
    + (Nat.pow 2 f.exponentBits - 1) * Nat.pow 2 f.fractionBits

/-! ## Double precision -/

/-- A double taken apart. -/
def parts (x : Float) : Parts :=
  double.partsOf x.toBits.toNat

/-- Positive infinity. -/
def infinity : Float := Float.ofBits (double.infinityBits false).toUInt64

/-- Not a number. -/
def notANumber : Float := Float.ofBits 0x7FF8000000000000

/-- The double nearest to a quotient; nothing when it is beyond the largest double. -/
def ofQuotient? (negative : Bool) (num den : Nat) : Option Float :=
  (double.nearest? num den).map fun (mantissa, exponent) =>
    Float.ofBits (double.bitsOf negative mantissa exponent).toUInt64

/-- The double nearest to a quotient, an infinity beyond the largest double. -/
def ofQuotient (negative : Bool) (num den : Nat) : Float :=
  (ofQuotient? negative num den).getD
    (Float.ofBits (double.infinityBits negative).toUInt64)

/-- The double nearest to an integer; nothing when it is beyond the largest double. -/
def ofInt? (n : Int) : Option Float :=
  ofQuotient? (n < 0) n.natAbs 1

/-- The sign bit. -/
def isNegative (x : Float) : Bool :=
  match parts x with
  | .nan => false
  | .infinite negative => negative
  | .finite negative _ _ => negative

/-- The integer part of a finite double, toward zero. -/
def truncate? (x : Float) : Option Int :=
  match parts x with
  | .finite negative mantissa exponent =>
      let (num, den) := scale mantissa 1 exponent
      let whole : Int := (num / den : Nat)
      some (if negative then -whole else whole)
  | _ => none

/-- The remainder of two finite doubles with the sign of the first, exactly. -/
def remainder (x y : Float) : Float :=
  match parts x, parts y with
  | .finite negative m p, .finite _ n q =>
      if n = 0 then notANumber
      else
        let low := min p q
        let rest := (m * Nat.pow 2 (p - low).toNat) % (n * Nat.pow 2 (q - low).toNat)
        let (num, den) := scale rest 1 low
        ofQuotient negative num den
  | .finite _ _ _, .infinite _ => x
  | _, _ => notANumber

/-- The parts of the number nearest to a double in a narrower format. -/
def Format.partsNear (f : Format) (x : Float) : Parts :=
  match parts x with
  | .finite negative mantissa exponent =>
      let (num, den) := scale mantissa 1 exponent
      match f.nearest? num den with
      | some (m, e) => .finite negative m e
      | none => .infinite negative
  | p => p

/-- The double nearest to a number among those that a narrower format has, too. -/
def Format.round (f : Format) (x : Float) : Float :=
  match f.partsNear x with
  | .finite negative m e => let (num, den) := scale m 1 e; ofQuotient negative num den
  | .infinite negative => if negative then -infinity else infinity
  | .nan => x

/-- The square root of the sum of two squares, rounded once. -/
def hypotenuse (x y : Float) : Float :=
  match parts x, parts y with
  | .infinite _, _ | _, .infinite _ => infinity
  | .finite _ m p, .finite _ n q =>
      let low := min p q
      let sum := Nat.pow m 2 * Nat.pow 4 (p - low).toNat + Nat.pow n 2 * Nat.pow 4 (q - low).toNat
      -- enough bits behind the point to decide the rounding, and one for what is left over
      let spare := 64
      let root := Nat.sqrt (sum * Nat.pow 4 spare)
      let sticky := if root * root = sum * Nat.pow 4 spare then 0 else 1
      let (num, den) := scale (2 * root + sticky) (Nat.pow 2 (spare + 1)) low
      ofQuotient false num den
  | _, _ => notANumber

/-! ## Single precision -/

/-- A single-precision number taken apart. -/
def singleParts (x : Float32) : Parts :=
  single.partsOf x.toBits.toNat

end Number
end LoopNest
