import LoopNest.Number.Shortest

/-!
# The text of a floating-point number

A number is written with its shortest digits.  Doubles from `1e-4` up to, but not including, `1e16`
are written positionally and always with a decimal point; the others have one digit before the
point, no point after a single digit, and an exponent with its sign and at least two digits.  In
single precision, numbers from `1e6` on have an exponent.  The bounds are on the number, not on its
digits: the single-precision number nearest to `1e-4` lies below it and has an exponent.
-/

namespace LoopNest
namespace Number

/-- The choices that a decimal notation makes. -/
structure Notation where
  /-- Numbers below one over this power of ten have an exponent. -/
  least : Nat
  /-- Numbers from this power of ten on have an exponent. -/
  beyond : Nat
  /-- The least number of digits of an exponent. -/
  exponentWidth : Nat

/-- The notation of doubles. -/
def doubleNotation : Notation := ⟨4, 16, 2⟩

/-- The notation of single-precision numbers. -/
def singleNotation : Notation := ⟨4, 6, 2⟩

/-- The number `mantissa * 2 ^ exponent` is written positionally. -/
def Notation.isPositional (style : Notation) (mantissa : Nat) (exponent : Int) : Bool :=
  let (num, den) := scale mantissa 1 exponent
  den ≤ num * Nat.pow 10 style.least && num < den * Nat.pow 10 style.beyond

/-- A run of zeros. -/
def zeroRun (n : Nat) : String := String.ofList (List.replicate n '0')

/-- The digits of a number with zeros in front, up to a width. -/
def padded (width n : Nat) : String :=
  let digits := toString n
  zeroRun (width - digits.length) ++ digits

/-- The text of a positive decimal, positionally or with an exponent. -/
def Notation.text (style : Notation) (positional : Bool) (d : Decimal) : String :=
  let digits := (toString d.digits).toList
  -- the decimal exponent of the first digit
  let lead := d.exponent + digits.length - 1
  if positional then
    if 0 ≤ d.exponent then String.ofList digits ++ zeroRun d.exponent.toNat ++ ".0"
    else if 0 ≤ lead then
      let (whole, rest) := digits.splitAt (lead.toNat + 1)
      String.ofList whole ++ "." ++ String.ofList rest
    else "0." ++ zeroRun (-lead - 1).toNat ++ String.ofList digits
  else
    let mantissa := match digits with
      | [] => ""
      | [c] => String.ofList [c]
      | c :: rest => String.ofList (c :: '.' :: rest)
    mantissa ++ "e" ++ (if lead < 0 then "-" else "+") ++ padded style.exponentWidth lead.natAbs

/-- The text of a number of a format. -/
def Format.text (f : Format) (style : Notation) : Parts → String
  | .nan => "nan"
  | .infinite negative => if negative then "-inf" else "inf"
  | .finite negative mantissa exponent =>
      (if negative then "-" else "")
        ++ (if mantissa = 0 then "0.0"
            else style.text (style.isPositional mantissa exponent) (f.shortest mantissa exponent))

/-- The text of a double. -/
def floatText (x : Float) : String := double.text doubleNotation (parts x)

/-- The text of a single-precision number. -/
def singleText (x : Float32) : String := single.text singleNotation (singleParts x)

end Number
end LoopNest
