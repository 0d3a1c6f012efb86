import LoopNest.Number.Notation

/-!
# Numbers to so many places

A number is written with a given number of digits after the point, or with a given number of digits
in all.  The digits come from the exact value, rounded once, a tie going to the even digit.

* `fixedText`: so many digits after the point.
* `scientificText`: one digit before the point, and an exponent.
* `generalText`: so many digits in all, in the shorter of the two forms.
-/

namespace LoopNest
namespace Number

/-- A positive number `num / den` times a power of ten, rounded to an integer. -/
def roundedTimesTen (num den : Nat) (power : Int) : Nat :=
  roundQuotient (num * Nat.pow 10 power.toNat) (den * Nat.pow 10 (-power).toNat)

/-- The exponent of the first digit of a positive number. -/
def leadingPower (mantissa : Nat) (exponent : Int) : Int :=
  let (num, den) := scale mantissa 1 exponent
  let top := powerAbove mantissa exponent
  let isBelow (power : Int) : Bool :=
    den * Nat.pow 10 power.toNat ≤ num * Nat.pow 10 (-power).toNat
  (((List.range 4).map fun (k : Nat) => top - k).find? isBelow).getD (top - 4)

/-- The digits of a number in scientific form, `places` of them after the first, and its
exponent. -/
def scientificDigits (places mantissa : Nat) (exponent : Int) : Nat × Int :=
  if mantissa = 0 then (0, 0)
  else
    let (num, den) := scale mantissa 1 exponent
    let lead := leadingPower mantissa exponent
    let digits := roundedTimesTen num den (places - lead)
    if digits < Nat.pow 10 (places + 1) then (digits, lead) else (digits / 10, lead + 1)

/-- Digits with a point before the last `places` of them; without places the point is left out
unless it is asked for. -/
def pointed (point : Bool) (places n : Nat) : String :=
  let digits := (padded (places + 1) n).toList
  let (whole, rest) := digits.splitAt (digits.length - places)
  String.ofList whole ++ (if rest.isEmpty && !point then "" else ".") ++ String.ofList rest

/-- The number without its sign, with so many digits after the point. -/
def fixedText (point : Bool) (places mantissa : Nat) (exponent : Int) : String :=
  let (num, den) := scale mantissa 1 exponent
  pointed point places (roundedTimesTen num den places)

/-- An exponent with its sign. -/
def exponentText (e : Int) : String :=
  "e" ++ (if e < 0 then "-" else "+") ++ padded 2 e.natAbs

/-- The number without its sign, with one digit before the point. -/
def scientificText (point : Bool) (places mantissa : Nat) (exponent : Int) : String :=
  let (digits, lead) := scientificDigits places mantissa exponent
  pointed point places digits ++ exponentText lead

/-- A text without the zeros at the end of its fraction. -/
def withoutTrailingZeros (text : String) : String :=
  if text.contains '.' then
    let shorter := (text.toList.reverse.dropWhile (· = '0'))
    String.ofList (match shorter with
      | '.' :: rest => rest.reverse
      | kept => kept.reverse)
  else text

/-- The number without its sign, with so many digits in all.  Zeros at the end are left out unless
the point is asked for. -/
def generalText (point : Bool) (count mantissa : Nat) (exponent : Int) : String :=
  let count := max count 1
  let (digits, lead) := scientificDigits (count - 1) mantissa exponent
  let trim (text : String) : String := if point then text else withoutTrailingZeros text
  if -4 ≤ lead && lead < count then
    trim (fixedText point (count - 1 - lead).toNat mantissa exponent)
  else trim (pointed point (count - 1) digits) ++ exponentText lead

end Number
end LoopNest
