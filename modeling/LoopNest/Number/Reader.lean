import LoopNest.Number.Binary
import LoopNest.Text.Blank
import LoopNest.Text.Digit

/-!
# Reading numbers

Numbers are read from decimal digits of any script; a single underscore may stand between two
digits, a sign in front, and blanks at both ends.  Integers have at most `digitLimit` digits.  The
other numbers have a point, an exponent, or are one of the words for infinity and for not a number,
and round to the nearest double.
-/

namespace LoopNest
namespace Number

open Text

/-- An integer text with more digits than this is refused. -/
def digitLimit : Nat := 4300

/-- The integer has more digits than a text may have. -/
def overlong (n : Int) : Bool := digitLimit < (Nat.toDigits 10 n.natAbs).length

/-- The number that digits of a base write. -/
def ofDigitsIn (base : Nat) (digits : List Nat) : Nat :=
  digits.foldl (fun n d => base * n + d) 0

/-- The number that decimal digits write. -/
def ofDigits (digits : List Nat) : Nat := ofDigitsIn 10 digits

/-- The digits that go on after a first one, single underscores between them allowed, and the rest.
An underscore that no digit follows is left in the rest. -/
def moreDigits (value? : Char → Option Nat) : List Char → List Nat × List Char
  | [] => ([], [])
  | '_' :: c :: rest =>
      match value? c with
      | some d => let (digits, left) := moreDigits value? rest; (d :: digits, left)
      | none => ([], '_' :: c :: rest)
  | c :: rest =>
      match value? c with
      | some d => let (digits, left) := moreDigits value? rest; (d :: digits, left)
      | none => ([], c :: rest)

/-- The digits at the head of a text and the rest. -/
def takeDigits (value? : Char → Option Nat) : List Char → List Nat × List Char
  | [] => ([], [])
  | c :: rest =>
      match value? c with
      | some d => let (digits, left) := moreDigits value? rest; (d :: digits, left)
      | none => ([], c :: rest)

/-- A leading sign: whether it is a minus, and what follows. -/
def takeSign : List Char → Bool × List Char
  | '-' :: rest => (true, rest)
  | '+' :: rest => (false, rest)
  | rest => (false, rest)

/-- The integer that a text writes. -/
def readInt? (text : List Char) : Option Int :=
  let (negative, body) := takeSign (strip isNumberBlank text)
  match takeDigits digitValue? body with
  | ([], _) => none
  | (digits, []) =>
      if digitLimit < digits.length then none
      else
        let n : Int := ofDigits digits
        some (if negative then -n else n)
  | (_, _ :: _) => none

/-- The value of a digit of a base up to 36; the letters go on after the decimal digits. -/
def placeValue? (base : Nat) (c : Char) : Option Nat :=
  let value? :=
    if 'a' ≤ c && c ≤ 'z' then some (c.toNat - 'a'.toNat + 10)
    else if 'A' ≤ c && c ≤ 'Z' then some (c.toNat - 'A'.toNat + 10)
    else digitValue? c
  value?.filter (· < base)

/-- A text that names its base by a mark after a zero: the base, and what follows the mark.  One
underscore may follow the mark. -/
def takeMark : List Char → Option (Nat × List Char)
  | zero :: mark :: rest =>
      let base? := match mark with
        | 'x' | 'X' => some 16
        | 'o' | 'O' => some 8
        | 'b' | 'B' => some 2
        | _ => none
      if digitValue? zero = some 0 then
        base?.map fun base => (base, match rest with
          | '_' :: more => more
          | _ => rest)
      else none
  | _ => none

/-- The integer that digits up to the end of a text write in a base.  The limit on digits is for the
bases that are no powers of two. -/
def readPlaces? (base : Nat) (body : List Char) : Option Nat :=
  match takeDigits (placeValue? base) body with
  | ([], _) => none
  | (digits, []) =>
      if digitLimit < digits.length && !([2, 4, 8, 16, 32].contains base) then none
      else some (ofDigitsIn base digits)
  | (_, _ :: _) => none

/-- The integer that a text writes in a base from 2 to 36.  Base zero leaves the base to the mark; a
text without a mark is then decimal, and does not start with zero unless it is zero. -/
def readIntIn? (base : Nat) (text : List Char) : Option Int := do
  let (negative, body) := takeSign (strip isNumberBlank text)
  let n ←
    match takeMark body with
    | some (marked, rest) =>
        if base = 0 || base = marked then readPlaces? marked rest else readPlaces? base body
    | none =>
        if base = 0 then
          let startsWithZero := (body.head?.bind digitValue?) = some 0
          (readPlaces? 10 body).filter fun n => !startsWithZero || n = 0
        else readPlaces? base body
  return if negative then -(n : Int) else n

/-- The double nearest to `digits * 10 ^ exponent`.  Exponents far outside the range of doubles
are decided by the number of digits alone. -/
def ofScientific (negative : Bool) (digits : List Nat) (exponent : Int) : Float :=
  let mantissa := ofDigits digits
  let length : Int := (toString mantissa).length
  if mantissa = 0 || length + exponent < -400 then ofQuotient negative 0 1
  else if 400 < length + exponent then ofQuotient negative (Nat.pow 2 1100) 1
  else ofQuotient negative (mantissa * Nat.pow 10 exponent.toNat) (Nat.pow 10 (-exponent).toNat)

/-- The exponent at the end of a number: nothing at all, or a letter and an integer. -/
def readExponent? : List Char → Option Int
  | [] => some 0
  | c :: rest =>
      if c = 'e' || c = 'E' then
        let (negative, body) := takeSign rest
        match takeDigits digitValue? body with
        | ([], _) => none
        | (digits, []) => some (if negative then -(ofDigits digits : Int) else ofDigits digits)
        | (_, _ :: _) => none
      else none

/-- An unsigned number with an optional fraction and exponent. -/
def readUnsigned? (negative : Bool) (body : List Char) : Option Float :=
  let (whole, rest) := takeDigits digitValue? body
  let (fraction, rest) := match rest with
    | '.' :: more => takeDigits digitValue? more
    | _ => ([], rest)
  if whole.isEmpty && fraction.isEmpty then none
  else (readExponent? rest).map fun exponent =>
    ofScientific negative (whole ++ fraction) (exponent - fraction.length)

/-- The double that a text writes. -/
def readFloat? (text : List Char) : Option Float :=
  let (negative, body) := takeSign (strip isNumberBlank text)
  match String.ofList (body.map Char.toLower) with
  | "inf" | "infinity" => some (if negative then -infinity else infinity)
  | "nan" => some notANumber
  | _ => readUnsigned? negative body

end Number
end LoopNest
