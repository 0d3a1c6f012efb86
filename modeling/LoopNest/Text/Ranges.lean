/-!
# Classes of characters given by ranges

A property of characters that a standard fixes by enumeration is kept as the list of its closed
ranges of code points.  The tables of this folder hold the code points from 128 upwards only; what
happens below is said in words by the class that uses the table.  The larger tables are kept as
text: a word is one code point or, as in `C0-D6`, the first and the last of a range, in hexadecimal
digits.
-/

namespace LoopNest
namespace Text

/-- The value of a hexadecimal digit. -/
def hexPlace (c : Char) : Nat :=
  if c.isDigit then c.toNat - '0'.toNat else c.toNat - 'A'.toNat + 10

/-- The number that hexadecimal digits write. -/
def ofHex (digits : String) : Nat :=
  digits.toList.foldl (fun n c => 16 * n + hexPlace c) 0

/-- Closed ranges of code points, in ascending order. -/
abbrev Ranges := List (Nat × Nat)

namespace Ranges

/-- The ranges that characters write, behind the first point of a range and the digits of
another. -/
def ofChars (first : Option Nat) (point : Nat) : List Char → Ranges
  | [] => [(first.getD point, point)]
  | c :: cs =>
      if c = ' ' then (first.getD point, point) :: ofChars none 0 cs
      else if c = '-' then ofChars (some point) 0 cs
      else ofChars first (16 * point + hexPlace c) cs

/-- The ranges that lines of words write. -/
def ofLines (lines : List String) : Ranges :=
  lines.flatMap fun line => ofChars none 0 line.toList

/-- A code point lies in one of the ranges. -/
def covers (ranges : Ranges) (point : Nat) : Bool :=
  ranges.any fun range => range.1 ≤ point && point ≤ range.2

end Ranges
end Text
end LoopNest
