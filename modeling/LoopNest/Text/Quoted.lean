import LoopNest.Text.Printable

/-!
# Quoted text

A text is shown between single quotes, or between double quotes when it holds a single quote and no
double one.  Inside, the backslash and the quote in use are escaped, tab, line feed and carriage
return have letters, and every other character that is not printable is written by its code point
with two, four or eight hexadecimal digits.

* `quote`: the quoted form.
* `listing`: a list of texts, each quoted, in square brackets.
* `unquote?`: reads back what follows an opening quote.
-/

namespace LoopNest
namespace Text

/-- The single quote. -/
def singleMark : Char := '\x27'

/-- The double quote. -/
def doubleMark : Char := '\x22'

/-- The quote that encloses the text: double only if this saves an escape. -/
def markFor (text : List Char) : Char :=
  if text.contains singleMark && !text.contains doubleMark then doubleMark else singleMark

/-- A hexadecimal digit, in lower case. -/
def hexDigit (n : Nat) : Char :=
  if n < 10 then Char.ofNat (48 + n) else Char.ofNat (87 + n)

/-- The last `width` hexadecimal digits of a number. -/
def hex : Nat → Nat → List Char
  | 0, _ => []
  | width + 1, n => hex width (n / 16) ++ [hexDigit (n % 16)]

/-- A code point by its number, as short as the three forms allow. -/
def escapePoint (n : Nat) : List Char :=
  if n < 0x100 then '\\' :: 'x' :: hex 2 n
  else if n < 0x10000 then '\\' :: 'u' :: hex 4 n
  else '\\' :: 'U' :: hex 8 n

/-- One character between quotes of the given kind. -/
def escapeChar (mark c : Char) : List Char :=
  if c = mark || c = '\\' then ['\\', c]
  else if c = '\t' then ['\\', 't']
  else if c = '\n' then ['\\', 'n']
  else if c = '\r' then ['\\', 'r']
  else if isPrintable c then [c]
  else escapePoint c.toNat

/-- The quoted form, as characters. -/
def quoteChars (text : List Char) : List Char :=
  let mark := markFor text
  mark :: (text.flatMap (escapeChar mark) ++ [mark])

/-- The quoted form of a text. -/
def quote (text : String) : String :=
  String.ofList (quoteChars text.toList)

/-- Texts, each quoted, between square brackets. -/
def listing (texts : List String) : String :=
  "[" ++ ", ".intercalate (texts.map quote) ++ "]"

/-! ## Reading back -/

/-- The value of a hexadecimal digit. -/
def hexValue? (c : Char) : Option Nat :=
  if c.isDigit then some (c.toNat - 48)
  else if 97 ≤ c.toNat && c.toNat ≤ 102 then some (c.toNat - 87)
  else none

/-- The number that hexadecimal digits write. -/
def hexNumber? (digits : List Char) : Option Nat :=
  digits.foldl (fun n c => n.bind fun n => (hexValue? c).map (16 * n + ·)) (some 0)

/-- What follows an opening quote, up to the closing one, and the characters after that. -/
def unquote? (mark : Char) : List Char → Option (List Char × List Char)
  | [] => none
  | '\\' :: 'x' :: a :: b :: rest => do
      let n ← hexNumber? [a, b]
      let (text, rest) ← unquote? mark rest
      return (Char.ofNat n :: text, rest)
  | '\\' :: 'u' :: a :: b :: c :: d :: rest => do
      let n ← hexNumber? [a, b, c, d]
      let (text, rest) ← unquote? mark rest
      return (Char.ofNat n :: text, rest)
  | '\\' :: 'U' :: a :: b :: c :: d :: e :: f :: g :: h :: rest => do
      let n ← hexNumber? [a, b, c, d, e, f, g, h]
      let (text, rest) ← unquote? mark rest
      return (Char.ofNat n :: text, rest)
  | '\\' :: 't' :: rest => do
      let (text, rest) ← unquote? mark rest
      return ('\t' :: text, rest)
  | '\\' :: 'n' :: rest => do
      let (text, rest) ← unquote? mark rest
      return ('\n' :: text, rest)
  | '\\' :: 'r' :: rest => do
      let (text, rest) ← unquote? mark rest
      return ('\r' :: text, rest)
  | '\\' :: c :: rest => do
      let (text, rest) ← unquote? mark rest
      return (c :: text, rest)
  | c :: rest =>
      if c = mark then some ([], rest)
      else do
        let (text, rest) ← unquote? mark rest
        return (c :: text, rest)

end Text
end LoopNest
