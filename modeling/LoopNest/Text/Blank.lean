import LoopNest.Text.Ranges

/-!
# Blanks

The characters that are dropped at both ends of a setting or of a number before it is read.  They
are the separators of every script and the controls from tab to carriage return.  Around a setting
the four information separators count as well; around a number they do not.
-/

namespace LoopNest
namespace Text

/-- All blanks, the ASCII ones included. -/
def blankRanges : Ranges :=
  [ (0x9, 0xD), (0x1C, 0x20), (0x85, 0x85), (0xA0, 0xA0), (0x1680, 0x1680), (0x2000, 0x200A),
    (0x2028, 0x2029), (0x202F, 0x202F), (0x205F, 0x205F), (0x3000, 0x3000)]

/-- The character is a blank. -/
def isBlank (c : Char) : Bool :=
  blankRanges.covers c.toNat

/-- The character is one of the four information separators. -/
def isInformationSeparator (c : Char) : Bool := 0x1C ≤ c.toNat && c.toNat ≤ 0x1F

/-- The character is a blank around a number. -/
def isNumberBlank (c : Char) : Bool := isBlank c && !isInformationSeparator c

/-- The text without the characters of a class at its two ends. -/
def strip (drop : Char → Bool) (text : List Char) : List Char :=
  ((text.dropWhile drop).reverse.dropWhile drop).reverse

end Text
end LoopNest
