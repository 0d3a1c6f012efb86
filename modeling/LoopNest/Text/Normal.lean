import LoopNest.Text.Combining
import LoopNest.Text.Composite
import LoopNest.Text.Variant

/-!
# One spelling of a word

Two words that differ only in how their letters are spelled are one identifier.  A word is brought
to its normal spelling in three steps: every letter is taken apart into plain letters and marks, the
marks behind a letter are put in the order of their classes, and letters and marks are put together
again where there is a composite letter for them.  The syllables of Hangul are taken apart and put
together by arithmetic.

* `normalSpelling`: the word in its normal spelling.
-/

namespace LoopNest
namespace Text

/-! ## Syllables of Hangul -/

/-- The first syllable. -/
def syllableBase : Nat := 0xAC00

/-- The first letter that leads a syllable. -/
def leadBase : Nat := 0x1100

/-- The first vowel of a syllable. -/
def vowelBase : Nat := 0x1161

/-- The point before the first letter that ends a syllable. -/
def tailBase : Nat := 0x11A7

/-- How many letters lead a syllable. -/
def leadCount : Nat := 19

/-- How many vowels there are. -/
def vowelCount : Nat := 21

/-- How many ends there are, the missing one included. -/
def tailCount : Nat := 28

/-- The letters of a syllable. -/
def syllableLetters? (point : Nat) : Option (List Nat) :=
  if syllableBase ≤ point && point < syllableBase + leadCount * vowelCount * tailCount then
    let place := point - syllableBase
    let tail := place % tailCount
    some ([leadBase + place / tailCount / vowelCount, vowelBase + place / tailCount % vowelCount]
      ++ if tail = 0 then [] else [tailBase + tail])
  else none

/-- The syllable of a lead and a vowel, or of a syllable without a tail and a tail. -/
def syllableOf? (first second : Nat) : Option Nat :=
  if leadBase ≤ first && first < leadBase + leadCount && vowelBase ≤ second
      && second < vowelBase + vowelCount then
    some (syllableBase + ((first - leadBase) * vowelCount + (second - vowelBase)) * tailCount)
  else if syllableBase ≤ first && first < syllableBase + leadCount * vowelCount * tailCount
      && (first - syllableBase) % tailCount = 0 && tailBase < second
      && second < tailBase + tailCount then
    some (first + (second - tailBase))
  else none

/-! ## Taking apart -/

/-- The plain letters and marks of a letter.  Composite letters hold composite letters at most so
deep. -/
def takeApart : Nat → Nat → List Nat
  | 0, point => [point]
  | depth + 1, point =>
      match syllableLetters? point, pairOf? point, variantTable.values? point with
      | some letters, _, _ => letters
      | none, some (first, second), _ => takeApart depth first ++ takeApart depth second
      | none, none, some plain => plain
      | none, none, none => [point]

/-- How deep composite letters hold composite letters. -/
def compositeDepth : Nat := 4

/-! ## Order of marks -/

/-- Puts a mark behind those of its own and of lower classes; the marks before it are listed from
the last to the first. -/
def insertMark (mark : Nat × Nat) : List (Nat × Nat) → List (Nat × Nat)
  | [] => [mark]
  | last :: before =>
      if 0 < mark.2 && mark.2 < last.2 then last :: insertMark mark before
      else mark :: last :: before

/-- The points with the marks behind every letter in the order of their classes. -/
def orderMarks (points : List Nat) : List (Nat × Nat) :=
  (points.foldl (fun done point => insertMark (point, combiningClass point) done) []).reverse

/-! ## Putting together -/

/-- A letter that may still take up marks: what stands before it and the marks behind it that it did
not take up, both from the last to the first. -/
structure Joining where
  before : List Nat
  letter : Option Nat
  marks : List (Nat × Nat)

namespace Joining

/-- All points, in order. -/
def points (j : Joining) : List Nat :=
  j.before.reverse ++ j.letter.toList ++ (j.marks.map Prod.fst).reverse

/-- One point more.  A mark is taken up unless one of its own class or a higher one stands
between. -/
def add (j : Joining) (next : Nat × Nat) : Joining :=
  let free := match j.marks with
    | [] => true
    | last :: _ => last.2 < next.2
  let joined := if free then
      j.letter.bind fun letter => (syllableOf? letter next.1).or (compositeOf? letter next.1)
    else none
  match joined with
  | some letter => { j with letter := some letter }
  | none =>
      if next.2 = 0 then ⟨j.points.reverse, some next.1, []⟩
      else { j with marks := next :: j.marks }

end Joining

/-- The word in its normal spelling. -/
def normalSpelling (word : List Char) : List Char :=
  if word.all fun c => c.toNat < 128 then word
  else
    let apart := word.flatMap fun c => takeApart compositeDepth c.toNat
    ((orderMarks apart).foldl Joining.add ⟨[], none, []⟩).points.map Char.ofNat

end Text
end LoopNest
