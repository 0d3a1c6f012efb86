import LoopNest.SExpr.Basic
import LoopNest.Number.Reader

/-!
# Reading S-expressions

Text is first cut into brackets, apostrophes and values; a stack of open lists then puts the values
together.  An apostrophe opens a list of its own that ends with the enclosing one: its first value
is quoted, and the others go to the enclosing list.

An unquoted value is an integer if it reads as one, else a number if it reads as one, else a symbol.

* `ReadError`: the ways in which a text is not one value.
* `SExpr.read`: the value of a text.
-/

namespace LoopNest
namespace SExpr

/-- Why a text is not one S-expression. -/
inductive ReadError where
  /-- A list is closed by the wrong character, or by none. -/
  | unclosed (expected : Char) (got : Option Char)
  /-- A closing bracket with no list open; what stands from there on. -/
  | unopened (rest : String)
  /-- An apostrophe, at a position from zero on, with nothing behind it. -/
  | unquoted (position : Nat)
  /-- A text between quotes that does not end. -/
  | openText
  /-- A backslash at the end. -/
  | openEscape
  /-- No value at all, or more than one. -/
  | notSingle
  deriving DecidableEq

/-- The message of an error, for those that have one. -/
def ReadError.message : ReadError → Option String
  | .unclosed expected got =>
      some ("Not enough closing brackets. Expected " ++ Text.quote (String.ofList [expected])
        ++ " to be the last letter in the sexp. Got: "
        ++ match got with
          | some c => Text.quote (String.ofList [c])
          | none => "None")
  | .unopened rest =>
      some ("Too many closing brackets. Expected no character left in the sexp. Got: "
        ++ Text.quote rest)
  | .unquoted position =>
      some ("No s-exp is found after an apostrophe at position " ++ toString position)
  | .openText | .openEscape | .notSingle => none

/-- A piece of the text. -/
inductive Piece where
  | opening (square : Bool)
  /-- A closing bracket and the text from it on. -/
  | closing (c : Char) (rest : List Char)
  | apostrophe (position : Nat)
  | value (s : SExpr)

/-! ## Cutting the text -/

/-- Blanks between values. -/
def isGap (c : Char) : Bool :=
  c = ' ' || c = '\t' || c = '\n' || c = '\r' || c = '\x0b' || c = '\x0c'

/-- The character ends an unquoted value. -/
def endsAtom (c : Char) : Bool :=
  isGap c || c = '(' || c = ')' || c = '[' || c = ']' || c = '\x22' || c = ';'

/-- What a backslash and a character stand for in an unquoted value. -/
def atomEscape (c : Char) : List Char :=
  if ['\\', '\x27', '\x60', '\x22', '(', ')', '[', ']', ' ', ',', '?', ';', '#'].contains c then [c]
  else ['\\', c]

/-- What a backslash and a character stand for between quotes. -/
def textEscape : Char → List Char
  | '\\' => ['\\']
  | '\x22' => ['\x22']
  | 'b' => ['\x08']
  | 'f' => ['\x0c']
  | 'n' => ['\n']
  | 'r' => ['\r']
  | 't' => ['\t']
  | c => ['\\', c]

/-- An unquoted value: an integer, a number, or a symbol. -/
def ofAtom (chars : List Char) : SExpr :=
  match Number.readInt? chars with
  | some n => .int n
  | none =>
      match Number.readFloat? chars with
      | some x => .float x
      | none => .symbol (String.ofList chars)

/-- What the cutting is inside of.  Characters read so far stand last first. -/
inductive Within where
  | nothing
  | comment
  | atom (read : List Char)
  | atomEscape (read : List Char)
  | text (read : List Char)
  | textEscape (read : List Char)

/-- The pieces of a text, and the error that stopped the cutting, if any. -/
structure Cut where
  pieces : List Piece
  fault : Option ReadError

/-- Puts pieces in front. -/
def Cut.push (pieces : List Piece) (cut : Cut) : Cut := ⟨pieces ++ cut.pieces, cut.fault⟩

/-- What a character outside of everything makes: pieces, and what it opens. -/
def startAt (position : Nat) (c : Char) (rest : List Char) : List Piece × Within :=
  if isGap c then ([], .nothing)
  else match c with
    | '(' => ([.opening false], .nothing)
    | '[' => ([.opening true], .nothing)
    | ')' | ']' => ([.closing c (c :: rest)], .nothing)
    | '\x27' => ([.apostrophe position], .nothing)
    | '\x22' => ([], .text [])
    | ';' => ([], .comment)
    | '\\' => ([], .atomEscape [])
    | _ => ([], .atom [c])

/-- The value that an unquoted run of characters makes. -/
def atomPiece (read : List Char) : Piece := .value (ofAtom read.reverse)

/-- Cuts a text from a position on. -/
def cut (position : Nat) : Within → List Char → Cut
  | .nothing, [] | .comment, [] => ⟨[], none⟩
  | .atom read, [] => ⟨[atomPiece read], none⟩
  | .atomEscape _, [] | .textEscape _, [] => ⟨[], some .openEscape⟩
  | .text _, [] => ⟨[], some .openText⟩
  | .nothing, c :: rest =>
      let (pieces, within) := startAt position c rest
      (cut (position + 1) within rest).push pieces
  | .comment, c :: rest => cut (position + 1) (if c = '\n' then .nothing else .comment) rest
  | .atom read, c :: rest =>
      if endsAtom c then
        let (pieces, within) := startAt position c rest
        (cut (position + 1) within rest).push (atomPiece read :: pieces)
      else cut (position + 1) (if c = '\\' then .atomEscape read else .atom (c :: read)) rest
  | .atomEscape read, c :: rest =>
      cut (position + 1) (.atom ((atomEscape c).reverse ++ read)) rest
  | .text read, c :: rest =>
      if c = '\x22' then
        (cut (position + 1) .nothing rest).push [.value (.text (String.ofList read.reverse))]
      else cut (position + 1) (if c = '\\' then .textEscape read else .text (c :: read)) rest
  | .textEscape read, c :: rest =>
      cut (position + 1) (.text ((textEscape c).reverse ++ read)) rest

/-! ## Putting lists together -/

/-- What an open list was opened by. -/
inductive Opener where
  | bracket (square : Bool)
  | apostrophe (position : Nat)

/-- An open list with its values, last first. -/
structure Level where
  opener : Opener
  items : List SExpr

/-- The character that closes a list. -/
def closer (square : Bool) : Char := if square then ']' else ')'

/-- The values of the list that stays open when all apostrophes above it have ended. -/
def settle : List Level → List SExpr → Except ReadError (List Level × List SExpr)
  | ⟨.apostrophe position, outer⟩ :: levels, items =>
      match items.reverse with
      | [] => .error (.unquoted position)
      | first :: others => settle levels (others.reverse ++ .quoted first :: outer)
  | levels, items => .ok (levels, items)

/-- The values of a finished list. -/
def closeList (square : Bool) (items : List SExpr) : SExpr :=
  if square then .brackets items.reverse else .list items.reverse

/-- Puts the pieces together.  The innermost open list has its values apart; each level below knows
what it was opened by and the values of the list around it. -/
def assemble (fault : Option ReadError) (levels : List Level) (items : List SExpr) :
    List Piece → Except ReadError (List SExpr)
  | [] =>
      match fault with
      | some e => .error e
      | none => do
          match ← settle levels items with
          | (⟨.bracket square, _⟩ :: _, _) => .error (.unclosed (closer square) none)
          | (_, items) => .ok items.reverse
  | .value v :: pieces => assemble fault levels (v :: items) pieces
  | .opening square :: pieces => assemble fault (⟨.bracket square, items⟩ :: levels) [] pieces
  | .apostrophe position :: pieces =>
      assemble fault (⟨.apostrophe position, items⟩ :: levels) [] pieces
  | .closing c rest :: pieces => do
      match ← settle levels items with
      | (⟨.bracket square, outer⟩ :: levels, items) =>
          if c = closer square then assemble fault levels (closeList square items :: outer) pieces
          else .error (.unclosed (closer square) (some c))
      | (_, _) => .error (.unopened (String.ofList rest))

/-- All values of a text. -/
def readAll (text : String) : Except ReadError (List SExpr) :=
  let pieces := cut 0 .nothing text.toList
  assemble pieces.fault [] [] pieces.pieces

/-- The one value of a text. -/
def read (text : String) : Except ReadError SExpr := do
  match ← readAll text with
  | [value] => .ok value
  | _ => .error .notSingle

end SExpr
end LoopNest
