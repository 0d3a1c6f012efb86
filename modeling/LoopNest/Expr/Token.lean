import LoopNest.Text.Word

/-!
# Tokens of expression text

Text is cut into tokens from the left, each as long as possible, with blanks between them skipped.
One place is special: where an operand must stand, a minus is a token of its own even if an equals
sign follows.  What must stand next is known from the last two tokens, so cutting needs no parser.

* `Terminal`: the kinds of token, with the names used in messages.
* `Token.first?`: the token at the head of a text.
* `scan`: all tokens of a text, and the character that stopped it, if any.
-/

namespace LoopNest

/-- The kinds of token, and the end of the text. -/
inductive Terminal where
  | finish
  | equal | plusEqual | minusEqual | starEqual | slashEqual
  | less | lessEqual | greater | greaterEqual | equalEqual | notEqual
  | plus | minus | star | slash | percent | caret
  | leftBracket | rightBracket | leftParen | rightParen | comma
  | yes | no | word | number
  deriving DecidableEq, Repr

/-- The name of a kind of token in messages. -/
def Terminal.label : Terminal → String
  | .finish => "$END"
  | .equal => "EQUAL"
  | .plusEqual => "__ANON_0"
  | .minusEqual => "__ANON_1"
  | .starEqual => "__ANON_2"
  | .slashEqual => "__ANON_3"
  | .less => "LESSTHAN"
  | .lessEqual => "__ANON_4"
  | .greater => "MORETHAN"
  | .greaterEqual => "__ANON_5"
  | .equalEqual => "__ANON_6"
  | .notEqual => "__ANON_7"
  | .plus => "PLUS"
  | .minus => "MINUS"
  | .star => "STAR"
  | .slash => "SLASH"
  | .percent => "PERCENT"
  | .caret => "CIRCUMFLEX"
  | .leftBracket => "LSQB"
  | .rightBracket => "RSQB"
  | .leftParen => "LPAR"
  | .rightParen => "RPAR"
  | .comma => "COMMA"
  | .yes => "TRUE"
  | .no => "FALSE"
  | .word => "NAME"
  | .number => "NUMBER"

/-- A place in the text, counted from one. -/
structure Place where
  line : Nat
  column : Nat
  deriving DecidableEq, Repr

namespace Place

/-- The first place of a text. -/
def start : Place := ⟨1, 1⟩

/-- The place behind a character. -/
def after (p : Place) (c : Char) : Place :=
  if c = '\n' then ⟨p.line + 1, 1⟩ else ⟨p.line, p.column + 1⟩

/-- The place behind a run of characters. -/
def afterAll (p : Place) (text : List Char) : Place :=
  text.foldl after p

end Place

/-- A token with its text and the place where it starts. -/
structure Token where
  terminal : Terminal
  text : List Char
  place : Place
  deriving DecidableEq, Repr

namespace Token

/-- The blanks between tokens. -/
def isGap (c : Char) : Bool :=
  c = ' ' || c = '\t' || c = '\x0c' || c = '\r' || c = '\n'

/-- The character may start a word. -/
def startsWord (c : Char) : Bool :=
  c.isAlpha || c = '_'

/-- The kind of a word. -/
def wordTerminal (text : List Char) : Terminal :=
  if text = ['t', 'r', 'u', 'e'] then .yes
  else if text = ['f', 'a', 'l', 's', 'e'] then .no
  else .word

/-- An exponent at the head of a text: a letter, an optional sign, at least one digit. -/
def exponentAt : List Char → List Char
  | c :: rest =>
      if c = 'e' || c = 'E' then
        match rest with
        | sign :: more =>
            if sign = '+' || sign = '-' then
              match more.takeWhile Char.isDigit with
              | [] => []
              | digits => c :: sign :: digits
            else
              match rest.takeWhile Char.isDigit with
              | [] => []
              | digits => c :: digits
        | [] => []
      else []
  | [] => []

/-- A number at the head of a text: digits with a point among them or none, and an exponent. -/
def numberAt (text : List Char) : List Char :=
  let whole := text.takeWhile Char.isDigit
  match text.dropWhile Char.isDigit with
  | '.' :: rest =>
      let fraction := rest.takeWhile Char.isDigit
      if whole.isEmpty && fraction.isEmpty then []
      else whole ++ '.' :: (fraction ++ exponentAt (rest.dropWhile Char.isDigit))
  | rest => if whole.isEmpty then [] else whole ++ exponentAt rest

/-- The operators of two characters. -/
def pairTerminal? : Char → Char → Option Terminal
  | '+', '=' => some .plusEqual
  | '-', '=' => some .minusEqual
  | '*', '=' => some .starEqual
  | '/', '=' => some .slashEqual
  | '<', '=' => some .lessEqual
  | '>', '=' => some .greaterEqual
  | '=', '=' => some .equalEqual
  | '!', '=' => some .notEqual
  | _, _ => none

/-- The operators and brackets of one character. -/
def signTerminal? : Char → Option Terminal
  | '=' => some .equal
  | '<' => some .less
  | '>' => some .greater
  | '+' => some .plus
  | '-' => some .minus
  | '*' => some .star
  | '/' => some .slash
  | '%' => some .percent
  | '^' => some .caret
  | '[' => some .leftBracket
  | ']' => some .rightBracket
  | '(' => some .leftParen
  | ')' => some .rightParen
  | ',' => some .comma
  | _ => none

/-- The operator at the head of a text, the longer of two that fit.  Where an operand must stand, a
minus is not drawn into a longer operator. -/
def signAt (operand : Bool) : List Char → Option (Terminal × List Char)
  | c :: d :: _ =>
      match pairTerminal? c d with
      | some t =>
          if operand && t = .minusEqual then some (.minus, [c]) else some (t, [c, d])
      | none => (signTerminal? c).map fun t => (t, [c])
  | [c] => (signTerminal? c).map fun t => (t, [c])
  | [] => none

/-- The kind and the text of the token at the head of a text. -/
def first? (operand : Bool) : List Char → Option (Terminal × List Char)
  | [] => none
  | c :: rest =>
      if startsWord c then
        let word := c :: rest.takeWhile Text.isWord
        some (wordTerminal word, word)
      else
        match numberAt (c :: rest) with
        | [] => signAt operand (c :: rest)
        | number => some (.number, number)

/-- After a token of this kind an operand must stand. -/
def wantsOperand : Terminal → Bool
  | .word | .number | .yes | .no | .rightParen | .rightBracket => false
  | _ => true

end Token

/-- The tokens of a text.  A text that cannot be cut to its end leaves the character that fits no
token, and its place. -/
structure Scan where
  tokens : List Token
  stray : Option (Char × Place)
  deriving DecidableEq, Repr

namespace Scan

/-- Puts a token in front. -/
def push (token : Token) (s : Scan) : Scan := ⟨token :: s.tokens, s.stray⟩

/-- Cuts a text into tokens, from a place on, in a position where an operand must stand or not. -/
def cut (operand : Bool) (place : Place) : List Char → Scan
  | [] => ⟨[], none⟩
  | c :: rest =>
      if Token.isGap c then cut operand (place.after c) rest
      else
        match Token.first? operand (c :: rest) with
        | none => ⟨[], some (c, place)⟩
        | some (terminal, text) =>
            push ⟨terminal, text, place⟩
              (cut (Token.wantsOperand terminal) (place.afterAll text)
                (rest.drop (text.length - 1)))
termination_by text => text.length
decreasing_by
  · simp
  · simp only [List.length_drop, List.length_cons]; omega

end Scan

/-- All tokens of a text. -/
def scan (text : String) : Scan :=
  Scan.cut true .start text.toList

end LoopNest
