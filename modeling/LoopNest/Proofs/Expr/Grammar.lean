import LoopNest.Expr.Basic
import LoopNest.Expr.Token
import LoopNest.Proofs.Number.Numeral

/-!
# The grammar of expression text

What expression text is, said without a reader.  A text splits into lexemes, each as long as any
that starts there, with blanks between them skipped.  A sequence of lexemes is an expression or a
statement if it is the yield of a derivation, and what it means is the value of the derivation.

## Why derivations are a family of types

A derivation is a tree with one constructor for each production, and its type names the category
that it derives.  Precedence and associativity are then visible in the types alone: a sum has a sum
on its left and a product on its right, so it can only group to the left, and a comparison has sums
on both sides, so it does not chain.  Steps from a category to the next tighter one are constructors
too.  Two derivations with one yield are therefore equal as they stand, and not only after such
steps are dropped.

* `Lexeme`, `Lexeme.Proper`: the words of the language.
* `Longest`, `Splits`: the longest match, and a whole text cut by it.
* `Derivation`, `Derivation.yield`, `Derivation.value`: the productions, what they derive, and what
  it means.
-/

namespace LoopNest

/-! ## Lexemes -/

/-- The text of the tokens that have only one. -/
def Terminal.spelling : Terminal → String
  | .equal => "="
  | .plusEqual => "+="
  | .minusEqual => "-="
  | .starEqual => "*="
  | .slashEqual => "/="
  | .less => "<"
  | .lessEqual => "<="
  | .greater => ">"
  | .greaterEqual => ">="
  | .equalEqual => "=="
  | .notEqual => "!="
  | .plus => "+"
  | .minus => "-"
  | .star => "*"
  | .slash => "/"
  | .percent => "%"
  | .caret => "^"
  | .leftBracket => "["
  | .rightBracket => "]"
  | .leftParen => "("
  | .rightParen => ")"
  | .comma => ","
  | .yes => "true"
  | .no => "false"
  | .finish | .word | .number => ""

/-- A letter or an underscore, and word characters behind it; the two truth values are no names. -/
structure IsName (x : String) : Prop where
  shape : ∃ c rest, x.toList = c :: rest ∧ Token.startsWord c = true ∧
    ∀ d ∈ rest, Text.isWord d = true
  ne_true : x ≠ "true"
  ne_false : x ≠ "false"

instance (x : String) : Decidable (IsName x) :=
  decidable_of_iff
    ((x.toList.head?.any Token.startsWord && x.toList.tail.all Text.isWord && x ≠ "true" &&
      x ≠ "false") = true) <| by
      constructor
      · intro h
        simp only [Bool.and_eq_true, decide_eq_true_eq, List.all_eq_true, Option.any_eq_true] at h
        obtain ⟨⟨⟨⟨c, hc, hstart⟩, hall⟩, hyes⟩, hno⟩ := h
        obtain ⟨rest, hrest⟩ := List.head?_eq_some_iff.mp hc
        rw [hrest] at hall
        exact ⟨⟨c, rest, hrest, hstart, hall⟩, hyes, hno⟩
      · rintro ⟨⟨c, rest, hchars, hstart, hall⟩, hyes, hno⟩
        simp [hchars, hstart, hyes, hno, List.all_eq_true.mpr hall]

/-- A word of the language: an operator, a bracket or a truth value, a name, or a number. -/
inductive Lexeme where
  | mark (t : Terminal)
  | word (x : String)
  | number (n : Number.Numeral)

namespace Lexeme

/-- The kind of token. -/
def terminal : Lexeme → Terminal
  | .mark t => t
  | .word _ => .word
  | .number _ => .number

/-- The characters of the lexeme. -/
def chars : Lexeme → List Char
  | .mark t => t.spelling.toList
  | .word x => x.toList
  | .number n => n.chars

/-- The lexeme is in the language of its kind. -/
def Proper : Lexeme → Prop
  | .mark t => t.spelling ≠ ""
  | .word x => IsName x
  | .number _ => True

instance : (l : Lexeme) → Decidable l.Proper
  | .mark t => inferInstanceAs (Decidable (t.spelling ≠ ""))
  | .word x => inferInstanceAs (Decidable (IsName x))
  | .number _ => inferInstanceAs (Decidable True)

theorem proper_mark {t : Terminal} (h : t.spelling ≠ "") : (mark t).Proper := h

end Lexeme

/-- The lexeme is at the head of the text, and none that is longer is. -/
structure Longest (l : Lexeme) (text : List Char) : Prop where
  proper : l.Proper
  head : l.chars <+: text
  longest : ∀ other : Lexeme, other.Proper → other.chars <+: text →
    other.chars.length ≤ l.chars.length

/-- The text splits into the lexemes by the longest match, blanks between them skipped. -/
inductive Splits : List Char → List Lexeme → Prop
  | nil : Splits [] []
  | gap {c : Char} {rest : List Char} {lexemes : List Lexeme} :
      Token.isGap c = true → Splits rest lexemes → Splits (c :: rest) lexemes
  | lexeme {l : Lexeme} {rest : List Char} {lexemes : List Lexeme} :
      Longest l (l.chars ++ rest) → Splits rest lexemes → Splits (l.chars ++ rest) (l :: lexemes)

/-! ## Productions -/

namespace Terminal

/-- The assignment and the compound assignments. -/
def assignments : List Terminal := [.equal, .plusEqual, .minusEqual, .starEqual, .slashEqual]

/-- The comparisons. -/
def comparisons : List Terminal :=
  [.less, .lessEqual, .greater, .greaterEqual, .equalEqual, .notEqual]

/-- The operators of sums. -/
def sums : List Terminal := [.plus, .minus]

/-- The operators of products. -/
def products : List Terminal := [.star, .slash, .percent]

end Terminal

/-- The categories of the grammar, loosest first.  A primary is an atom, an indexing or a call. -/
inductive Category where
  | start | statement | expr | comparison | sum | product | unary | power | primary | atom
      | arguments
  deriving DecidableEq

/-- The derivations of a category: one constructor for each production. -/
inductive Derivation : Category → Type
  | start : Derivation .statement → Derivation .start
  | bare : Derivation .expr → Derivation .statement
  | assign (op : Terminal) (h : op ∈ Terminal.assignments) :
      Derivation .expr → Derivation .expr → Derivation .statement
  | expr : Derivation .comparison → Derivation .expr
  | alone : Derivation .sum → Derivation .comparison
  | compare (op : Terminal) (h : op ∈ Terminal.comparisons) :
      Derivation .sum → Derivation .sum → Derivation .comparison
  | term : Derivation .product → Derivation .sum
  | add (op : Terminal) (h : op ∈ Terminal.sums) :
      Derivation .sum → Derivation .product → Derivation .sum
  | factor : Derivation .unary → Derivation .product
  | multiply (op : Terminal) (h : op ∈ Terminal.products) :
      Derivation .product → Derivation .unary → Derivation .product
  | unsigned : Derivation .power → Derivation .unary
  | negate : Derivation .unary → Derivation .unary
  | base : Derivation .primary → Derivation .power
  | raise : Derivation .primary → Derivation .unary → Derivation .power
  | atom : Derivation .atom → Derivation .primary
  | index : Derivation .primary → Derivation .arguments → Derivation .primary
  | call (callee : String) : Derivation .arguments → Derivation .primary
  | callEmpty (callee : String) : Derivation .primary
  | name (x : String) : Derivation .atom
  | number (n : Number.Numeral) : Derivation .atom
  | yes : Derivation .atom
  | no : Derivation .atom
  | group : Derivation .expr → Derivation .atom
  | single : Derivation .expr → Derivation .arguments
  | snoc : Derivation .arguments → Derivation .expr → Derivation .arguments

namespace Derivation

/-- The lexemes that a derivation derives. -/
def yield {c : Category} : Derivation c → List Lexeme
  | .start d => d.yield
  | .bare d => d.yield
  | .assign op _ target value => target.yield ++ .mark op :: value.yield
  | .expr d => d.yield
  | .alone d => d.yield
  | .compare op _ left right => left.yield ++ .mark op :: right.yield
  | .term d => d.yield
  | .add op _ left right => left.yield ++ .mark op :: right.yield
  | .factor d => d.yield
  | .multiply op _ left right => left.yield ++ .mark op :: right.yield
  | .unsigned d => d.yield
  | .negate d => .mark .minus :: d.yield
  | .base d => d.yield
  | .raise b exponent => b.yield ++ .mark .caret :: exponent.yield
  | .atom d => d.yield
  | .index b args => b.yield ++ .mark .leftBracket :: (args.yield ++ [.mark .rightBracket])
  | .call callee args => .word callee :: .mark .leftParen :: (args.yield ++ [.mark .rightParen])
  | .callEmpty callee => [.word callee, .mark .leftParen, .mark .rightParen]
  | .name x => [.word x]
  | .number n => [.number n]
  | .yes => [.mark .yes]
  | .no => [.mark .no]
  | .group d => .mark .leftParen :: (d.yield ++ [.mark .rightParen])
  | .single d => d.yield
  | .snoc args d => args.yield ++ .mark .comma :: d.yield

end Derivation

/-- Bare digits are an integer; with a point or a power of ten, a number is the nearest double. -/
def Number.Numeral.literal (n : Number.Numeral) : Literal :=
  if n.fraction.isNone && n.power.isNone then .int (Nat.ofDigitChars 10 n.whole 0)
    else .float (n.read false)

/-- Arguments mean a list of expressions, everything else an expression. -/
@[reducible]
def Category.Value : Category → Type
  | .arguments => List Expr
  | _ => Expr

namespace Derivation

/-- What a derivation means.  Operators are calls of their spelling, indexing and the compound
assignments are forms. -/
def value {c : Category} : Derivation c → c.Value
  | .start d => d.value
  | .bare d => d.value
  | .assign op _ target value =>
      if op = .equal then Expr.assign target.value value.value
      else Expr.form op.spelling [target.value, value.value]
  | .expr d => d.value
  | .alone d => d.value
  | .compare op _ left right => Expr.call op.spelling [left.value, right.value]
  | .term d => d.value
  | .add op _ left right => Expr.call op.spelling [left.value, right.value]
  | .factor d => d.value
  | .multiply op _ left right => Expr.call op.spelling [left.value, right.value]
  | .unsigned d => d.value
  | .negate d => Expr.call "-" [d.value]
  | .base d => d.value
  | .raise b exponent => Expr.call "^" [b.value, exponent.value]
  | .atom d => d.value
  | .index b args => Expr.form refTag (b.value :: args.value)
  | .call callee args => Expr.call callee args.value
  | .callEmpty callee => Expr.call callee []
  | .name x => Expr.name x
  | .number n => Expr.literal n.literal
  | .yes => Expr.literal (.bool true)
  | .no => Expr.literal (.bool false)
  | .group d => d.value
  | .single d => [d.value]
  | .snoc args d => args.value ++ [d.value]

end Derivation
end LoopNest
