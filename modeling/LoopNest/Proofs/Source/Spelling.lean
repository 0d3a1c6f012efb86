import LoopNest.Proofs.Expr.LexemeEnds

/-!
# Generated text as expression text

Generated code writes a power with two stars, expression text with a caret.  Spelling every pair of
stars as a caret turns a line of generated code into expression text.  Here is what the pieces of
such a line split into, wherever they stand.

## Why a piece is described by what stands behind it

Neither spelling nor splitting is done piece by piece: two stars may meet where two pieces do, and a
lexeme may go on into the next piece.  So a piece is described by what it does in front of other
text.  Behind an operand only a blank, a bracket or a comma ever stands, and these go on with no
lexeme.  Behind an operator everything may stand but an equals sign.  What follows a piece is
therefore known by its first character, and `Spelled` keeps that character.

* `spellCaret`: every pair of stars spelled as a caret.
* `Respells`, `Reads`: what a piece becomes, and which lexemes it splits into.
* `Spelled`: both together, with the first character.
* `Spelled.append`, `Spelled.after`, `Spelled.closed`, `Spelled.between`: pieces put together.
-/

namespace LoopNest
namespace Source

/-! ## Powers -/

/-- Every pair of stars spelled as a caret. -/
def spellCaret : List Char → List Char
  | '*' :: '*' :: rest => '^' :: spellCaret rest
  | c :: rest => c :: spellCaret rest
  | [] => []

/-- In front of any text, the piece is spelled as its image. -/
def Respells (piece image : List Char) : Prop :=
  ∀ rest, spellCaret (piece ++ rest) = image ++ spellCaret rest

theorem Respells.append {a a' b b' : List Char} (ha : Respells a a') (hb : Respells b b') :
    Respells (a ++ b) (a' ++ b') := by
  intro rest
  rw [List.append_assoc, ha, hb, List.append_assoc]

theorem Respells.spellCaret_eq {piece image : List Char} (h : Respells piece image) :
    spellCaret piece = image := by
  have hnil := h []
  rwa [List.append_nil, spellCaret, List.append_nil] at hnil

theorem spellCaret_cons {c : Char} (hc : c ≠ '*') (rest : List Char) :
    spellCaret (c :: rest) = c :: spellCaret rest := by
  rw [spellCaret]
  rintro rest' rfl
  exact absurd rfl hc

/-- A piece without stars is spelled as it is. -/
theorem respells_self {piece : List Char} (h : ∀ c ∈ piece, c ≠ '*') : Respells piece piece := by
  intro rest
  induction piece with
  | nil => rfl
  | cons c piece ih =>
    rw [List.cons_append, spellCaret_cons (h c List.mem_cons_self),
      ih fun d hd => h d (List.mem_cons_of_mem _ hd), List.cons_append]

/-- The operators of expression text have single stars only, and a blank behind them keeps them
single. -/
theorem respells_spelling (t : Terminal) :
    Respells (t.spelling.toList ++ [' ']) (t.spelling.toList ++ [' ']) := by
  cases t <;> exact fun _ => rfl

/-! ## Lexemes -/

/-- In front of any text that ends a lexeme, the piece splits into the lexemes. -/
def Reads (image : List Char) (lexemes : List Lexeme) : Prop :=
  ∀ rest more, (∀ c ∈ rest.head?, breaksLexeme c = true) → Splits rest more →
    Splits (image ++ rest) (lexemes ++ more)

theorem reads_lexeme {l : Lexeme} (hl : l.Proper) : Reads l.chars [l] :=
  fun _ _ hrest h => .lexeme (longest_of_breaks hl hrest) h

theorem Reads.append {a tail : List Char} {c : Char} {ls ms : List Lexeme} (ha : Reads a ls)
    (hb : Reads (c :: tail) ms) (hc : breaksLexeme c = true) :
    Reads (a ++ c :: tail) (ls ++ ms) := by
  intro rest more hrest h
  rw [List.append_assoc, List.append_assoc]
  exact ha _ _ (by simpa using hc) (hb rest more hrest h)

theorem Reads.blank {image : List Char} {lexemes : List Lexeme} (h : Reads image lexemes) :
    Reads (' ' :: image) lexemes :=
  fun rest more hrest hmore => .gap rfl (h rest more hrest hmore)

theorem Reads.mark {c : Char} {tail : List Char} {lexemes : List Lexeme}
    (h : Reads (c :: tail) lexemes) (hc : c ≠ '=') {t : Terminal} (ht : (Lexeme.mark t).Proper)
    (hyes : t ≠ .yes) (hno : t ≠ .no) :
    Reads (t.spelling.toList ++ c :: tail) (.mark t :: lexemes) := by
  intro rest more hrest hmore
  rw [List.append_assoc]
  exact .lexeme (longest_mark_of_ne ht hyes hno (by simpa using hc)) (h rest more hrest hmore)

/-! ## Both together -/

/-- The piece is spelled so that it splits into the lexemes, and then starts with the character. -/
def Spelled (c : Char) (piece : List Char) (lexemes : List Lexeme) : Prop :=
  ∃ tail, Respells piece (c :: tail) ∧ Reads (c :: tail) lexemes

theorem spelled_lexeme {l : Lexeme} (hl : l.Proper) {c : Char} {tail : List Char}
    (hchars : l.chars = c :: tail) (hstars : ∀ d ∈ l.chars, d ≠ '*') : Spelled c l.chars [l] :=
  ⟨tail, hchars ▸ respells_self hstars, hchars ▸ reads_lexeme hl⟩

theorem proper_of_spelling {t : Terminal} {c : Char} (h : t.spelling.toList = [c]) :
    (Lexeme.mark t).Proper := by
  refine Lexeme.proper_mark fun hempty => ?_
  rw [hempty] at h
  cases h

namespace Spelled

variable {c d : Char} {a b : List Char} {ls ms : List Lexeme} {t : Terminal}

/-- Behind a piece stands another that starts with a blank, a bracket or a comma. -/
theorem append (ha : Spelled c a ls) (hb : Spelled d b ms) (hd : breaksLexeme d = true) :
    Spelled c (a ++ b) (ls ++ ms) := by
  obtain ⟨s, hs, hreads⟩ := ha
  obtain ⟨u, hu, hreads'⟩ := hb
  exact ⟨s ++ d :: u, hs.append hu, hreads.append hreads' hd⟩

/-- A blank stands in front of a piece. -/
theorem blank (ha : Spelled c a ls) : Spelled ' ' (' ' :: a) ls := by
  obtain ⟨s, hs, hreads⟩ := ha
  exact ⟨c :: s, (@respells_self [' '] (by simp)).append hs, hreads.blank⟩

/-- A sign, an opening bracket or a comma stands in front of a piece. -/
theorem after (ht : t.spelling.toList = [d]) (hd : d ≠ '*') (ha : Spelled c a ls) (hc : c ≠ '=') :
    Spelled d (d :: a) (.mark t :: ls) := by
  have hyes : t ≠ .yes := by
    rintro rfl
    cases ht
  have hno : t ≠ .no := by
    rintro rfl
    cases ht
  obtain ⟨s, hs, hreads⟩ := ha
  refine ⟨c :: s, (@respells_self [d] (by simpa using hd)).append hs, ?_⟩
  have hmark := hreads.mark hc (proper_of_spelling ht) hyes hno
  rwa [ht] at hmark

/-- A closing bracket stands behind a piece. -/
theorem closed (ha : Spelled c a ls) (ht : t.spelling.toList = [d]) (hd : breaksLexeme d = true)
    (hstar : d ≠ '*') :
    Spelled c (a ++ [d]) (ls ++ [.mark t]) := by
  have hmark : Spelled d (Lexeme.mark t).chars [.mark t] :=
    spelled_lexeme (proper_of_spelling ht) ht (by simpa [Lexeme.chars, ht] using hstar)
  rw [Lexeme.chars, ht] at hmark
  exact ha.append hmark hd

/-- Parentheses stand around a piece. -/
theorem inParens (ha : Spelled c a ls) (hc : c ≠ '=') :
    Spelled '(' ('(' :: (a ++ [')'])) (.mark .leftParen :: (ls ++ [.mark .rightParen])) :=
  after rfl (by decide) (ha.closed rfl (by decide) (by decide)) hc

/-- An operator stands between two pieces, with a blank on each side. -/
theorem between (ha : Spelled c a ls) (hb : Spelled d b ms) (ht : (Lexeme.mark t).Proper)
    (hyes : t ≠ .yes) (hno : t ≠ .no) {op : List Char}
    (hop : Respells (op ++ [' ']) (t.spelling.toList ++ [' '])) :
    Spelled c (a ++ ' ' :: (op ++ ' ' :: b)) (ls ++ .mark t :: ms) := by
  obtain ⟨s, hs, hreads⟩ := hb
  have hspells : Respells (op ++ ' ' :: b) (t.spelling.toList ++ ' ' :: d :: s) := by
    have happend := hop.append hs
    rwa [List.append_assoc, List.append_assoc] at happend
  have hright : Spelled ' ' (' ' :: (op ++ ' ' :: b)) (.mark t :: ms) :=
    ⟨_, (@respells_self [' '] (by simp)).append hspells,
      (hreads.blank.mark (by decide) ht hyes hno).blank⟩
  exact ha.append hright (by decide)

end Spelled

end Source
end LoopNest
