import LoopNest.Proofs.Expr.Lexing

/-!
# Where a lexeme ends

A lexeme is the longest at its place if the character behind it goes on with no lexeme of its kind.
Blanks, brackets and commas go on with none; an operator goes on with nothing but an equals sign.  A
text written out of lexemes therefore splits into them again if each ends where the next starts or a
blank stands between.

* `longest_of_breaks`, `longest_mark_of_ne`: what a lexeme and what an operator ends in front of.
* `splits_spacedText`: a text written out of lexemes splits into them.
-/

namespace LoopNest

open Token

theorem eq_of_pairTerminal? {c d : Char} {t : Terminal} (h : pairTerminal? c d = some t) :
    d = '=' := by
  unfold pairTerminal? at h
  split at h <;> first | rfl | cases h

/-- Behind its first character, a mark has at most an equals sign. -/
theorem eq_of_mem_mark {t : Terminal} (ht : (Lexeme.mark t).Proper) {d : Char} {ds : List Char}
    (hstart : startsWord d = false) (hchars : t.spelling.toList = d :: ds) {c : Char}
    (hc : c ∈ ds) : c = '=' := by
  have hhead : t.spelling.toList <+: d :: ds := by
    rw [hchars]
  rcases head_of_mark ht hstart hhead with ⟨e, more, -, hpair, hterminal⟩ | ⟨hsingle, -⟩
  · rw [hchars] at hpair
    cases hpair
    rw [List.mem_singleton.mp hc]
    exact eq_of_pairTerminal? hterminal
  · rw [hchars] at hsingle
    cases hsingle
    exact absurd hc List.not_mem_nil

/-- A lexeme ends in front of a character that no lexeme of its kind goes on with. -/
theorem longest_of_forall {l : Lexeme} (hl : l.Proper) {rest : List Char}
    (h : ∀ c ∈ rest.head?, ∀ other : Lexeme, other.Proper → ∀ d ds, other.chars = d :: ds →
      l.chars.head? = some d → c ∉ ds) : Longest l (l.chars ++ rest) := by
  refine ⟨hl, List.prefix_append _ _, fun other hother hhead => ?_⟩
  by_contra hlonger
  -- a longer lexeme holds the character behind the first one
  obtain ⟨more, hmore⟩ :=
    List.prefix_of_prefix_length_le (List.prefix_append l.chars rest) hhead (not_le.mp hlonger).le
  obtain ⟨d, ds, hd⟩ := hl.exists_chars
  cases more with
  | nil =>
    rw [List.append_nil] at hmore
    exact hlonger (by rw [hmore])
  | cons c more =>
    have hrest : c ∈ rest.head? := by
      rw [← hmore] at hhead
      obtain ⟨tail, rfl⟩ := (List.prefix_append_right_inj l.chars).mp hhead
      rfl
    refine h c hrest other hother d (ds ++ c :: more) ?_ (by rw [hd]; rfl) (by simp)
    rw [← hmore, hd, List.cons_append]

/-- The character stands inside no lexeme, except perhaps at its start. -/
def breaksLexeme (c : Char) : Bool := !Text.isWord c && !Number.Numeral.isChar c && c ≠ '='

/-- A lexeme ends in front of a blank, a bracket or a comma. -/
theorem longest_of_breaks {l : Lexeme} (hl : l.Proper) {rest : List Char}
    (h : ∀ c ∈ rest.head?, breaksLexeme c = true) : Longest l (l.chars ++ rest) := by
  refine longest_of_forall hl fun c hc other hother d ds hchars _ hmem => ?_
  have hbreaks := h c hc
  simp only [breaksLexeme, Bool.and_eq_true, Bool.not_eq_true', decide_eq_true_eq] at hbreaks
  obtain ⟨⟨hword, hnumber⟩, hequal⟩ := hbreaks
  rcases hother.kinds hchars with ⟨-, hall, -⟩ | ⟨-, n, rfl⟩ | ⟨hstart, -, t, rfl⟩
  · exact absurd (hword.symm.trans (hall c hmem)) Bool.false_ne_true
  · have hchar : Number.Numeral.isChar c = true := n.isChar_of_mem (by
      rw [show n.chars = d :: ds from hchars]
      exact List.mem_cons_of_mem _ hmem)
    exact absurd (hnumber.symm.trans hchar) Bool.false_ne_true
  · exact hequal (eq_of_mem_mark hother hstart hchars hmem)

/-- An operator or a bracket ends in front of everything but an equals sign. -/
theorem longest_mark_of_ne {t : Terminal} (ht : (Lexeme.mark t).Proper) (hyes : t ≠ .yes)
    (hno : t ≠ .no) {rest : List Char} (h : rest.head? ≠ some '=') :
    Longest (.mark t) (t.spelling.toList ++ rest) := by
  refine longest_of_forall ht fun c hc other hother d ds hchars hd hmem => ?_
  obtain ⟨d', ds', hd'⟩ := ht.exists_chars
  have hstart : startsWord d = false ∧ startsNumber d = false := by
    rw [hd'] at hd
    cases hd
    exact Terminal.head_spelling hyes hno hd'
  rcases hother.kinds hchars with ⟨hword, -, -⟩ | ⟨hnumber, -⟩ | ⟨-, -, u, rfl⟩
  · exact absurd (hstart.1.symm.trans hword) Bool.false_ne_true
  · exact absurd (hstart.2.symm.trans hnumber) Bool.false_ne_true
  · rw [eq_of_mem_mark hother hstart.1 hchars hmem] at hc
    exact h hc

/-- The lexeme ends in front of the text, by the first character of the text. -/
def Lexeme.endsBefore (l : Lexeme) (rest : List Char) : Bool :=
  rest.head?.all fun c => breaksLexeme c || (l.terminal ∉ [.word, .number, .yes, .no] && c ≠ '=')

theorem longest_of_endsBefore {l : Lexeme} (hl : l.Proper) {rest : List Char}
    (h : l.endsBefore rest = true) :
    Longest l (l.chars ++ rest) := by
  cases rest with
  | nil => exact longest_of_breaks hl (by simp)
  | cons c rest =>
    have hc : breaksLexeme c = true ∨ l.terminal ∉ [.word, .number, .yes, .no] ∧ c ≠ '=' := by
      simpa [Lexeme.endsBefore] using h
    rcases hc with hbreaks | ⟨hterminal, hne⟩
    · exact longest_of_breaks hl (by simpa using hbreaks)
    · cases l with
      | mark t =>
        have ht : t ≠ .yes ∧ t ≠ .no := by
          constructor <;> rintro rfl <;> exact hterminal (by decide)
        exact longest_mark_of_ne hl ht.1 ht.2 (by simpa using hne)
      | word x => exact absurd List.mem_cons_self hterminal
      | number n => exact absurd (List.mem_cons_of_mem _ List.mem_cons_self) hterminal

/-- Lexemes with the blanks behind each, written out. -/
def spacedText : List (Lexeme × List Char) → List Char
  | [] => []
  | (l, gap) :: items => l.chars ++ (gap ++ spacedText items)

/-- Each lexeme ends where the next one or the blanks in front of it start. -/
def isSpaced : List (Lexeme × List Char) → Bool
  | [] => true
  | (l, gap) :: items =>
      l.Proper && gap.all isGap && l.endsBefore (gap ++ spacedText items) && isSpaced items

theorem Splits.after_gaps {gap rest : List Char} {lexemes : List Lexeme}
    (hgap : ∀ c ∈ gap, isGap c = true) (h : Splits rest lexemes) :
    Splits (gap ++ rest) lexemes := by
  induction gap with
  | nil => exact h
  | cons c gap ih =>
    exact .gap (hgap c List.mem_cons_self) (ih fun d hd => hgap d (List.mem_cons_of_mem _ hd))

/-- **A text written out of lexemes that end apart splits into them.** -/
theorem splits_spacedText {items : List (Lexeme × List Char)} (h : isSpaced items = true) :
    Splits (spacedText items) (items.map Prod.fst) := by
  induction items with
  | nil => exact .nil
  | cons item items ih =>
    obtain ⟨l, gap⟩ := item
    simp only [isSpaced, Bool.and_eq_true, decide_eq_true_eq, List.all_eq_true] at h
    obtain ⟨⟨⟨hl, hgap⟩, hends⟩, hitems⟩ := h
    exact .lexeme (longest_of_endsBefore hl hends) ((ih hitems).after_gaps hgap)

end LoopNest
