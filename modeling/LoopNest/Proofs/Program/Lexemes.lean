import LoopNest.Program.Reader
import LoopNest.Proofs.Expr.Lexing
import LoopNest.Proofs.Expr.ReaderSteps
import LoopNest.Proofs.Source.Constant

/-!
# Lexemes of generated lines

A line is cut into lexemes from the left, each as long as possible, so a piece of a line cannot be
cut on its own.  But behind an operand stands a blank, a bracket, a comma, a colon or nothing at
all, and none of these goes on with a word or a number.  So a piece is described by what it is cut
into in front of such a character.

* `Program.Yields`: the lexemes of a piece, in front of whatever ends an operand.
* `Program.yields_word`, `Program.yields_number`, `Program.yields_quoted`: the operands of one
  lexeme.
* `Program.Yields.append`, `Program.Yields.afterBracket`, `Program.Yields.between`: pieces put
  together.
-/

namespace LoopNest
namespace Program

/-! ## One lexeme -/

@[simp] theorem lexemes?_nil : lexemes? [] = some [] := by
  rw [lexemes?]

@[simp] theorem lexemes?_blank (rest : List Char) : lexemes? (' ' :: rest) = lexemes? rest := by
  rw [lexemes?, if_pos rfl]

/-- A lexeme at the head is taken, and the rest is cut on its own. -/
theorem lexemes?_of_lexemeAt? {piece rest : List Char} {l : Lexeme} (hne : piece ≠ [])
    (hblank : piece.head? ≠ some ' ') (h : lexemeAt? (piece ++ rest) = some (l, piece.length)) :
    lexemes? (piece ++ rest) = (lexemes? rest).map (l :: ·) := by
  obtain ⟨c, tail, rfl⟩ := List.exists_cons_of_ne_nil hne
  have hc : c ≠ ' ' := fun h => hblank (congrArg some h)
  rw [List.cons_append] at h ⊢
  rw [lexemes?, if_neg hc, h]
  simp

/-- The characters behind an operand. -/
def enders : List Char := [' ', '(', ')', '[', ']', ',', ':']

/-- The text is at its end, or starts with a character that ends an operand. -/
def Stops (rest : List Char) : Prop := ∀ c ∈ rest.head?, c ∈ enders

theorem stops_nil : Stops [] := by
  simp [Stops]

theorem Stops.not_isInner {rest : List Char} (h : Stops rest) :
    ∀ c ∈ rest.head?, Text.isInner c = false := by
  intro c hc
  have hall : enders.all fun c => !Text.isInner c := by decide
  simpa using List.all_eq_true.mp hall c (h c hc)

theorem Stops.not_isChar {rest : List Char} (h : Stops rest) :
    ∀ c ∈ rest.head?, Number.Numeral.isChar c = false := by
  intro c hc
  have hall : enders.all fun c => !Number.Numeral.isChar c := by decide
  simpa using List.all_eq_true.mp hall c (h c hc)

/-- The number that is taken ends where no character of a numeral follows. -/
theorem numberAt_chars (n : Number.Numeral) {rest : List Char}
    (h : ∀ c ∈ rest.head?, Number.Numeral.isChar c = false) :
    Token.numberAt (n.chars ++ rest) = n.chars := by
  have hlonger := Token.isPrefix_numberAt n rest
  have hne : Token.numberAt (n.chars ++ rest) ≠ [] := by
    obtain ⟨c, tail, hchars, -⟩ := n.exists_chars_eq_cons
    rintro hnil
    rw [hnil, hchars] at hlonger
    exact absurd (List.prefix_nil.mp hlonger) (List.cons_ne_nil _ _)
  obtain ⟨m, hm⟩ := Token.exists_numeral_numberAt hne
  obtain ⟨more, hmore⟩ := hlonger
  have hhead := Token.numberAt_isPrefix (n.chars ++ rest)
  rw [← hmore] at hhead
  cases more with
  | nil => rw [← hmore, List.append_nil]
  | cons c more =>
    -- a longer number would hold the character behind the numeral
    obtain ⟨tail, rfl⟩ := (List.prefix_append_right_inj n.chars).mp hhead
    have hchar : Number.Numeral.isChar c = true := by
      refine m.isChar_of_mem ?_
      rw [hm, ← hmore]
      simp
    exact absurd (h c rfl) (by simp [hchar])

theorem numberAt_of_not_start {c : Char} (hc : c.isDigit = false ∧ c ≠ '.') (rest : List Char) :
    Token.numberAt (c :: rest) = [] := by
  unfold Token.numberAt
  rw [List.dropWhile_cons_of_neg (by simp [hc.1]), List.takeWhile_cons_of_neg (by simp [hc.1])]
  dsimp only
  split
  · next h => exact absurd (List.cons.inj h).1 hc.2
  · rfl

/-! ## Pieces of a line -/

/-- In front of whatever ends an operand, the piece is cut into the lexemes. -/
def Yields (piece : List Char) (ls : List Lexeme) : Prop :=
  ∀ rest, Stops rest → lexemes? (piece ++ rest) = (lexemes? rest).map (ls ++ ·)

/-- A word is cut off at the first character that does not belong to it. -/
theorem yields_word {c : Char} {rest : List Char} (hinitial : Text.isInitial c = true)
    (hinner : ∀ d ∈ rest, Text.isInner d = true) :
    Yields (c :: rest) [.word (String.ofList (c :: rest))] := by
  intro more hmore
  have hblank : (c :: rest).head? ≠ some ' ' := by
    rintro ⟨⟩
    revert hinitial
    decide
  refine lexemes?_of_lexemeAt? (List.cons_ne_nil _ _) hblank ?_
  rw [List.cons_append, lexemeAt?, if_pos hinitial,
    Number.takeWhile_append_of_stop hinner hmore.not_isInner]

/-- A number starts neither like a word nor like a quoted text. -/
theorem not_isInitial_of_startsNumber {c : Char} (h : startsNumber c = true) :
    Text.isInitial c = false ∧ ¬(c = Text.singleMark ∨ c = Text.doubleMark) ∧ c ≠ ' ' := by
  have hcode : c.toNat < 128 := by
    simp only [startsNumber, Bool.or_eq_true, decide_eq_true_eq] at h
    rcases h with h | rfl
    · have := Number.toNat_of_isDigit h
      omega
    · decide
  have hword : (c.isAlpha || decide (c = '_')) = false := not_startsWord_of_startsNumber h
  refine ⟨?_, ?_, ?_⟩
  · rw [Text.isInitial, hword, decide_eq_false (not_le.mpr hcode)]
    rfl
  · rintro (rfl | rfl) <;> revert h <;> decide
  · rintro rfl
    revert h
    decide

theorem yields_number (n : Number.Numeral) : Yields n.chars [.constant n.literal] := by
  intro rest hrest
  obtain ⟨c, tail, hchars, hc⟩ := n.exists_chars_eq_cons
  obtain ⟨hinitial, hquote, hblank⟩ :=
    not_isInitial_of_startsNumber (by simpa [startsNumber] using hc)
  have hnumber := numberAt_chars n hrest.not_isChar
  refine lexemes?_of_lexemeAt? (by simp [hchars]) (by simpa [hchars] using hblank) ?_
  rw [hchars, List.cons_append] at hnumber ⊢
  rw [lexemeAt?, if_neg (by simp [hinitial]), if_neg (by simp [hquote]), hnumber]
  dsimp only
  rw [← hchars, Reading.numberValue_chars]

theorem yields_quoted (s : String) : Yields (Text.quoteChars s.toList) [.constant (.text s)] := by
  intro rest _
  obtain ⟨mark, inside, hmark, hquote, hunquote⟩ := Text.unquote?_quoteChars s.toList rest
  have hnot : mark ≠ ' ' ∧ Text.isInitial mark = false := by
    rcases hmark with rfl | rfl <;> decide
  refine lexemes?_of_lexemeAt? (by simp [hquote]) (by simp [hquote, hnot.1]) ?_
  have hquoted : (decide (mark = Text.singleMark) || decide (mark = Text.doubleMark)) = true := by
    simpa using hmark
  rw [hquote, List.cons_append, lexemeAt?, if_neg (by simp [hnot.2]), if_pos hquoted, hunquote,
    Option.map_some]
  dsimp only
  rw [String.ofList_toList, List.length_cons, List.length_append, List.length_cons]
  congr 2
  omega

theorem Yields.append {a b : List Char} {ls ms : List Lexeme} (ha : Yields a ls) (hb : Yields b ms)
    {c : Char} (hhead : b.head? = some c) (hc : c ∈ enders) : Yields (a ++ b) (ls ++ ms) := by
  intro rest hrest
  have hstops : Stops (b ++ rest) := by
    intro d hd
    cases b with
    | nil => cases hhead
    | cons e b =>
      cases hhead
      cases hd
      exact hc
  rw [List.append_assoc, ha _ hstops, hb _ hrest, Option.map_map]
  congr 1
  funext more
  simp

theorem Yields.blank {a : List Char} {ls : List Lexeme} (ha : Yields a ls) :
    Yields (' ' :: a) ls := by
  intro rest hrest
  rw [List.cons_append, lexemes?_blank, ha rest hrest]

/-! ## Signs -/

/-- The characters that signs start with. -/
def signStarts : List Char := '!' :: singleSigns

theorem lexemes?_sign {s : String} {c : Char} {tail : List Char} (hchars : s.toList = c :: tail)
    (hc : c ∈ signStarts) {rest : List Char} (h : signAt (s.toList ++ rest) = s.toList) :
    lexemes? (s.toList ++ rest) = (lexemes? rest).map (.sign s :: ·) := by
  have hall : signStarts.all fun c => !Text.isInitial c && !(decide (c = Text.singleMark) ||
      decide (c = Text.doubleMark)) && !c.isDigit && decide (c ≠ '.') && decide (c ≠ ' ') := by
        decide
  have hnot := List.all_eq_true.mp hall c hc
  simp only [Bool.and_eq_true, Bool.not_eq_true', decide_eq_true_eq] at hnot
  obtain ⟨⟨⟨⟨hinitial, hquote⟩, hdigit⟩, hpoint⟩, hblank⟩ := hnot
  refine lexemes?_of_lexemeAt? (by simp [hchars]) (by simpa [hchars] using hblank) ?_
  rw [hchars, List.cons_append] at h ⊢
  rw [lexemeAt?, if_neg (by simp [hinitial]), if_neg (by simp [hquote]),
    numberAt_of_not_start ⟨hdigit, hpoint⟩, h]
  dsimp only
  rw [← hchars, String.ofList_toList]

theorem signAt_of_single {c : Char} (hc : c ∈ singleSigns) {rest : List Char}
    (h : ∀ d ∈ rest.head?, [c, d] ∉ pairSigns) : signAt (c :: rest) = [c] := by
  have hcontains : singleSigns.contains c = true := List.contains_iff_mem.mpr hc
  cases rest with
  | nil => rw [signAt, if_pos hcontains]
  | cons d rest =>
    have hpair : ¬pairSigns.contains [c, d] = true := by
      rw [List.contains_iff_mem]
      exact h d rfl
    rw [signAt, if_neg hpair, if_pos hcontains]

theorem lexemes?_single {s : String} {c : Char} (hs : s.toList = [c]) (hc : c ∈ singleSigns)
    {rest : List Char} (h : ∀ d ∈ rest.head?, [c, d] ∉ pairSigns) :
    lexemes? (c :: rest) = (lexemes? rest).map (.sign s :: ·) := by
  have hsign : signAt (s.toList ++ rest) = s.toList := by
    rw [hs]
    exact signAt_of_single hc h
  have hcut := lexemes?_sign hs (List.mem_cons_of_mem _ hc) hsign
  rwa [hs] at hcut

/-- Brackets, commas and colons start no sign of two characters. -/
theorem lexemes?_bracket {s : String} {c : Char} (hs : s.toList = [c])
    (hc : c ∈ ['(', ')', '[', ']', ',', ':']) (rest : List Char) :
    lexemes? (c :: rest) = (lexemes? rest).map (.sign s :: ·) := by
  have hsingle : c ∈ singleSigns ∧ ∀ d, [c, d] ∉ pairSigns := by
    simp only [List.mem_cons, List.not_mem_nil, or_false] at hc
    rcases hc with rfl | rfl | rfl | rfl | rfl | rfl <;> simp [singleSigns, pairSigns]
  exact lexemes?_single hs hsingle.1 fun d _ => hsingle.2 d

/-- A plus or a minus in front of an operand. -/
theorem lexemes?_prefixSign {s : String} {c : Char} (hs : s.toList = [c]) (hc : c = '-' ∨ c = '+')
    {rest : List Char} (hrest : rest.head? ≠ some '=') :
    lexemes? (c :: rest) = (lexemes? rest).map (.sign s :: ·) := by
  have hsingle : c ∈ singleSigns ∧ ∀ d, [c, d] ∈ pairSigns → d = '=' := by
    rcases hc with rfl | rfl <;> simp [singleSigns, pairSigns]
  refine lexemes?_single hs hsingle.1 fun d hd hpair => hrest ?_
  rw [← hsingle.2 d hpair]
  exact hd

/-- The operators and assignments that stand between two blanks. -/
def spacedSigns : List String :=
  ["+", "-", "*", "/", "%", "**", "<", "<=", ">", ">=", "==", "!=", "=", "+=", "-=", "*=", "/="]

theorem lexemes?_spaced {s : String} (hs : s ∈ spacedSigns) (rest : List Char) :
    lexemes? (s.toList ++ ' ' :: rest) = (lexemes? rest).map (.sign s :: ·) := by
  have hsign : (∃ c tail, s.toList = c :: tail ∧ c ∈ signStarts) ∧
      signAt (s.toList ++ ' ' :: rest) = s.toList := by
    simp only [spacedSigns, List.mem_cons, List.not_mem_nil, or_false] at hs
    rcases hs with rfl | rfl | rfl | rfl | rfl | rfl | rfl | rfl | rfl | rfl | rfl | rfl | rfl | rfl
      | rfl | rfl | rfl
    all_goals exact ⟨⟨_, _, rfl, by decide⟩, rfl⟩
  obtain ⟨⟨c, tail, hchars, hc⟩, hsign⟩ := hsign
  rw [lexemes?_sign hchars hc hsign, lexemes?_blank]

/-! ## Pieces with signs -/

namespace Yields

variable {a b : List Char} {ls ms : List Lexeme}

/-- A bracket, a comma or a colon on its own. -/
theorem bracket {s : String} {c : Char} (hs : s.toList = [c])
    (hc : c ∈ ['(', ')', '[', ']', ',', ':']) :
    Yields [c] [.sign s] :=
  fun rest _ => lexemes?_bracket hs hc rest

/-- A bracket or a comma in front of a piece. -/
theorem afterBracket (ha : Yields a ls) {s : String} {c : Char} (hs : s.toList = [c])
    (hc : c ∈ ['(', ')', '[', ']', ',', ':']) : Yields (c :: a) (.sign s :: ls) := by
  intro rest hrest
  rw [List.cons_append, lexemes?_bracket hs hc, ha rest hrest, Option.map_map]
  rfl

/-- A plus or a minus in front of a piece that does not start with an equals sign. -/
theorem afterSign (ha : Yields a ls) (hne : ∃ c tail, a = c :: tail ∧ c ≠ '=') {s : String}
    {c : Char} (hs : s.toList = [c]) (hc : c = '-' ∨ c = '+') :
    Yields (c :: a) (.sign s :: ls) := by
  intro rest hrest
  obtain ⟨d, tail, rfl, hd⟩ := hne
  rw [List.cons_append, lexemes?_prefixSign hs hc (by simpa using hd), ha rest hrest,
    Option.map_map]
  rfl

/-- An operator or an assignment between two pieces, with a blank on each side. -/
theorem between (ha : Yields a ls) (hb : Yields b ms) {s : String} (hs : s ∈ spacedSigns) :
    Yields (a ++ ' ' :: (s.toList ++ ' ' :: b)) (ls ++ .sign s :: ms) := by
  have hright : Yields (' ' :: (s.toList ++ ' ' :: b)) (.sign s :: ms) := by
    intro rest hrest
    rw [List.cons_append, List.append_assoc, lexemes?_blank, List.cons_append, lexemes?_spaced hs,
      hb rest hrest, Option.map_map]
    rfl
  exact ha.append hright rfl (by decide)

end Yields

end Program
end LoopNest
