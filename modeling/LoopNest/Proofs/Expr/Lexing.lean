import LoopNest.Proofs.Expr.Grammar
import LoopNest.Proofs.Expr.LongestNumber

/-!
# The longest match

Behind an operand, the scanner takes the longest lexeme at the head of the text, and it finds none
only where there is none.  The first character tells words, numbers and marks apart, so the longest
match is looked for within one kind.  As the characters of a lexeme also tell which lexeme it is, a
text splits in one way at most.

* `Lexeme.eq_of_chars`: lexemes with the same characters are the same.
* `exists_longest_of_first?`, `first?_of_longest`: the scanner takes the longest lexeme.
* `Splits.unique`: a text splits in at most one way.
-/

namespace LoopNest

open Token

/-! ## Marks -/

/-- The mark with the given characters. -/
def markTerminal? : List Char → Option Terminal
  | [c] => signTerminal? c
  | [c, d] => pairTerminal? c d
  | ['t', 'r', 'u', 'e'] => some .yes
  | ['f', 'a', 'l', 's', 'e'] => some .no
  | _ => none

theorem markTerminal?_spelling {t : Terminal} (h : t.spelling ≠ "") :
    markTerminal? t.spelling.toList = some t := by
  cases t with
  | finish | word | number => exact absurd rfl h
  | _ => rfl

/-- A mark is a truth value, two characters, or one. -/
theorem Terminal.spelling_cases {t : Terminal} (h : t.spelling ≠ "") :
    (t = .yes ∨ t = .no) ∨ (∃ c d, t.spelling.toList = [c, d] ∧ pairTerminal? c d = some t) ∨
      ∃ c, t.spelling.toList = [c] ∧ signTerminal? c = some t := by
  cases t with
  | finish | word | number => exact absurd rfl h
  | yes => exact .inl (.inl rfl)
  | no => exact .inl (.inr rfl)
  | plusEqual | minusEqual | starEqual | slashEqual | lessEqual | greaterEqual | equalEqual
      | notEqual =>
    exact .inr (.inl ⟨_, _, rfl, rfl⟩)
  | _ => exact .inr (.inr ⟨_, rfl, rfl⟩)

theorem spelling_of_pairTerminal? {c d : Char} {t : Terminal} (h : pairTerminal? c d = some t) :
    t.spelling.toList = [c, d] := by
  unfold pairTerminal? at h
  split at h <;> cases h <;> rfl

theorem spelling_of_signTerminal? {c : Char} {t : Terminal} (h : signTerminal? c = some t) :
    t.spelling.toList = [c] := by
  unfold signTerminal? at h
  split at h <;> cases h <;> rfl

/-! ## The first character -/

/-- The character starts a number. -/
def startsNumber (c : Char) : Bool := c.isDigit || c = '.'

theorem toNat_of_startsWord {c : Char} (h : startsWord c = true) : 65 ≤ c.toNat := by
  simp only [startsWord, Char.isAlpha, Char.isUpper, Char.isLower, Bool.or_eq_true,
    Bool.and_eq_true, decide_eq_true_eq, UInt32.le_iff_toNat_le, ge_iff_le] at h
  rcases h with (h | h) | rfl
  · exact h.1
  · exact le_trans (by decide) h.1
  · decide

theorem not_startsWord_of_startsNumber {c : Char} (h : startsNumber c = true) :
    startsWord c = false := by
  by_contra hword
  have hcode := toNat_of_startsWord (Bool.eq_true_of_not_eq_false hword)
  simp only [startsNumber, Bool.or_eq_true, decide_eq_true_eq] at h
  rcases h with h | rfl
  · have := Number.toNat_of_isDigit h
    omega
  · exact absurd hcode (by decide)

/-- A mark that is no truth value starts neither like a word nor like a number. -/
theorem Terminal.head_spelling {t : Terminal} (hyes : t ≠ .yes) (hno : t ≠ .no) {c : Char}
    {rest : List Char} (h : t.spelling.toList = c :: rest) :
    startsWord c = false ∧ startsNumber c = false := by
  cases t with
  | yes => exact absurd rfl hyes
  | no => exact absurd rfl hno
  | finish | word | number => cases h
  | _ =>
    cases h
    decide

namespace Lexeme

theorem Proper.exists_chars {l : Lexeme} (h : l.Proper) : ∃ c rest, l.chars = c :: rest := by
  cases l with
  | mark t => exact List.exists_cons_of_ne_nil fun hnil => h (String.toList_eq_nil_iff.mp hnil)
  | word x =>
    obtain ⟨c, rest, hchars, -⟩ := h.shape
    exact ⟨c, rest, hchars⟩
  | number n =>
    obtain ⟨c, rest, hchars, -⟩ := n.exists_chars_eq_cons
    exact ⟨c, rest, hchars⟩

/-- The first character tells words, numbers and marks apart. -/
theorem Proper.kinds {l : Lexeme} (h : l.Proper) {c : Char} {rest : List Char}
    (hc : l.chars = c :: rest) :
    (startsWord c = true ∧ (∀ d ∈ rest, Text.isWord d = true) ∧ l.terminal = wordTerminal l.chars) ∨
    (startsNumber c = true ∧ ∃ n, l = .number n) ∨
    (startsWord c = false ∧ startsNumber c = false ∧ ∃ t, l = .mark t) := by
  cases l with
  | mark t =>
    by_cases hyes : t = .yes
    · subst hyes
      cases hc
      exact .inl ⟨by decide, List.all_eq_true.mp (by decide), rfl⟩
    by_cases hno : t = .no
    · subst hno
      cases hc
      exact .inl ⟨by decide, List.all_eq_true.mp (by decide), rfl⟩
    obtain ⟨hword, hnumber⟩ := Terminal.head_spelling hyes hno hc
    exact .inr (.inr ⟨hword, hnumber, t, rfl⟩)
  | word x =>
    obtain ⟨c', rest', hchars, hstart, hall⟩ := h.shape
    obtain ⟨rfl, rfl⟩ := List.cons.inj (hchars.symm.trans hc)
    refine .inl ⟨hstart, hall, ?_⟩
    have hyes : x.toList ≠ "true".toList := fun heq => h.ne_true (String.toList_injective heq)
    have hno : x.toList ≠ "false".toList := fun heq => h.ne_false (String.toList_injective heq)
    show Terminal.word = wordTerminal x.toList
    exact ((if_neg hyes).trans (if_neg hno)).symm
  | number n =>
    obtain ⟨c', rest', hchars, hstart⟩ := n.exists_chars_eq_cons
    obtain ⟨rfl, rfl⟩ := List.cons.inj (hchars.symm.trans hc)
    exact .inr (.inl ⟨by simpa [startsNumber] using hstart, n, rfl⟩)

/-- A run of word characters is a name or a truth value. -/
theorem exists_word {c : Char} {rest : List Char} (hc : startsWord c = true)
    (hrest : ∀ d ∈ rest, Text.isWord d = true) :
    ∃ l : Lexeme, l.Proper ∧ l.terminal = wordTerminal (c :: rest) ∧ l.chars = c :: rest := by
  unfold wordTerminal
  split
  · next h => exact ⟨.mark .yes, proper_mark (by decide), rfl, h.symm⟩
  · split
    · next h => exact ⟨.mark .no, proper_mark (by decide), rfl, h.symm⟩
    · next hyes hno =>
      have hchars : (String.ofList (c :: rest)).toList = c :: rest := String.toList_ofList
      refine ⟨.word (String.ofList (c :: rest)), ⟨⟨c, rest, hchars, hc, hrest⟩, ?_, ?_⟩, rfl,
        hchars⟩
      · exact fun h => hyes (hchars.symm.trans (congrArg String.toList h))
      · exact fun h => hno (hchars.symm.trans (congrArg String.toList h))

theorem terminal_eq_of_chars {l m : Lexeme} (hl : l.Proper) (hm : m.Proper)
    (h : l.chars = m.chars) :
    l.terminal = m.terminal := by
  obtain ⟨c, rest, hc⟩ := hl.exists_chars
  have hc' : m.chars = c :: rest := h.symm.trans hc
  have hapart : ∀ {d : Char}, startsWord d = true → startsNumber d = true → False :=
    fun hword hnumber =>
    Bool.false_ne_true ((not_startsWord_of_startsNumber hnumber).symm.trans hword)
  rcases hl.kinds hc with ⟨hword, -, ht⟩ | ⟨hnumber, n, rfl⟩ | ⟨hword, hnumber, t, rfl⟩
  · rcases hm.kinds hc' with ⟨-, -, hu⟩ | ⟨hnumber', -⟩ | ⟨hword', -, -⟩
    · rw [ht, hu, h]
    · exact (hapart hword hnumber').elim
    · exact absurd (hword'.symm.trans hword) Bool.false_ne_true
  · rcases hm.kinds hc' with ⟨hword', -, -⟩ | ⟨-, k, rfl⟩ | ⟨-, hnumber', -⟩
    · exact (hapart hword' hnumber).elim
    · rfl
    · exact absurd (hnumber'.symm.trans hnumber) Bool.false_ne_true
  · rcases hm.kinds hc' with ⟨hword', -, -⟩ | ⟨hnumber', -⟩ | ⟨-, -, u, rfl⟩
    · exact absurd (hword.symm.trans hword') Bool.false_ne_true
    · exact absurd (hnumber.symm.trans hnumber') Bool.false_ne_true
    · have ht := markTerminal?_spelling hl
      have hu := markTerminal?_spelling hm
      rw [show t.spelling.toList = u.spelling.toList from h, hu] at ht
      exact (Option.some.inj ht).symm

/-- **Lexemes with the same characters are the same.** -/
theorem eq_of_chars {l m : Lexeme} (hl : l.Proper) (hm : m.Proper) (h : l.chars = m.chars) :
    l = m := by
  have hterminal := terminal_eq_of_chars hl hm h
  -- the kinds of words and numbers have no spelling of their own
  have hmark : ∀ {t : Terminal}, (mark t).Proper → t ≠ .word ∧ t ≠ .number := by
    intro t ht
    constructor <;> rintro rfl <;> exact ht rfl
  cases l with
  | mark t =>
    cases m with
    | mark u => exact congrArg mark hterminal
    | word x => exact absurd hterminal (hmark hl).1
    | number n => exact absurd hterminal (hmark hl).2
  | word x =>
    cases m with
    | mark u => exact absurd hterminal.symm (hmark hm).1
    | word y => exact congrArg word (String.toList_injective h)
    | number n => cases hterminal
  | number n =>
    cases m with
    | mark u => exact absurd hterminal.symm (hmark hm).2
    | word y => cases hterminal
    | number k => exact congrArg number (Number.Numeral.chars_injective h)

end Lexeme

/-! ## The scanner takes the longest lexeme -/

theorem length_le_takeWhile {p : Char → Bool} {run text : List Char} (h : run <+: text)
    (hrun : ∀ c ∈ run, p c = true) :
    run.length ≤ (text.takeWhile p).length := by
  obtain ⟨rest, rfl⟩ := h
  rw [List.takeWhile_append_of_pos hrun, List.length_append]
  exact Nat.le_add_right _ _

/-- A proper lexeme at the head of a text starts with the first character of the text. -/
theorem Lexeme.Proper.head_eq {l : Lexeme} (h : l.Proper) {c : Char} {text : List Char}
    (hhead : l.chars <+: c :: text) :
    ∃ rest, l.chars = c :: rest ∧ rest <+: text := by
  obtain ⟨d, rest, hd⟩ := h.exists_chars
  rw [hd] at hhead ⊢
  obtain ⟨rfl, hrest⟩ := List.cons_prefix_cons.mp hhead
  exact ⟨rest, rfl, hrest⟩

theorem longest_word {c : Char} {rest : List Char} (hc : startsWord c = true) :
    ∃ l, Longest l (c :: rest) ∧ l.terminal = wordTerminal (c :: rest.takeWhile Text.isWord) ∧
      l.chars = c :: rest.takeWhile Text.isWord := by
  have hall : ∀ d ∈ rest.takeWhile Text.isWord, Text.isWord d = true :=
    List.all_eq_true.mp List.all_takeWhile
  obtain ⟨l, hproper, hterminal, hchars⟩ := Lexeme.exists_word hc hall
  refine ⟨l, ⟨hproper, ?_, ?_⟩, hterminal, hchars⟩
  · rw [hchars]
    exact List.cons_prefix_cons.mpr ⟨rfl, List.takeWhile_prefix _⟩
  · intro other hother hhead
    obtain ⟨more, hmore, hprefix⟩ := hother.head_eq hhead
    rw [hmore, hchars, List.length_cons, List.length_cons]
    rcases hother.kinds hmore with ⟨-, hword, -⟩ | ⟨hnumber, -⟩ | ⟨hnot, -⟩
    · exact Nat.succ_le_succ (length_le_takeWhile hprefix hword)
    · exact absurd ((not_startsWord_of_startsNumber hnumber).symm.trans hc) Bool.false_ne_true
    · exact absurd (hnot.symm.trans hc) Bool.false_ne_true

theorem longest_number {text : List Char} (h : numberAt text ≠ []) :
    ∃ l, Longest l text ∧ l.terminal = .number ∧ l.chars = numberAt text := by
  obtain ⟨n, hn⟩ := exists_numeral_numberAt h
  refine ⟨.number n, ⟨trivial, ?_, ?_⟩, rfl, hn⟩
  · show n.chars <+: text
    rw [hn]
    exact numberAt_isPrefix text
  · intro other hother hhead
    obtain ⟨c, rest, hchars, hstart⟩ := n.exists_chars_eq_cons
    have htext : ∃ more, text = c :: more := by
      obtain ⟨more, hmore⟩ := numberAt_isPrefix text
      rw [← hn, hchars] at hmore
      exact ⟨rest ++ more, hmore.symm⟩
    obtain ⟨more, rfl⟩ := htext
    have hnumber : startsNumber c = true := by simpa [startsNumber] using hstart
    obtain ⟨tail, htail, -⟩ := hother.head_eq hhead
    rcases hother.kinds htail with ⟨hword, -, -⟩ | ⟨-, k, rfl⟩ | ⟨-, hnot, -⟩
    · exact absurd ((not_startsWord_of_startsNumber hnumber).symm.trans hword) Bool.false_ne_true
    · obtain ⟨after, hafter⟩ := hhead
      have hlonger := isPrefix_numberAt k after
      rw [show k.chars ++ after = c :: more from hafter, ← hn] at hlonger
      exact hlonger.length_le
    · exact absurd (hnot.symm.trans hnumber) Bool.false_ne_true

/-- A mark at the head of a text, where no word stands. -/
theorem head_of_mark {u : Terminal} (hu : (Lexeme.mark u).Proper) {c : Char} {rest : List Char}
    (hword : startsWord c = false) (hhead : u.spelling.toList <+: c :: rest) :
    (∃ d more, rest = d :: more ∧ u.spelling.toList = [c, d] ∧ pairTerminal? c d = some u) ∨
      u.spelling.toList = [c] ∧ signTerminal? c = some u := by
  obtain ⟨tail, htail, hprefix⟩ := hu.head_eq hhead
  have htail' : u.spelling.toList = c :: tail := htail
  rcases Terminal.spelling_cases hu with htruth | ⟨c', d, hpair, hterminal⟩
    | ⟨c', hsingle, hterminal⟩
  · have hstart : startsWord c = true := by
      rcases htruth with rfl | rfl <;> cases htail' <;> rfl
    exact absurd (hword.symm.trans hstart) Bool.false_ne_true
  · obtain ⟨rfl, rfl⟩ := List.cons.inj (hpair.symm.trans htail')
    obtain ⟨more, rfl⟩ := hprefix
    exact .inl ⟨d, more, rfl, hpair, hterminal⟩
  · obtain ⟨rfl, rfl⟩ := List.cons.inj (hsingle.symm.trans htail')
    exact .inr ⟨hsingle, hterminal⟩

/-- The operator that is taken behind an operand. -/
theorem signAt_cases {c : Char} {rest : List Char} {t : Terminal} {s : List Char}
    (h : signAt false (c :: rest) = some (t, s)) :
    (∃ d more, rest = d :: more ∧ s = [c, d] ∧ pairTerminal? c d = some t) ∨
      s = [c] ∧ signTerminal? c = some t ∧ ∀ d more, rest = d :: more →
        pairTerminal? c d = none := by
  cases rest with
  | nil =>
    obtain ⟨u, hu, heq⟩ := Option.map_eq_some_iff.mp h
    cases heq
    exact .inr ⟨rfl, hu, by simp⟩
  | cons d more =>
    rw [signAt] at h
    cases hpair : pairTerminal? c d with
    | some u =>
      rw [hpair] at h
      cases h
      exact .inl ⟨d, more, rfl, rfl, hpair⟩
    | none =>
      rw [hpair] at h
      obtain ⟨u, hu, heq⟩ := Option.map_eq_some_iff.mp h
      cases heq
      refine .inr ⟨rfl, hu, ?_⟩
      rintro d' more' ⟨⟩
      exact hpair

theorem signAt_ne_none {c : Char} {rest : List Char} {u : Terminal} (hu : (Lexeme.mark u).Proper)
    (hword : startsWord c = false) (hhead : u.spelling.toList <+: c :: rest) :
    signAt false (c :: rest) ≠ none := by
  rcases head_of_mark hu hword hhead with ⟨d, more, rfl, -, hpair⟩ | ⟨-, hsingle⟩
  · rw [signAt, hpair]
    simp
  · cases rest with
    | nil => simp [signAt, hsingle]
    | cons d more =>
      rw [signAt]
      cases pairTerminal? c d <;> simp [hsingle]

/-- Where neither a word nor a number stands, only marks do. -/
theorem exists_mark {l : Lexeme} (hl : l.Proper) {c : Char} {rest : List Char}
    (hword : startsWord c = false) (hnumber : numberAt (c :: rest) = [])
    (hhead : l.chars <+: c :: rest) : ∃ u, l = .mark u := by
  obtain ⟨tail, htail, -⟩ := hl.head_eq hhead
  rcases hl.kinds htail with ⟨hstart, -, -⟩ | ⟨-, n, rfl⟩ | ⟨-, -, u, rfl⟩
  · exact absurd (hword.symm.trans hstart) Bool.false_ne_true
  · obtain ⟨after, hafter⟩ := hhead
    have hlonger := isPrefix_numberAt n after
    rw [show n.chars ++ after = c :: rest from hafter, hnumber] at hlonger
    obtain ⟨d, more, hd⟩ := hl.exists_chars
    exact absurd ((List.prefix_nil.mp hlonger).symm.trans hd) (by simp)
  · exact ⟨u, rfl⟩

theorem longest_mark {c : Char} {rest : List Char} {t : Terminal} {s : List Char}
    (hword : startsWord c = false) (hnumber : numberAt (c :: rest) = [])
    (h : signAt false (c :: rest) = some (t, s)) :
    ∃ l, Longest l (c :: rest) ∧ l.terminal = t ∧ l.chars = s := by
  have hspelled : t.spelling.toList = s ∧ s <+: c :: rest := by
    rcases signAt_cases h with ⟨d, more, rfl, rfl, hpair⟩ | ⟨rfl, hsingle, -⟩
    · exact ⟨spelling_of_pairTerminal? hpair, ⟨more, rfl⟩⟩
    · exact ⟨spelling_of_signTerminal? hsingle, ⟨rest, rfl⟩⟩
  have hproper : (Lexeme.mark t).Proper := by
    intro hempty
    have hnil : s = [] := by
      rw [← hspelled.1, hempty]
      rfl
    rcases signAt_cases h with ⟨d, more, -, rfl, -⟩ | ⟨rfl, -⟩ <;> cases hnil
  refine ⟨.mark t, ⟨hproper, ?_, ?_⟩, rfl, hspelled.1⟩
  · show t.spelling.toList <+: c :: rest
    rw [hspelled.1]
    exact hspelled.2
  · intro other hother hhead
    obtain ⟨u, rfl⟩ := exists_mark hother hword hnumber hhead
    show u.spelling.toList.length ≤ t.spelling.toList.length
    rw [hspelled.1]
    rcases signAt_cases h with ⟨d, more, rfl, rfl, -⟩ | ⟨rfl, -, hno⟩ <;>
      rcases head_of_mark hother hword hhead with ⟨d', more', hrest, hu, hpair⟩ | ⟨hu, -⟩
    · rw [hu]
      exact le_rfl
    · rw [hu]
      exact Nat.le_succ 1
    · rw [hno d' more' hrest] at hpair
      cases hpair
    · rw [hu]

/-- What is taken behind an operand is the longest lexeme there. -/
theorem exists_longest_of_first? {text : List Char} {t : Terminal} {s : List Char}
    (h : first? false text = some (t, s)) : ∃ l, Longest l text ∧ l.terminal = t ∧ l.chars = s := by
  cases text with
  | nil => cases h
  | cons c rest =>
    rw [first?] at h
    cases hword : startsWord c with
    | true =>
      rw [hword, if_pos rfl] at h
      cases h
      exact longest_word hword
    | false =>
      rw [hword, if_neg Bool.false_ne_true] at h
      split at h
      · next hnumber => exact longest_mark hword hnumber h
      · next hnumber =>
        cases h
        exact longest_number hnumber

theorem first?_ne_none {l : Lexeme} (hl : l.Proper) {text : List Char} (hhead : l.chars <+: text) :
    first? false text ≠ none := by
  cases text with
  | nil =>
    obtain ⟨c, rest, hc⟩ := hl.exists_chars
    rw [hc] at hhead
    exact absurd (List.prefix_nil.mp hhead) (by simp)
  | cons c rest =>
    rw [first?]
    cases hword : startsWord c with
    | true => simp
    | false =>
      rw [if_neg Bool.false_ne_true]
      split
      · next hnumber =>
        obtain ⟨u, rfl⟩ := exists_mark hl hword hnumber hhead
        exact signAt_ne_none hl hword hhead
      · simp

theorem Longest.unique {l m : Lexeme} {text : List Char} (hl : Longest l text)
    (hm : Longest m text) : l = m := by
  have hlength : l.chars.length = m.chars.length :=
    le_antisymm (hm.longest l hl.proper hl.head) (hl.longest m hm.proper hm.head)
  exact Lexeme.eq_of_chars hl.proper hm.proper
    ((List.prefix_of_prefix_length_le hl.head hm.head hlength.le).eq_of_length hlength)

/-- **Behind an operand, the scanner takes the longest lexeme.** -/
theorem first?_of_longest {l : Lexeme} {text : List Char} (h : Longest l text) :
    first? false text = some (l.terminal, l.chars) := by
  cases hfirst : first? false text with
  | none => exact absurd hfirst (first?_ne_none h.proper h.head)
  | some found =>
    obtain ⟨t, s⟩ := found
    obtain ⟨m, hm, rfl, rfl⟩ := exists_longest_of_first? hfirst
    rw [h.unique hm]

/-! ## One way to split -/

/-- No lexeme starts with a blank. -/
theorem isGap_of_proper {l : Lexeme} (h : l.Proper) {c : Char} {rest : List Char}
    (hc : l.chars = c :: rest) :
    isGap c = false := by
  by_contra hgap
  have hblank : c = ' ' ∨ c = '\t' ∨ c = '\x0c' ∨ c = '\r' ∨ c = '\n' := by
    simpa [isGap, or_assoc] using Bool.eq_true_of_not_eq_false hgap
  have hstart : startsWord c = false ∧ startsNumber c = false := by
    rcases hblank with rfl | rfl | rfl | rfl | rfl <;> decide
  rcases h.kinds hc with ⟨hword, -, -⟩ | ⟨hnumber, -⟩ | ⟨-, -, t, rfl⟩
  · exact absurd (hstart.1.symm.trans hword) Bool.false_ne_true
  · exact absurd (hstart.2.symm.trans hnumber) Bool.false_ne_true
  · have hhead : t.spelling.toList <+: c :: rest := by
      rw [show t.spelling.toList = c :: rest from hc]
    rcases head_of_mark h hstart.1 hhead with ⟨d, more, -, -, hpair⟩ | ⟨-, hsingle⟩
    · rcases hblank with rfl | rfl | rfl | rfl | rfl <;> simp [pairTerminal?] at hpair
    · rcases hblank with rfl | rfl | rfl | rfl | rfl <;> cases hsingle

theorem Longest.not_gap {l : Lexeme} {c : Char} {text : List Char} (h : Longest l (c :: text)) :
    isGap c = false := by
  obtain ⟨rest, hchars, -⟩ := h.proper.head_eq h.head
  exact isGap_of_proper h.proper hchars

/-- A split text is empty, starts with a blank, or starts with its longest lexeme. -/
theorem Splits.inv {text : List Char} {lexemes : List Lexeme} (h : Splits text lexemes) :
    (text = [] ∧ lexemes = []) ∨
    (∃ c rest, text = c :: rest ∧ isGap c = true ∧ Splits rest lexemes) ∨
    (∃ l rest more, text = l.chars ++ rest ∧ lexemes = l :: more ∧ Longest l text ∧
      Splits rest more) := by
  cases h with
  | nil => exact .inl ⟨rfl, rfl⟩
  | gap hc hrest => exact .inr (.inl ⟨_, _, rfl, hc, hrest⟩)
  | lexeme hl hrest => exact .inr (.inr ⟨_, _, _, rfl, rfl, hl, hrest⟩)

theorem Longest.ne_nil {l : Lexeme} {text : List Char} (h : Longest l text) : text ≠ [] := by
  rintro rfl
  obtain ⟨c, rest, hc⟩ := h.proper.exists_chars
  exact absurd ((List.prefix_nil.mp h.head).symm.trans hc) (by simp)

/-- **A text splits in at most one way.** -/
theorem Splits.unique {text : List Char} {lexemes lexemes' : List Lexeme} (h : Splits text lexemes)
    (h' : Splits text lexemes') : lexemes = lexemes' := by
  induction h generalizing lexemes' with
  | nil =>
    rcases h'.inv with ⟨-, rfl⟩ | ⟨c, rest, htext, -, -⟩ | ⟨l, rest, more, -, -, hl, -⟩
    · rfl
    · cases htext
    · exact absurd rfl hl.ne_nil
  | gap hc _ ih =>
    rcases h'.inv with ⟨htext, -⟩ | ⟨c, rest, htext, -, hrest⟩ | ⟨l, rest, more, -, -, hl, -⟩
    · cases htext
    · cases htext
      exact ih hrest
    · exact absurd (hl.not_gap.symm.trans hc) Bool.false_ne_true
  | @lexeme l rest lexemes hl _ ih =>
    rcases h'.inv with ⟨htext, -⟩ | ⟨c, rest', htext, hc, -⟩
      | ⟨l', rest', more, htext, rfl, hl', hrest⟩
    · exact absurd htext hl.ne_nil
    · rw [htext] at hl
      exact absurd (hl.not_gap.symm.trans hc) Bool.false_ne_true
    · obtain rfl := hl.unique hl'
      rw [ih (List.append_cancel_left htext ▸ hrest)]

end LoopNest
