import LoopNest.Expr.Token
import LoopNest.Proofs.Number.Numeral

/-!
# The longest number at the head of a text

The number that the scanner takes is a numeral, and every numeral at the head of the text is a part
of it.  A numeral also has one reading only: the digits in front of the point are all digits in
front of it, and so on to the end, so its parts are found again in its characters.

* `Number.Numeral.chars_injective`: the characters determine the parts.
* `Token.exists_numeral_numberAt`: what is taken is a numeral at the head.
* `Token.isPrefix_numberAt`: no numeral at the head is longer.
-/

namespace LoopNest

namespace Number

/-! ## Reading the parts off the characters -/

theorem takeWhile_append_of_stop {α : Type} {p : α → Bool} {l rest : List α}
    (hl : ∀ c ∈ l, p c = true) (hrest : ∀ c ∈ rest.head?, p c = false) :
    (l ++ rest).takeWhile p = l := by
  rw [List.takeWhile_append_of_pos hl]
  cases rest with
  | nil => simp
  | cons c rest => simp [hrest c rfl]

theorem dropWhile_append_of_stop {α : Type} {p : α → Bool} {l rest : List α}
    (hl : ∀ c ∈ l, p c = true) (hrest : ∀ c ∈ rest.head?, p c = false) :
    (l ++ rest).dropWhile p = rest := by
  rw [List.dropWhile_append_of_pos hl]
  cases rest with
  | nil => simp
  | cons c rest => simp [hrest c rfl]

/-- Two runs of digits in front of something else are the same run. -/
theorem append_inj_of_stop {p : Char → Bool} {l l' rest rest' : List Char}
    (hl : ∀ c ∈ l, p c = true) (hl' : ∀ c ∈ l', p c = true) (hrest : ∀ c ∈ rest.head?, p c = false)
    (hrest' : ∀ c ∈ rest'.head?, p c = false) (h : l ++ rest = l' ++ rest') :
    l = l' ∧ rest = rest' := by
  constructor
  · rw [← takeWhile_append_of_stop hl hrest, h, takeWhile_append_of_stop hl' hrest']
  · rw [← dropWhile_append_of_stop hl hrest, h, dropWhile_append_of_stop hl' hrest']

theorem Power.not_digit_letter (p : Power) : p.letter.isDigit = false := by
  rcases p.letter_eq with h | h <;> rw [h] <;> rfl

theorem Power.not_digit_sign (p : Power) : ∀ c ∈ p.sign, c.isDigit = false := by
  intro c hc
  rcases p.sign_eq c hc with rfl | rfl <;> rfl

theorem Power.chars_injective {p q : Power} (h : p.chars = q.chars) : p = q := by
  obtain ⟨hletter, hbody⟩ := List.cons.inj h
  have hsign : ∀ (p : Power), ∀ c ∈ p.sign.toList, (!c.isDigit) = true := by
    intro p c hc
    rw [p.not_digit_sign c (Option.mem_toList.mp hc)]
    rfl
  have hdigits : ∀ (p : Power), ∀ c ∈ p.digits.head?, (!c.isDigit) = false := by
    intro p c hc
    rw [p.all_digits c (List.mem_of_head? hc)]
    rfl
  obtain ⟨hsigns, hrest⟩ := append_inj_of_stop (hsign p) (hsign q) (hdigits p) (hdigits q) hbody
  have hsame : p.sign = q.sign := by
    simpa using congrArg List.head? hsigns
  cases p
  cases q
  simp only [Power.mk.injEq]
  exact ⟨hletter, hsame, hrest⟩

namespace Numeral

variable (n : Numeral)

theorem not_digit_tail : ∀ c ∈ n.tail.head?, c.isDigit = false := by
  unfold tail
  cases n.power with
  | none => simp
  | some p =>
    rintro c ⟨⟩
    exact p.not_digit_letter

theorem not_digit_point : ∀ c ∈ (n.point ++ n.tail).head?, c.isDigit = false := by
  unfold point
  cases n.fraction with
  | none => exact n.not_digit_tail
  | some f =>
    rintro c ⟨⟩
    rfl

theorem tail_injective {n m : Numeral} (h : n.tail = m.tail) : n.power = m.power := by
  unfold tail at h
  cases hn : n.power <;> cases hm : m.power <;> rw [hn, hm] at h
  · cases h
  · cases h
  · rw [Power.chars_injective h]

/-- **The characters of a numeral determine its parts.** -/
theorem chars_injective {n m : Numeral} (h : n.chars = m.chars) : n = m := by
  obtain ⟨hwhole, hrest⟩ :=
    append_inj_of_stop n.whole_digits m.whole_digits n.not_digit_point m.not_digit_point h
  have hparts : n.fraction = m.fraction ∧ n.tail = m.tail := by
    unfold point at hrest
    cases hn : n.fraction <;> cases hm : m.fraction <;> rw [hn, hm] at hrest
    · exact ⟨rfl, hrest⟩
    · exact absurd hrest (n.tail_ne_point _)
    · exact absurd hrest.symm (m.tail_ne_point _)
    · obtain ⟨hfraction, htail⟩ :=
        append_inj_of_stop (n.fraction_digits _ hn) (m.fraction_digits _ hm)
        n.not_digit_tail m.not_digit_tail (List.cons.inj hrest).2
      exact ⟨congrArg some hfraction, htail⟩
  have hpower := tail_injective hparts.2
  cases n
  cases m
  simp only [Numeral.mk.injEq]
  exact ⟨hwhole, hparts.1, hpower⟩

end Numeral
end Number

/-! ## Taking a number -/

namespace Token

open Number

theorem exponentAt_power (p : Power) (rest : List Char) :
    exponentAt (p.chars ++ rest) = p.chars ++ rest.takeWhile Char.isDigit := by
  have hletter : (decide (p.letter = 'e') || decide (p.letter = 'E')) = true := by
    simpa using p.letter_eq
  obtain ⟨d, digits, hdigits⟩ := List.exists_cons_of_ne_nil p.digits_ne
  have hrun : (p.digits ++ rest).takeWhile Char.isDigit = p.digits ++ rest.takeWhile Char.isDigit :=
    List.takeWhile_append_of_pos p.all_digits
  have hd : d.isDigit = true := p.all_digits d (hdigits ▸ List.mem_cons_self)
  unfold Power.chars exponentAt
  cases hs : p.sign with
  | none =>
    have hplain : ¬(decide (d = '+') || decide (d = '-')) = true := by
      rintro h
      rw [Bool.or_eq_true, decide_eq_true_eq, decide_eq_true_eq] at h
      rcases h with rfl | rfl <;> exact absurd hd (by decide)
    rw [hdigits, List.cons_append] at hrun
    simp only [Option.toList_none, List.nil_append, List.cons_append, hdigits, if_pos hletter,
      if_neg hplain, hrun]
  | some c =>
    have hsign : (decide (c = '+') || decide (c = '-')) = true := by
      simpa using p.sign_eq c hs
    rw [hdigits, List.cons_append] at hrun
    simp only [Option.toList_some, List.cons_append, List.nil_append, hdigits, if_pos hletter,
      if_pos hsign, hrun]

theorem allDigits_takeWhile (text : List Char) : AllDigits (text.takeWhile Char.isDigit) :=
  List.all_eq_true.mp List.all_takeWhile

/-- What is taken as an exponent is a power of ten at the head, or nothing. -/
theorem exponentAt_cases (text : List Char) :
    exponentAt text = [] ∨ ∃ p : Power, p.chars = exponentAt text ∧ p.chars <+: text := by
  have hletter : ∀ {c : Char}, (decide (c = 'e') || decide (c = 'E')) = true → c = 'e' ∨
      c = 'E' := by
    intro c hc
    simpa using hc
  fun_cases exponentAt text with
  | case2 c hc sign more hsign hne =>
    refine .inr ⟨⟨c, some sign, more.takeWhile Char.isDigit, hletter hc, ?_,
      allDigits_takeWhile more, hne⟩, rfl, ?_⟩
    · rintro d ⟨⟩
      simpa using hsign
    · exact List.cons_prefix_cons.mpr ⟨rfl,
        List.cons_prefix_cons.mpr ⟨rfl, List.takeWhile_prefix _⟩⟩
  | case3 c hc d more hplain hnil =>
    rw [hnil]
    exact .inl rfl
  | case4 c hc d more hplain hne =>
    refine .inr ⟨⟨c, none, (d :: more).takeWhile Char.isDigit, hletter hc, by simp,
      allDigits_takeWhile (d :: more), hne⟩, ?_, ?_⟩
    · split
      · next hnil => exact absurd hnil hne
      · rfl
    · exact List.cons_prefix_cons.mpr ⟨rfl, List.takeWhile_prefix _⟩
  | _ => exact .inl rfl

theorem exponentAt_isPrefix (text : List Char) : exponentAt text <+: text := by
  rcases exponentAt_cases text with h | ⟨p, hp, hhead⟩
  · rw [h]
    exact List.nil_prefix
  · rw [← hp]
    exact hhead

/-- The exponent that is taken, as the end of a numeral. -/
theorem exists_power (text : List Char) :
    ∃ power : Option Power, power.elim [] Power.chars = exponentAt text := by
  rcases exponentAt_cases text with h | ⟨p, hp, -⟩
  · exact ⟨none, h.symm⟩
  · exact ⟨some p, hp⟩

theorem numberAt_isPrefix (text : List Char) : numberAt text <+: text := by
  have hsplit : text.takeWhile Char.isDigit ++ text.dropWhile Char.isDigit = text :=
    List.takeWhile_append_dropWhile
  fun_cases numberAt text with
  | case2 whole rest hdrop fraction _ =>
    have hrest : fraction ++ rest.dropWhile Char.isDigit = rest := List.takeWhile_append_dropWhile
    conv_rhs => rw [← hsplit, hdrop, ← hrest]
    refine (List.prefix_append_right_inj whole).mpr (List.cons_prefix_cons.mpr ⟨rfl, ?_⟩)
    exact (List.prefix_append_right_inj fraction).mpr (exponentAt_isPrefix _)
  | case4 whole _ _ =>
    conv_rhs => rw [← hsplit]
    exact (List.prefix_append_right_inj whole).mpr (exponentAt_isPrefix _)
  | _ => exact List.nil_prefix

/-- **What is taken as a number is a numeral.** -/
theorem exists_numeral_numberAt {text : List Char} (h : numberAt text ≠ []) :
    ∃ n : Numeral, n.chars = numberAt text := by
  revert h
  fun_cases numberAt text with
  | case2 whole rest hdrop fraction hne =>
    obtain ⟨power, hpower⟩ := exists_power (rest.dropWhile Char.isDigit)
    refine fun _ => ⟨⟨whole, some fraction, power, allDigits_takeWhile text, ?_, ?_⟩, ?_⟩
    · rintro f ⟨⟩
      exact allDigits_takeWhile rest
    · simpa using hne
    · simp [Numeral.chars, Numeral.point, Numeral.tail, hpower]
  | case4 whole hne _ =>
    obtain ⟨power, hpower⟩ := exists_power (text.dropWhile Char.isDigit)
    refine fun _ => ⟨⟨whole, none, power, allDigits_takeWhile text, by simp, ?_⟩, ?_⟩
    · simpa using hne
    · simp [Numeral.chars, Numeral.point, Numeral.tail, hpower]
  | _ => exact fun h => absurd rfl h

theorem numberAt_of_point {whole more : List Char} (hwhole : AllDigits whole)
    (hne : whole ++ more.takeWhile Char.isDigit ≠ []) :
    numberAt (whole ++ '.' :: more) =
      whole ++ '.' :: (more.takeWhile Char.isDigit ++
        exponentAt (more.dropWhile Char.isDigit)) := by
  have hstop : ∀ c ∈ ('.' :: more).head?, c.isDigit = false := by
    rintro c ⟨⟩
    rfl
  have hempty : ¬(whole.isEmpty && (more.takeWhile Char.isDigit).isEmpty) = true := by
    rw [Bool.and_eq_true, List.isEmpty_iff, List.isEmpty_iff, ← List.append_eq_nil_iff]
    exact hne
  unfold numberAt
  rw [takeWhile_append_of_stop hwhole hstop, dropWhile_append_of_stop hwhole hstop]
  simp only [if_neg hempty]

theorem numberAt_of_power {whole : List Char} (hwhole : AllDigits whole) (hne : whole ≠ [])
    (p : Power) (rest : List Char) :
    numberAt (whole ++ (p.chars ++ rest)) = whole ++ (p.chars ++ rest.takeWhile Char.isDigit) := by
  have hstop : ∀ c ∈ (p.chars ++ rest).head?, c.isDigit = false := by
    rintro c ⟨⟩
    exact p.not_digit_letter
  have hempty : ¬whole.isEmpty = true := by
    rwa [List.isEmpty_iff]
  unfold numberAt
  rw [takeWhile_append_of_stop hwhole hstop, dropWhile_append_of_stop hwhole hstop]
  dsimp only
  split
  · next heq =>
    have hletter : p.letter = '.' := (List.cons.inj heq).1
    rcases p.letter_eq with h | h <;> rw [h] at hletter <;> exact absurd hletter (by decide)
  · rw [if_neg hempty, exponentAt_power]

/-- The digits in front are always taken. -/
theorem takeWhile_isPrefix_numberAt {text : List Char} (h : text.takeWhile Char.isDigit ≠ []) :
    text.takeWhile Char.isDigit <+: numberAt text := by
  fun_cases numberAt text with
  | case1 whole rest _ fraction hempty =>
    rw [Bool.and_eq_true, List.isEmpty_iff] at hempty
    exact absurd hempty.1 h
  | case3 whole hempty _ => exact absurd (List.isEmpty_iff.mp hempty) h
  | _ => exact List.prefix_append _ _

/-- **No numeral at the head of a text is longer than the number that is taken.** -/
theorem isPrefix_numberAt (n : Numeral) (rest : List Char) :
    n.chars <+: numberAt (n.chars ++ rest) := by
  unfold Numeral.chars
  have hdigits := n.digits_ne
  cases hf : n.fraction with
  | some f =>
    rw [hf, Option.getD_some] at hdigits
    have hfraction := n.fraction_digits f hf
    have hrun : ∀ more, n.whole ++ (f ++ more).takeWhile Char.isDigit ≠ [] := by
      intro more
      rw [List.takeWhile_append_of_pos hfraction, ← List.append_assoc]
      exact List.append_ne_nil_of_left_ne_nil hdigits _
    have hpoint : n.point = '.' :: f := by
      rw [Numeral.point, hf, Option.elim_some]
    rw [hpoint, List.append_assoc, List.append_assoc, List.cons_append, List.cons_append,
      numberAt_of_point n.whole_digits (hrun _)]
    refine (List.prefix_append_right_inj _).mpr (List.cons_prefix_cons.mpr ⟨rfl, ?_⟩)
    cases hp : n.power with
    | some p =>
      have htail : n.tail = p.chars := by
        rw [Numeral.tail, hp, Option.elim_some]
      have hstop : ∀ c ∈ (p.chars ++ rest).head?, c.isDigit = false := by
        rintro c ⟨⟩
        exact p.not_digit_letter
      rw [htail, takeWhile_append_of_stop hfraction hstop, dropWhile_append_of_stop hfraction hstop,
        exponentAt_power]
      exact (List.prefix_append_right_inj _).mpr (List.prefix_append _ _)
    | none =>
      rw [Numeral.tail, hp, Option.elim_none, List.append_nil, List.nil_append,
        List.takeWhile_append_of_pos hfraction, List.append_assoc]
      exact List.prefix_append _ _
  | none =>
    rw [hf, Option.getD_none, List.append_nil] at hdigits
    rw [Numeral.point, hf, Option.elim_none, List.nil_append]
    cases hp : n.power with
    | some p =>
      rw [Numeral.tail, hp, Option.elim_some, List.append_assoc,
        numberAt_of_power n.whole_digits hdigits]
      exact (List.prefix_append_right_inj _).mpr (List.prefix_append _ _)
    | none =>
      rw [Numeral.tail, hp, Option.elim_none, List.append_nil]
      have hrun : (n.whole ++ rest).takeWhile Char.isDigit =
          n.whole ++ rest.takeWhile Char.isDigit :=
        List.takeWhile_append_of_pos n.whole_digits
      refine (List.prefix_append n.whole (rest.takeWhile Char.isDigit)).trans ?_
      rw [← hrun]
      refine takeWhile_isPrefix_numberAt ?_
      rw [hrun]
      exact List.append_ne_nil_of_left_ne_nil hdigits _

end Token
end LoopNest
