import LoopNest.Proofs.Number.Shortest

/-!
# Numerals

An unsigned number is written with digits, a point among them or none, and an optional power of ten:
a letter, an optional sign, and digits.  Numbers of this form are what expression text may hold, and
what the text of a double is made of.  The parts are kept apart here, so that what is read from a
numeral does not depend on where its characters came from.

* `Power`, `Numeral`: the parts, with the proof that they are well formed.
* `Numeral.value`: the rational that a numeral stands for.
* `readFloat?_signed`: a numeral reads as a double, with or without a sign.
* `readInt?_signed`, `readInt?_signed_of_not_whole`: bare digits read as an integer, and no other
  numeral does.
* `readInt?_toString`: an integer reads back from its text.
-/

namespace LoopNest
namespace Number

open Text

/-! ## Digits -/

/-- All characters are decimal digits. -/
def AllDigits (text : List Char) : Prop := ∀ c ∈ text, c.isDigit = true

/-- The values of digits. -/
def digitValues (text : List Char) : List Nat := text.map fun c => c.toNat - '0'.toNat

theorem ofDigits_digitValues (text : List Char) :
    ofDigits (digitValues text) = Nat.ofDigitChars 10 text 0 := by
  rw [ofDigits, ofDigitsIn, digitValues, List.foldl_map]
  rfl

theorem digitValue?_of_isDigit {c : Char} (h : c.isDigit = true) :
    digitValue? c = some (c.toNat - '0'.toNat) :=
  if_pos h

theorem toNat_of_isDigit {c : Char} (h : c.isDigit = true) : 48 ≤ c.toNat ∧ c.toNat ≤ 57 := by
  simpa [Char.isDigit, UInt32.le_iff_toNat_le] using h

theorem ofDigitChars_lt {text : List Char} (h : AllDigits text) (init : Nat) :
    Nat.ofDigitChars 10 text init < (init + 1) * 10 ^ text.length := by
  induction text generalizing init with
  | nil => simp
  | cons c text ih =>
    have hc := toNat_of_isDigit (h c List.mem_cons_self)
    have hzero : '0'.toNat = 48 := rfl
    rw [Nat.ofDigitChars_cons]
    calc Nat.ofDigitChars 10 text (10 * init + (c.toNat - '0'.toNat))
        < (10 * init + (c.toNat - '0'.toNat) + 1) * 10 ^ text.length :=
          ih (fun d hd => h d (List.mem_cons_of_mem _ hd)) _
      _ ≤ (init + 1) * 10 * 10 ^ text.length := Nat.mul_le_mul_right _ (by omega)
      _ = (init + 1) * 10 ^ (text.length + 1) := by rw [Nat.pow_succ]; ring

/-- Nothing at the head of the text goes on with a run of digits. -/
def StopsDigits (rest : List Char) : Prop := ∀ c ∈ rest.head?, digitValue? c = none ∧ c ≠ '_'

theorem moreDigits_append {text rest : List Char} (h : AllDigits text) (hrest : StopsDigits rest) :
    moreDigits digitValue? (text ++ rest) = (digitValues text, rest) := by
  induction text with
  | nil =>
    cases rest with
    | nil => rfl
    | cons c rest =>
      obtain ⟨hnone, hne⟩ := hrest c rfl
      rw [List.nil_append, moreDigits]
      · rw [hnone]
        rfl
      · rintro d rest' rfl -
        exact hne rfl
  | cons c text ih =>
    have hc := h c List.mem_cons_self
    rw [List.cons_append, moreDigits]
    · rw [digitValue?_of_isDigit hc, ih fun d hd => h d (List.mem_cons_of_mem _ hd)]
      rfl
    · rintro d rest' rfl -
      exact absurd hc (by decide)

theorem takeDigits_append {text rest : List Char} (h : AllDigits text) (hrest : StopsDigits rest) :
    takeDigits digitValue? (text ++ rest) = (digitValues text, rest) := by
  cases text with
  | nil =>
    cases rest with
    | nil => rfl
    | cons c rest =>
      rw [List.nil_append, takeDigits, (hrest c rfl).1]
      rfl
  | cons c text =>
    rw [List.cons_append, takeDigits, digitValue?_of_isDigit (h c List.mem_cons_self),
      moreDigits_append (fun d hd => h d (List.mem_cons_of_mem _ hd)) hrest]
    rfl

theorem stopsDigits_nil : StopsDigits [] := by
  simp [StopsDigits]

theorem stopsDigits_cons {c : Char} {rest : List Char} (h : digitValue? c = none) (hne : c ≠ '_') :
    StopsDigits (c :: rest) := by
  simp [StopsDigits, h, hne]

/-! ## The parts of a numeral -/

/-- A power of ten at the end of a numeral. -/
structure Power where
  letter : Char
  sign : Option Char
  digits : List Char
  letter_eq : letter = 'e' ∨ letter = 'E'
  sign_eq : ∀ c ∈ sign, c = '+' ∨ c = '-'
  all_digits : AllDigits digits
  digits_ne : digits ≠ []

/-- The characters of a power of ten. -/
def Power.chars (p : Power) : List Char := p.letter :: (p.sign.toList ++ p.digits)

/-- The exponent that a power of ten writes. -/
def Power.value (p : Power) : Int :=
  if p.sign = some '-' then -(Nat.ofDigitChars 10 p.digits 0 : Int)
    else Nat.ofDigitChars 10 p.digits 0

/-- An unsigned number: digits, with a point among them or none, and an optional power of ten. -/
structure Numeral where
  whole : List Char
  fraction : Option (List Char)
  power : Option Power
  whole_digits : AllDigits whole
  fraction_digits : ∀ f ∈ fraction, AllDigits f
  digits_ne : whole ++ fraction.getD [] ≠ []

namespace Numeral

variable (n : Numeral)

/-- All digits, those behind the point included. -/
def digits : List Char := n.whole ++ n.fraction.getD []

/-- The point with what is behind it. -/
def point : List Char := n.fraction.elim [] ('.' :: ·)

/-- The power of ten as it is written. -/
def tail : List Char := n.power.elim [] Power.chars

/-- The characters of a numeral. -/
def chars : List Char := n.whole ++ (n.point ++ n.tail)

/-- The power of ten that the last digit stands for. -/
def exponent : Int := n.power.elim 0 Power.value - (n.fraction.getD []).length

/-- The rational that a numeral stands for. -/
def value : ℚ := Nat.ofDigitChars 10 n.digits 0 * 10 ^ n.exponent

/-- The numeral has neither a point nor a power of ten. -/
def IsWhole : Prop := n.fraction = none ∧ n.power = none

/-- The characters that numerals are made of. -/
def isChar (c : Char) : Bool := c.isDigit || c = '.' || c = 'e' || c = 'E' || c = '+' || c = '-'

theorem isChar_of_mem {c : Char} (hc : c ∈ n.chars) : isChar c = true := by
  have hdigit : ∀ {text}, AllDigits text → c ∈ text → isChar c = true := fun h hc => by
    simp [isChar, h c hc]
  rcases List.mem_append.mp hc with hc | hc
  · exact hdigit n.whole_digits hc
  rcases List.mem_append.mp hc with hc | hc
  · unfold point at hc
    cases hf : n.fraction with
    | none =>
      rw [hf] at hc
      exact absurd hc List.not_mem_nil
    | some f =>
      rw [hf] at hc
      rcases List.mem_cons.mp hc with rfl | hc
      · rfl
      · exact hdigit (n.fraction_digits f hf) hc
  · unfold tail at hc
    cases hp : n.power with
    | none =>
      rw [hp] at hc
      exact absurd hc List.not_mem_nil
    | some p =>
      rw [hp] at hc
      rcases List.mem_cons.mp hc with rfl | hc
      · rcases p.letter_eq with h | h <;> rw [h] <;> rfl
      rcases List.mem_append.mp hc with hc | hc
      · rcases p.sign_eq c (Option.mem_toList.mp hc) with rfl | rfl <;> rfl
      · exact hdigit p.all_digits hc

/-- A numeral starts with a digit or a point. -/
theorem exists_chars_eq_cons : ∃ c rest, n.chars = c :: rest ∧ (c.isDigit = true ∨ c = '.') := by
  unfold chars
  cases hw : n.whole with
  | cons c rest => exact ⟨c, _, rfl, .inl (n.whole_digits c (hw ▸ List.mem_cons_self))⟩
  | nil =>
    unfold point
    cases hf : n.fraction with
    | some f => exact ⟨'.', _, rfl, .inr rfl⟩
    | none =>
      have := n.digits_ne
      rw [hw, hf] at this
      exact absurd rfl this

/-! ## Reading a numeral -/

theorem takeSign_eq_self {c : Char} {rest : List Char} (h₁ : c ≠ '-') (h₂ : c ≠ '+') :
    takeSign (c :: rest) = (false, c :: rest) := by
  unfold takeSign
  split
  · next h => exact absurd (List.cons.inj h).1 h₁
  · next h => exact absurd (List.cons.inj h).1 h₂
  · rfl

theorem takeSign_power (p : Power) :
    takeSign (p.sign.toList ++ p.digits) = (decide (p.sign = some '-'), p.digits) := by
  cases hs : p.sign with
  | none =>
    obtain ⟨c, rest, hc⟩ := List.exists_cons_of_ne_nil p.digits_ne
    have hdigit := p.all_digits c (hc ▸ List.mem_cons_self)
    rw [Option.toList_none, List.nil_append, hc, takeSign_eq_self]
    · rfl
    · rintro rfl
      exact absurd hdigit (by decide)
    · rintro rfl
      exact absurd hdigit (by decide)
  | some c =>
    rcases p.sign_eq c hs with rfl | rfl <;> rfl

theorem readExponent?_tail : readExponent? n.tail = some (n.power.elim 0 Power.value) := by
  unfold tail
  cases n.power with
  | none => rfl
  | some p =>
    have htake := takeDigits_append p.all_digits stopsDigits_nil
    rw [List.append_nil] at htake
    have hvalues : digitValues p.digits ≠ [] := by
      simpa [digitValues] using p.digits_ne
    have hletter : (decide (p.letter = 'e') || decide (p.letter = 'E')) = true := by
      simpa using p.letter_eq
    simp only [Option.elim_some, Power.chars, readExponent?, if_pos hletter, takeSign_power, htake]
    rw [Power.value, ofDigits_digitValues]
    simp only [decide_eq_true_eq]

theorem stopsDigits_tail : StopsDigits n.tail := by
  unfold tail
  cases n.power with
  | none => exact stopsDigits_nil
  | some p => rcases p.letter_eq with h | h <;> rw [Option.elim_some, Power.chars, h] <;>
      exact stopsDigits_cons (by decide) (by decide)

theorem stopsDigits_point : StopsDigits (n.point ++ n.tail) := by
  unfold point
  cases n.fraction with
  | none => exact n.stopsDigits_tail
  | some f => exact stopsDigits_cons (by decide) (by decide)

/-- The double that a numeral of a sign is read as. -/
def read (negative : Bool) : Float := ofScientific negative (digitValues n.digits) n.exponent

theorem digitValues_digits_ne : digitValues n.digits ≠ [] := by
  unfold digitValues digits
  rw [Ne, List.map_eq_nil_iff]
  exact n.digits_ne

theorem tail_ne_point (more : List Char) : n.tail ≠ '.' :: more := by
  unfold tail
  cases n.power with
  | none => exact fun h => absurd h (by simp)
  | some p =>
    intro h
    have hletter : p.letter = '.' := (List.cons.inj h).1
    rcases p.letter_eq with h' | h' <;> exact absurd (h'.symm.trans hletter) (by decide)

/-- Without a point, the digits in front are all. -/
theorem readUnsigned?_of_no_point {body rest : List Char} {whole : List Nat} (negative : Bool)
    (h : takeDigits digitValue? body = (whole, rest)) (hrest : ∀ more, rest ≠ '.' :: more)
    (hne : whole ≠ []) :
    readUnsigned? negative body = (readExponent? rest).map (ofScientific negative whole) := by
  unfold readUnsigned?
  simp only [h]
  split
  · next hempty =>
    simp [hne] at hempty
  · next => simp

/-- With a point, the digits behind it move the exponent. -/
theorem readUnsigned?_of_point {body more rest : List Char} {whole fraction : List Nat}
    (negative : Bool) (h : takeDigits digitValue? body = (whole, '.' :: more))
    (hmore : takeDigits digitValue? more = (fraction, rest)) (hne : whole ++ fraction ≠ []) :
    readUnsigned? negative body =
      (readExponent? rest).map fun x => ofScientific negative (whole ++ fraction)
        (x - fraction.length) := by
  have : ¬(whole.isEmpty && fraction.isEmpty) = true := by
    simpa [List.append_eq_nil_iff] using hne
  simp only [readUnsigned?, h, hmore, if_neg this]

theorem readUnsigned?_chars (negative : Bool) :
    readUnsigned? negative n.chars = some (n.read negative) := by
  have hwhole := takeDigits_append n.whole_digits n.stopsDigits_point
  have hne := n.digitValues_digits_ne
  unfold point at hwhole
  unfold chars read exponent point
  unfold digits at *
  cases hf : n.fraction with
  | none =>
    rw [hf] at hwhole hne
    simp only [Option.getD_none, List.append_nil, Option.elim_none, List.nil_append] at *
    rw [readUnsigned?_of_no_point negative hwhole n.tail_ne_point hne, readExponent?_tail]
    simp
  | some f =>
    rw [hf] at hwhole hne
    have hfraction := takeDigits_append (n.fraction_digits f hf) n.stopsDigits_tail
    simp only [Option.getD_some, Option.elim_some, List.cons_append] at *
    have happend : digitValues (n.whole ++ f) = digitValues n.whole ++ digitValues f :=
      List.map_append ..
    rw [happend] at hne ⊢
    have hlength : (digitValues f).length = f.length := List.length_map _
    rw [readUnsigned?_of_point negative hwhole hfraction hne, readExponent?_tail, Option.map_some,
      hlength]

end Numeral

/-! ## Signs and blanks -/

theorem strip_eq_self {drop : Char → Bool} {text : List Char} (h : ∀ c ∈ text, drop c = false) :
    strip drop text = text := by
  have hdrop : ∀ {l : List Char}, (∀ c ∈ l, drop c = false) → l.dropWhile drop = l := by
    intro l hl
    cases l with
    | nil => rfl
    | cons c l => rw [List.dropWhile_cons_of_neg (by simp [hl c List.mem_cons_self])]
  rw [strip, hdrop h, hdrop (fun c hc => h c (List.mem_reverse.mp hc)), List.reverse_reverse]

theorem isNumberBlank_of_isChar {c : Char} (h : Numeral.isChar c = true) :
    isNumberBlank c = false := by
  have hrange : 43 ≤ c.toNat ∧ c.toNat ≤ 101 := by
    simp only [Numeral.isChar, Bool.or_eq_true, decide_eq_true_eq] at h
    rcases h with ((((h | rfl) | rfl) | rfl) | rfl) | rfl
    · have := toNat_of_isDigit h
      omega
    all_goals decide
  have : isBlank c = false := by
    simp only [isBlank, Ranges.covers, blankRanges, List.any_eq_false, List.forall_mem_cons,
      Bool.and_eq_true, decide_eq_true_eq, List.not_mem_nil, false_implies, implies_true, and_true]
    omega
  rw [isNumberBlank, this, Bool.false_and]

/-- The characters of a numeral, with the sign of a negative number in front. -/
def Numeral.signed (n : Numeral) (negative : Bool) : List Char :=
  if negative then '-' :: n.chars else n.chars

theorem Numeral.takeSign_signed (n : Numeral) (negative : Bool) :
    takeSign (strip isNumberBlank (n.signed negative)) = (negative, n.chars) := by
  have hmem : ∀ c ∈ n.signed negative, isNumberBlank c = false := by
    intro c hc
    unfold Numeral.signed at hc
    cases negative with
    | false => exact isNumberBlank_of_isChar (n.isChar_of_mem hc)
    | true =>
      rcases List.mem_cons.mp hc with rfl | hc
      · decide
      · exact isNumberBlank_of_isChar (n.isChar_of_mem hc)
  rw [strip_eq_self hmem]
  cases negative with
  | true => rfl
  | false =>
    obtain ⟨c, rest, hchars, hc⟩ := n.exists_chars_eq_cons
    unfold Numeral.signed
    rw [if_neg Bool.false_ne_true, hchars, takeSign_eq_self]
    all_goals
      rintro rfl
      revert hc
      decide

/-- A numeral is none of the words for numbers. -/
theorem Numeral.lower_ne_word (n : Numeral) {word : String} {c : Char} {rest : List Char}
    (hword : word.toList = c :: rest) (hc : 102 ≤ c.toNat) :
    String.ofList (n.chars.map Char.toLower) ≠ word := by
  intro h
  obtain ⟨d, more, hchars, hd⟩ := n.exists_chars_eq_cons
  have hlist := congrArg String.toList h
  rw [String.toList_ofList, hword, hchars, List.map_cons] at hlist
  have hlower : d.toLower = d := by
    unfold Char.toLower
    rw [dif_neg]
    rcases hd with hd | rfl
    · have := toNat_of_isDigit hd
      rintro ⟨h₁, -⟩
      have h₂ : 65 ≤ d.toNat := UInt32.le_iff_toNat_le.mp h₁
      omega
    · decide
  have heq : d = c := hlower.symm.trans (List.cons.inj hlist).1
  rcases hd with hd | hd
  · have := toNat_of_isDigit hd
    rw [heq] at this
    omega
  · rw [← heq, hd] at hc
    revert hc
    decide

/-- **A numeral reads as a double**, with or without a sign. -/
theorem readFloat?_signed (n : Numeral) (negative : Bool) :
    readFloat? (n.signed negative) = some (n.read negative) := by
  unfold readFloat?
  simp only [n.takeSign_signed]
  split
  · next h => exact absurd h (n.lower_ne_word rfl (by decide))
  · next h => exact absurd h (n.lower_ne_word rfl (by decide))
  · next h => exact absurd h (n.lower_ne_word rfl (by decide))
  · exact n.readUnsigned?_chars negative

/-! ## Integers -/

/-- Digits alone, as a numeral. -/
def Numeral.ofWhole (text : List Char) (h : AllDigits text) (hne : text ≠ []) : Numeral where
  whole := text
  fraction := none
  power := none
  whole_digits := h
  fraction_digits := by simp
  digits_ne := by simpa using hne

theorem Numeral.chars_ofWhole {text : List Char} (h : AllDigits text) (hne : text ≠ []) :
    (Numeral.ofWhole text h hne).chars = text :=
  List.append_nil text

/-- **Bare digits read as an integer**, with or without a sign. -/
theorem readInt?_signed {text : List Char} (h : AllDigits text) (hne : text ≠ [])
    (hlength : text.length ≤ digitLimit) (negative : Bool) :
    readInt? ((Numeral.ofWhole text h hne).signed negative) =
      some (if negative then -(Nat.ofDigitChars 10 text 0 : Int)
        else Nat.ofDigitChars 10 text 0) := by
  have htake := takeDigits_append h stopsDigits_nil
  rw [List.append_nil] at htake
  have hlimit : ¬digitLimit < (digitValues text).length := by
    rw [digitValues, List.length_map]
    omega
  have hvalues : digitValues text ≠ [] := by
    simpa [digitValues] using hne
  unfold readInt?
  simp only [Numeral.takeSign_signed, Numeral.chars_ofWhole, htake]
  rw [if_neg hlimit, ofDigits_digitValues]

/-- A numeral with a point or a power of ten is no integer. -/
theorem readInt?_signed_of_not_whole {n : Numeral} (h : ¬n.IsWhole) (negative : Bool) :
    readInt? (n.signed negative) = none := by
  have htake := takeDigits_append n.whole_digits n.stopsDigits_point
  have hrest : n.point ++ n.tail ≠ [] := by
    intro hnil
    obtain ⟨hpoint, htail⟩ := List.append_eq_nil_iff.mp hnil
    refine h ⟨?_, ?_⟩
    · unfold Numeral.point at hpoint
      cases hf : n.fraction with
      | none => rfl
      | some f =>
        rw [hf] at hpoint
        exact absurd hpoint (by simp)
    · unfold Numeral.tail at htail
      cases hp : n.power with
      | none => rfl
      | some p =>
        rw [hp] at htail
        exact absurd htail (by simp [Power.chars])
  unfold readInt?
  simp only [Numeral.takeSign_signed]
  rw [Numeral.chars, htake]
  split
  · rfl
  · next heq => exact absurd (Prod.mk.inj heq).2 hrest
  · rfl

theorem allDigits_toString (n : Nat) : AllDigits (toString n).toList := by
  rw [Nat.toString_eq_ofList_toDigits, String.toList_ofList]
  exact fun c hc => Nat.isDigit_of_mem_toDigits (by decide) (by decide) hc

theorem toString_toList_ne (n : Nat) : (toString n).toList ≠ [] := by
  rw [Nat.toString_eq_ofList_toDigits, String.toList_ofList]
  exact Nat.toDigits_ne_nil

theorem ofDigitChars_toString (n : Nat) : Nat.ofDigitChars 10 (toString n).toList 0 = n := by
  rw [Nat.toString_eq_ofList_toDigits, String.toList_ofList, Nat.ofDigitChars_ten_toDigits]

/-- The digits of a natural number, as a numeral. -/
def Numeral.ofNat (n : Nat) : Numeral :=
  Numeral.ofWhole (toString n).toList (allDigits_toString n) (toString_toList_ne n)

theorem toList_toString_int (n : Int) :
    (toString n).toList = (Numeral.ofNat n.natAbs).signed (decide (n < 0)) := by
  unfold Numeral.signed Numeral.ofNat
  rw [Numeral.chars_ofWhole]
  cases n with
  | ofNat n => rfl
  | negSucc n =>
    have htext : toString (Int.negSucc n) = "-" ++ toString (n + 1) := rfl
    rw [if_pos (by simp), htext, String.toList_append]
    rfl

theorem overlong_eq_false_iff {n : Int} : overlong n = false ↔ n.natAbs < 10 ^ digitLimit := by
  rw [overlong, decide_eq_false_iff_not, not_lt, Nat.length_toDigits_le_iff (by decide) (by decide)]

/-- **An integer of at most `digitLimit` digits reads back from its text.** -/
theorem readInt?_toString {n : Int} (h : n.natAbs < 10 ^ digitLimit) :
    readInt? (toString n).toList = some n := by
  have hlength : (toString n.natAbs).toList.length ≤ digitLimit := by
    rw [String.length_toList, length_toString_le_iff (by decide)]
    exact h
  rw [toList_toString_int, Numeral.ofNat, readInt?_signed _ _ hlength, ofDigitChars_toString]
  congr 1
  simp only [decide_eq_true_eq]
  split <;> omega

end Number
end LoopNest
