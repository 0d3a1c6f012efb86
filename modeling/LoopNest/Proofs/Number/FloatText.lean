import LoopNest.Number.Notation
import LoopNest.Proofs.Number.Numeral

/-!
# Doubles read back from their text

The text of a positive double is a numeral of the value of its shortest decimal, whichever of the
four layouts the notation picks.  That decimal lies where every number rounds to the double, so
reading the text gives the double back, and the sign goes around the digits on both ways.

## Why the layouts are numerals first

Reading knows nothing of layouts: it takes digits, a point and a power of ten apart.  Once a layout
is seen as a `Numeral`, all that is left of it is its value, and the value is the same in all four.

* `Notation.exists_numeral_text`: the text of a decimal is a numeral of its value.
* `exists_numeral_floatText`: the text of a finite double is a numeral that is read as the double.
* `readFloat?_floatText`: every double but the one that is no number reads back from its text.
-/

namespace LoopNest
namespace Number

/-! ## Values of runs of digits -/

theorem allDigits_append {l m : List Char} (hl : AllDigits l) (hm : AllDigits m) :
    AllDigits (l ++ m) := by
  intro c hc
  rcases List.mem_append.mp hc with hc | hc
  · exact hl c hc
  · exact hm c hc

theorem allDigits_zeros (k : Nat) : AllDigits (List.replicate k '0') := by
  intro c hc
  rw [(List.mem_replicate.mp hc).2]
  rfl

theorem toList_zeroRun (k : Nat) : (zeroRun k).toList = List.replicate k '0' := String.toList_ofList

theorem ofDigitChars_append_zeros (l : List Char) (k : Nat) :
    Nat.ofDigitChars 10 (l ++ List.replicate k '0') 0 = Nat.ofDigitChars 10 l 0 * 10 ^ k := by
  rw [Nat.ofDigitChars_append, Nat.ofDigitChars_replicate_zero, Nat.mul_comm]

theorem ofDigitChars_zeros_append (k : Nat) (l : List Char) :
    Nat.ofDigitChars 10 (List.replicate k '0' ++ l) 0 = Nat.ofDigitChars 10 l 0 := by
  rw [Nat.ofDigitChars_append, Nat.ofDigitChars_replicate_zero, Nat.mul_zero]

theorem toList_padded (width n : Nat) :
    (padded width n).toList = List.replicate (width - (toString n).length) '0' ++
    (toString n).toList := by
  rw [padded, String.toList_append, toList_zeroRun]

theorem allDigits_padded (width n : Nat) : AllDigits (padded width n).toList := by
  rw [toList_padded]
  exact allDigits_append (allDigits_zeros _) (allDigits_toString n)

theorem padded_ne (width n : Nat) : (padded width n).toList ≠ [] := by
  rw [toList_padded]
  exact List.append_ne_nil_of_right_ne_nil _ (toString_toList_ne n)

theorem ofDigitChars_padded (width n : Nat) :
    Nat.ofDigitChars 10 (padded width n).toList 0 = n := by
  rw [toList_padded, ofDigitChars_zeros_append, ofDigitChars_toString]

/-! ## The layouts -/

section layouts

variable {digits : List Char} (hdigits : AllDigits digits) (hne : digits ≠ [])

/-- Zeros up to the point, and one behind it. -/
def Numeral.ofLarge (k : Nat) : Numeral where
  whole := digits ++ List.replicate k '0'
  fraction := some ['0']
  power := none
  whole_digits := allDigits_append hdigits (allDigits_zeros k)
  fraction_digits := by
    rintro f ⟨⟩
    exact allDigits_zeros 1
  digits_ne := by simp

/-- A point among the digits. -/
def Numeral.ofSplit (k : Nat) : Numeral where
  whole := digits.take k
  fraction := some (digits.drop k)
  power := none
  whole_digits := fun c hc => hdigits c (List.mem_of_mem_take hc)
  fraction_digits := by
    rintro f ⟨⟩ c hc
    exact hdigits c (List.mem_of_mem_drop hc)
  digits_ne := by
    rw [Option.getD_some, List.take_append_drop]
    exact hne

/-- Zeros between the point and the digits. -/
def Numeral.ofSmall (k : Nat) : Numeral where
  whole := ['0']
  fraction := some (List.replicate k '0' ++ digits)
  power := none
  whole_digits := allDigits_zeros 1
  fraction_digits := by
    rintro f ⟨⟩
    exact allDigits_append (allDigits_zeros k) hdigits
  digits_ne := by simp

/-- A power of ten with its sign and at least `width` digits. -/
def Power.ofInt (width : Nat) (x : Int) : Power where
  letter := 'e'
  sign := some (if x < 0 then '-' else '+')
  digits := (padded width x.natAbs).toList
  letter_eq := .inl rfl
  sign_eq := by
    rintro c ⟨⟩
    split
    · exact .inr rfl
    · exact .inl rfl
  all_digits := allDigits_padded width x.natAbs
  digits_ne := padded_ne width x.natAbs

/-- One digit, the others behind a point, and a power of ten. -/
def Numeral.ofPower {c : Char} {rest : List Char} (hdigits : AllDigits (c :: rest))
    (p : Power) : Numeral where
  whole := [c]
  fraction := if rest = [] then none else some rest
  power := some p
  whole_digits := fun d hd => hdigits d (List.mem_cons.mpr (.inl (List.mem_singleton.mp hd)))
  fraction_digits := by
    intro f hf d hd
    split at hf
    · cases hf
    · cases hf
      exact hdigits d (List.mem_cons_of_mem _ hd)
  digits_ne := by simp

theorem Power.value_ofInt (width : Nat) (x : Int) : (Power.ofInt width x).value = x := by
  have hsign : (Power.ofInt width x).sign = some (if x < 0 then '-' else '+') := rfl
  have hpadded : (Power.ofInt width x).digits = (padded width x.natAbs).toList := by
    simp only [Power.ofInt]
  rw [Power.value, hsign, hpadded, ofDigitChars_padded]
  rcases lt_or_ge x 0 with hx | hx
  · rw [if_pos hx, if_pos rfl]
    omega
  · rw [if_neg (not_lt.mpr hx), if_neg (by decide)]
    omega

theorem Numeral.value_ofLarge (k : Nat) :
    (Numeral.ofLarge hdigits k).value = Nat.ofDigitChars 10 digits 0 * 10 ^ (k : Int) := by
  have hall : Nat.ofDigitChars 10 (Numeral.ofLarge hdigits k).digits 0 =
      Nat.ofDigitChars 10 digits 0 * 10 ^ (k + 1) := by
    rw [← ofDigitChars_append_zeros, List.replicate_succ', ← List.append_assoc]
    rfl
  have hexponent : (Numeral.ofLarge hdigits k).exponent = -1 := rfl
  rw [Numeral.value, hall, hexponent, Nat.cast_mul, Nat.cast_pow, zpow_natCast, mul_assoc, pow_succ,
    mul_assoc]
  norm_num

theorem Numeral.value_ofSplit {k : Nat} {x : Int} (hk : (k : Int) = x + digits.length)
    (hx : x ≤ 0) :
    (Numeral.ofSplit hdigits hne k).value = Nat.ofDigitChars 10 digits 0 * 10 ^ x := by
  have hall : (Numeral.ofSplit hdigits hne k).digits = digits := List.take_append_drop k digits
  have hexponent : (Numeral.ofSplit hdigits hne k).exponent = x := by
    show (0 : Int) - ((digits.drop k).length : Nat) = x
    rw [List.length_drop]
    omega
  rw [Numeral.value, hall, hexponent]

theorem Numeral.value_ofSmall {k : Nat} {x : Int} (hk : (k : Int) = -x - digits.length) :
    (Numeral.ofSmall hdigits k).value = Nat.ofDigitChars 10 digits 0 * 10 ^ x := by
  have hall : Nat.ofDigitChars 10 (Numeral.ofSmall hdigits k).digits 0
      = Nat.ofDigitChars 10 digits 0 :=
    ofDigitChars_zeros_append (k + 1) digits
  have hexponent : (Numeral.ofSmall hdigits k).exponent = x := by
    show (0 : Int) - ((List.replicate k '0' ++ digits).length : Nat) = x
    rw [List.length_append, List.length_replicate]
    omega
  rw [Numeral.value, hall, hexponent]

theorem Numeral.value_ofPower {c : Char} {rest : List Char} (hdigits : AllDigits (c :: rest))
    {p : Power} {x : Int} (hp : p.value = x + rest.length) :
    (Numeral.ofPower hdigits p).value = Nat.ofDigitChars 10 (c :: rest) 0 * 10 ^ x := by
  have hrest : (if rest = [] then none else some rest).getD [] = rest := by
    split
    · next h => exact h.symm
    · rfl
  have hall : (Numeral.ofPower hdigits p).digits = c :: rest :=
    congrArg ([c] ++ ·) hrest
  have hexponent : (Numeral.ofPower hdigits p).exponent = x := by
    show p.value - (((if rest = [] then none else some rest).getD []).length : Nat) = x
    rw [hrest, hp]
    omega
  rw [Numeral.value, hall, hexponent]

end layouts

/-- **The text of a decimal is a numeral of its value**, and not of a bare integer. -/
theorem Notation.exists_numeral_text (style : Notation) (positional : Bool) (d : Decimal) :
    ∃ n : Numeral, n.chars = (style.text positional d).toList ∧ ¬n.IsWhole ∧ n.value = d.value := by
  have hdigits := allDigits_toString d.digits
  have hne := toString_toList_ne d.digits
  have hvalue : d.value = Nat.ofDigitChars 10 (toString d.digits).toList 0 * 10 ^ d.exponent := by
    rw [ofDigitChars_toString, Decimal.value]
  rw [hvalue]
  unfold Notation.text
  dsimp only
  generalize (toString d.digits).toList = digits at *
  split
  · split
    · next h =>
      refine ⟨Numeral.ofLarge hdigits d.exponent.toNat, ?_, ?_, ?_⟩
      · simp [Numeral.chars, Numeral.ofLarge, Numeral.point, Numeral.tail, toList_zeroRun]
      · simp [Numeral.IsWhole, Numeral.ofLarge]
      · rw [Numeral.value_ofLarge, Int.toNat_of_nonneg h]
    · split
      · refine ⟨Numeral.ofSplit hdigits hne ((d.exponent + digits.length - 1).toNat + 1), ?_, ?_,
          ?_⟩
        · simp [Numeral.chars, Numeral.ofSplit, Numeral.point, Numeral.tail]
        · simp [Numeral.IsWhole, Numeral.ofSplit]
        · exact Numeral.value_ofSplit hdigits hne (by omega) (by omega)
      · refine ⟨Numeral.ofSmall hdigits (-(d.exponent + digits.length - 1) - 1).toNat, ?_, ?_, ?_⟩
        · simp [Numeral.chars, Numeral.ofSmall, Numeral.point, Numeral.tail, toList_zeroRun]
        · simp [Numeral.IsWhole, Numeral.ofSmall]
        · exact Numeral.value_ofSmall hdigits (by omega)
  · obtain ⟨c, rest, rfl⟩ := List.exists_cons_of_ne_nil hne
    refine ⟨Numeral.ofPower hdigits
      (Power.ofInt style.exponentWidth (d.exponent + (c :: rest).length - 1)), ?_, ?_, ?_⟩
    · cases rest with
      | nil =>
        simp [Numeral.chars, Numeral.ofPower, Numeral.point, Numeral.tail, Power.chars, Power.ofInt]
        split <;> simp
      | cons c' rest =>
        simp [Numeral.chars, Numeral.ofPower, Numeral.point, Numeral.tail, Power.chars, Power.ofInt]
        split <;> simp
    · simp [Numeral.IsWhole, Numeral.ofPower]
    · refine Numeral.value_ofPower hdigits ?_
      rw [Power.value_ofInt, List.length_cons]
      push_cast
      ring

/-! ## What a numeral reads as -/

/-- A quotient rounds to a number of its sign, finite or not. -/
theorem parts_ofQuotient (negative : Bool) (num : Nat) {den : Nat} (hden : 0 < den) :
    (∃ m e, parts (ofQuotient negative num den) = .finite negative m e) ∨
      parts (ofQuotient negative num den) = .infinite negative := by
  cases hnearest : double.nearest? num den with
  | none =>
    right
    rw [ofQuotient, ofQuotient?, hnearest]
    exact parts_ofBits_infinityBits negative
  | some result =>
    left
    refine ⟨result.1, result.2, ?_⟩
    rw [ofQuotient, ofQuotient?, hnearest]
    exact parts_ofBits_bitsOf negative (double.canonical_of_nearest? (by decide) hden hnearest)

theorem Numeral.parts_read (n : Numeral) (negative : Bool) :
    (∃ m e, parts (n.read negative) = .finite negative m e) ∨
      parts (n.read negative) = .infinite negative := by
  unfold Numeral.read ofScientific
  dsimp only
  split
  · exact parts_ofQuotient negative 0 Nat.one_pos
  · split
    · exact parts_ofQuotient negative _ Nat.one_pos
    · exact parts_ofQuotient negative _ (Nat.pow_pos (by decide))
/-! ## Reading the text of a double -/

/-- The numeral of the two zeros. -/
def Numeral.zero : Numeral := Numeral.ofLarge (allDigits_zeros 1) 0

theorem Numeral.read_zero (negative : Bool) :
    Numeral.zero.read negative = Float.ofBits (double.bitsOf negative 0 (-1074)).toUInt64 := by
  have hmantissa : ofDigits (digitValues Numeral.zero.digits) = 0 := rfl
  have hnearest : double.nearest? 0 1 = some (0, -1074) := by decide
  unfold Numeral.read ofScientific
  rw [hmantissa]
  dsimp only
  rw [if_pos (by simp), ofQuotient, ofQuotient?, hnearest]
  rfl

theorem Numeral.read_of_holds {n : Numeral} {m : Nat} {e : Int} (hc : double.Canonical m e)
    (hm : 0 < m) (negative : Bool) (h : (double.interval m e).Holds e n.value) :
    n.read negative = Float.ofBits (double.bitsOf negative m e).toUInt64 := by
  refine ofScientific_of_holds hc hm negative ?_
  rw [ofDigits_digitValues]
  exact h

/-- **The text of a finite double is a numeral that is read as the double**, with its sign in
front. -/
theorem exists_numeral_floatText {x : Float} {negative : Bool} {m : Nat} {e : Int}
    (h : parts x = .finite negative m e) :
    ∃ n : Numeral, (floatText x).toList = n.signed negative ∧ ¬n.IsWhole ∧ n.read negative = x := by
  obtain ⟨hc, hbits⟩ := parts_eq_finite h
  have htext : (floatText x).toList = (if negative then "-" else "").toList ++ (if m = 0 then "0.0"
      else doubleNotation.text (doubleNotation.isPositional m e) (double.shortest m e)).toList := by
    rw [floatText, h, Format.text, String.toList_append]
  have hsigned : ∀ n : Numeral, n.signed negative = (if negative then "-" else "").toList ++
      n.chars := by
    intro n
    cases negative <;> rfl
  rw [htext]
  rcases Nat.eq_zero_or_pos m with rfl | hm
  · -- zero has one exponent only
    have he : e = -1074 := (canonical_double.mp hc).2.1.resolve_right (by decide)
    subst he
    refine ⟨Numeral.zero, ?_, ?_, ?_⟩
    · rw [hsigned, if_pos rfl]
      rfl
    · simp [Numeral.IsWhole, Numeral.zero, Numeral.ofLarge]
    · rw [Numeral.read_zero, hbits]
  · rw [if_neg hm.ne']
    obtain ⟨n, hchars, hwhole, hvalue⟩ := doubleNotation.exists_numeral_text
      (doubleNotation.isPositional m e) (double.shortest m e)
    refine ⟨n, ?_, hwhole, ?_⟩
    · rw [hsigned, hchars]
    · rw [Numeral.read_of_holds hc hm negative (hvalue ▸ shortest_holds hc hm), hbits]

/-- **Every double but the one that is no number reads back from its text**, and not as an
integer. -/
theorem readFloat?_floatText {x : Float} (h : parts x ≠ .nan) :
    readInt? (floatText x).toList = none ∧ readFloat? (floatText x).toList = some x := by
  cases hparts : parts x with
  | nan => exact absurd hparts h
  | infinite negative =>
    have htext : (floatText x).toList = (if negative then "-inf" else "inf").toList := by
      rw [floatText, hparts]
      rfl
    rw [htext, ← parts_eq_infinite hparts]
    cases negative <;> exact ⟨by decide, by decide⟩
  | finite negative m e =>
    obtain ⟨n, htext, hwhole, hread⟩ := exists_numeral_floatText hparts
    rw [htext, readFloat?_signed, hread]
    exact ⟨readInt?_signed_of_not_whole hwhole negative, rfl⟩

end Number
end LoopNest
