import LoopNest.Proofs.Number.Nearest
import Mathlib

/-!
# Doubles and their bit patterns

A double is its bit pattern, with one pattern for everything that is no number.  So whatever is put
together from the bits of a double is that double, and a pattern that stands for a number comes back
unchanged.  The three fields of a pattern are the sign, the exponent and the fraction; taking a
double apart reads them, and the mantissa and exponent that are found give the pattern again.

* `toBits_ofBits`: the pattern of a number is that of its double.
* `parts_eq_finite`, `parts_eq_infinite`: the parts of a double determine it.
* `parts_ofBits_bitsOf`: the double with given parts.
-/

namespace LoopNest
namespace Number

open Float.Model Float.Model.UnpackedFloat

/-! ## The fields of a pattern -/

section Fields

variable (b : BitVec Format.binary64.numBits)

theorem toNat_unpackMantissa : (unpackMantissa b).toNat = b.toNat % 2 ^ 52 := by
  simp [unpackMantissa, BitVec.extractLsb, BitVec.extractLsb']

theorem toNat_unpackExponent : (unpackExponent b).toNat = b.toNat / 2 ^ 52 % 2 ^ 11 := by
  simp [unpackExponent, BitVec.extractLsb, BitVec.extractLsb', Nat.shiftRight_eq_div_pow]

theorem toNat_unpackSign : (unpackSign b).toNat = b.toNat / 2 ^ 63 % 2 := by
  simp [unpackSign, BitVec.extractLsb, BitVec.extractLsb', Nat.shiftRight_eq_div_pow]

theorem toNat_packComponents (s : Sign) (e : BitVec Format.binary64.exponentBits)
    (m : BitVec Format.binary64.mantissaBitsWithoutImplicit) :
    (packComponents .binary64 s e m).toNat =
      s.toBitVec.toNat * 2 ^ 63 + e.toNat * 2 ^ 52 + m.toNat := by
  unfold packComponents
  rw [BitVec.toNat_append, BitVec.toNat_append, ← Nat.shiftLeft_add_eq_or_of_lt m.isLt,
    ← Nat.shiftLeft_add_eq_or_of_lt e.isLt]
  simp only [Nat.shiftLeft_eq]
  ring

/-- The three fields, put side by side, are the pattern. -/
theorem packComponents_eq {e : BitVec Format.binary64.exponentBits}
    {m : BitVec Format.binary64.mantissaBitsWithoutImplicit} (he : unpackExponent b = e)
    (hm : unpackMantissa b = m) :
    packComponents .binary64 (Sign.ofBitVec (unpackSign b)) e m = b := by
  subst he hm
  apply BitVec.eq_of_toNat_eq
  rw [toNat_packComponents, Sign.toBitVec_ofBitVec, toNat_unpackSign, toNat_unpackExponent,
    toNat_unpackMantissa]
  have : b.toNat < 2 ^ 64 := b.isLt
  omega

/-- The mantissa with its implicit first bit. -/
theorem toNat_implicit (m : BitVec 52) : (1#1 ++ m).toNat = 2 ^ 52 + m.toNat := by
  rw [BitVec.toNat_append, ← Nat.shiftLeft_add_eq_or_of_lt m.isLt]
  simp [Nat.shiftLeft_eq]

theorem log2_implicit (m : BitVec 52) : (1#1 ++ m).toNat.log2 = 52 := by
  have := m.isLt
  rw [Nat.log2_eq_iff (by rw [toNat_implicit]; omega), toNat_implicit]
  omega

/-- A pattern that stands for a number, or the one for everything else, is kept. -/
theorem pack_unpack (h : unpackExponent b = -1#11 → unpackMantissa b ≠ 0#52 →
    b = packedNaN .binary64) :
    UnpackedFloat.pack .binary64 (UnpackedFloat.unpack .binary64 b) = b := by
  have hfraction := (unpackMantissa b).isLt
  have hlength : Format.binary64.mantissaBits = 53 := rfl
  have hwidth : 2 ^ Format.binary64.exponentBits = 2 ^ 11 := rfl
  rw [UnpackedFloat.unpack]
  split
  next hexponent =>
    split
    next hmantissa => exact packComponents_eq b hexponent hmantissa
    next hmantissa => exact (h hexponent hmantissa).symm
  next hfinite =>
    split
    next hexponent =>
      split
      next hmantissa => exact packComponents_eq b hexponent hmantissa
      next hmantissa =>
        -- a short mantissa at the least exponent
        have hlog : (unpackMantissa b).toNat.log2 < 52 := by
          rw [Nat.log2_lt]
          · exact hfraction
          · exact fun h => hmantissa (BitVec.eq_of_toNat_eq h)
        have hfield : ((unpackExponent b).toNat : Int)
            - ((Format.binary64.exponentBias : Nat)
              + (Format.binary64.mantissaBitsWithoutImplicit : Nat))
            + 1 + (Format.binary64.exponentBias : Nat)
            + (Format.binary64.mantissaBitsWithoutImplicit : Nat) = 1 := by
          rw [hexponent]
          rfl
        rw [UnpackedFloat.pack]
        simp only [hfield]
        rw [if_neg (by decide), hlength, if_neg (by omega)]
        refine packComponents_eq b hexponent ?_
        rw [BitVec.ofNat_toNat, BitVec.setWidth_eq]
    next hexponent =>
      have hone : (unpackExponent b).toNat ≠ 2 ^ 11 - 1 := fun h =>
        hfinite (BitVec.eq_of_toNat_eq h)
      have hlt : (unpackExponent b).toNat < 2 ^ 11 := (unpackExponent b).isLt
      have hfield : (((unpackExponent b).toNat : Int)
            - ((Format.binary64.exponentBias : Nat)
              + (Format.binary64.mantissaBitsWithoutImplicit : Nat))
            + (Format.binary64.exponentBias : Nat)
            + (Format.binary64.mantissaBitsWithoutImplicit : Nat)).toNat =
          (unpackExponent b).toNat := by
        omega
      rw [UnpackedFloat.pack]
      simp only [hfield]
      rw [hwidth, if_neg (by omega), log2_implicit, hlength, if_pos rfl]
      refine packComponents_eq b ?_ ?_
      · rw [BitVec.ofNat_toNat, BitVec.setWidth_eq]
      · apply BitVec.eq_of_toNat_eq
        rw [toNat_implicit, BitVec.toNat_ofNat]
        show _ = (2 ^ 52 + (unpackMantissa b).toNat) % 2 ^ 52
        rw [Nat.add_mod_left, Nat.mod_eq_of_lt hfraction]

end Fields

/-! ## Patterns and doubles -/

theorem toBits_eq (b : UInt64) :
    (Float.ofBits b).toBits =
      UInt64.ofBitVec (UnpackedFloat.pack .binary64 (UnpackedFloat.unpack .binary64 b.toBitVec)) :=
        rfl

/-- The pattern of a number is the pattern of a double. -/
theorem toBits_ofBits {b : UInt64} (h : double.partsOf b.toNat ≠ .nan) :
    (Float.ofBits b).toBits = b := by
  rw [toBits_eq, pack_unpack]
  intro hexponent hmantissa
  refine absurd ?_ h
  have hfield : b.toNat / 2 ^ 52 % 2 ^ 11 = 2 ^ 11 - 1 := by
    have := toNat_unpackExponent b.toBitVec
    rw [hexponent] at this
    exact this.symm
  have hfraction : b.toNat % 2 ^ 52 ≠ 0 := by
    intro h
    exact hmantissa (BitVec.eq_of_toNat_eq (toNat_unpackMantissa b.toBitVec ▸ h))
  show (if b.toNat / 2 ^ 52 % 2 ^ 11 = 2 ^ 11 - 1 then
    if b.toNat % 2 ^ 52 = 0 then Parts.infinite _ else .nan else _) = .nan
  rw [if_pos hfield, if_neg hfraction]

/-! ## The parts of a pattern -/

theorem partsOf_double (bits : Nat) :
    double.partsOf bits =
      if bits / 2 ^ 52 % 2 ^ 11 = 2047 then
        if bits % 2 ^ 52 = 0 then .infinite (bits / 2 ^ 63 % 2 = 1) else .nan
      else if bits / 2 ^ 52 % 2 ^ 11 = 0 then
        .finite (bits / 2 ^ 63 % 2 = 1) (bits % 2 ^ 52) (-1074)
      else .finite (bits / 2 ^ 63 % 2 = 1) (2 ^ 52 + bits % 2 ^ 52)
        (-1074 + ((bits / 2 ^ 52 % 2 ^ 11 : Nat) - 1)) := rfl

theorem bitsOf_double (negative : Bool) (m : Nat) (e : Int) :
    double.bitsOf negative m e =
      (if negative then 2 ^ 63 else 0) + (e + 1074).toNat * 2 ^ 52 + m := by
  show _ + (e - -1074).toNat * _ + m = _
  rw [sub_neg_eq_add]
  rfl

theorem infinityBits_double (negative : Bool) :
    double.infinityBits negative = (if negative then 2 ^ 63 else 0) + 2047 * 2 ^ 52 := rfl

theorem canonical_double {m : Nat} {e : Int} :
    double.Canonical m e ↔ m < 2 ^ 53 ∧ (e = -1074 ∨ 2 ^ 52 ≤ m) ∧ -1074 ≤ e ∧ e ≤ 971 :=
  ⟨fun h => ⟨h.lt, h.full, h.least, h.greatest⟩, fun h => ⟨h.1, h.2.1, h.2.2.1, h.2.2.2⟩⟩

/-- A pattern with a mantissa and an exponent is made of them again. -/
theorem bitsOf_of_partsOf {bits : Nat} (hlt : bits < 2 ^ 64) {negative : Bool} {m : Nat} {e : Int}
    (h : double.partsOf bits = .finite negative m e) :
    double.Canonical m e ∧ double.bitsOf negative m e = bits := by
  rw [partsOf_double] at h
  rw [canonical_double, bitsOf_double]
  split at h
  · split at h <;> cases h
  next hfield =>
    have hsign : (if decide (bits / 2 ^ 63 % 2 = 1) = true then 2 ^ 63 else 0) =
        bits / 2 ^ 63 * 2 ^ 63 := by
      split <;> simp only [decide_eq_true_eq] at * <;> omega
    split at h
    all_goals
      cases h
      rw [hsign]
      omega

/-- A mantissa and an exponent make a pattern that has them. -/
theorem partsOf_bitsOf (negative : Bool) {m : Nat} {e : Int} (h : double.Canonical m e) :
    double.bitsOf negative m e < 2 ^ 64 ∧
      double.partsOf (double.bitsOf negative m e) = .finite negative m e := by
  rw [canonical_double] at h
  obtain ⟨s, hs, hbits, hsign⟩ : ∃ s, s < 2 ∧
      double.bitsOf negative m e = s * 2 ^ 63 + (e + 1074).toNat * 2 ^ 52 + m ∧
        negative = decide (s = 1) := by
    rw [bitsOf_double]
    cases negative
    · exact ⟨0, by simp⟩
    · exact ⟨1, by simp⟩
  generalize double.bitsOf negative m e = bits at *
  subst hsign
  refine ⟨by omega, ?_⟩
  have hhigh : bits / 2 ^ 63 % 2 = s := by omega
  rw [partsOf_double, hhigh, if_neg (by omega)]
  rcases Nat.lt_or_ge m (2 ^ 52) with hm | hm
  · rw [if_pos (by omega), show bits % 2 ^ 52 = m by omega, show e = -1074 by omega]
  · rw [if_neg (by omega), show 2 ^ 52 + bits % 2 ^ 52 = m by omega,
      show -1074 + (((bits / 2 ^ 52 % 2 ^ 11 : Nat) : Int) - 1) = e by omega]

theorem bits_of_partsOf_infinite {bits : Nat} (hlt : bits < 2 ^ 64) {negative : Bool}
    (h : double.partsOf bits = .infinite negative) : double.infinityBits negative = bits := by
  rw [partsOf_double] at h
  rw [infinityBits_double]
  split at h
  next hfield =>
    split at h
    · cases h
      split <;> simp only [decide_eq_true_eq] at * <;> omega
    · cases h
  · split at h <;> cases h

/-! ## The parts of a double -/

theorem toUInt64_toNat (x : UInt64) : x.toNat.toUInt64 = x := by
  simp

/-- The parts of a finite double give the double. -/
theorem parts_eq_finite {x : Float} {negative : Bool} {m : Nat} {e : Int}
    (h : parts x = .finite negative m e) :
    double.Canonical m e ∧ Float.ofBits (double.bitsOf negative m e).toUInt64 = x := by
  obtain ⟨hc, hbits⟩ := bitsOf_of_partsOf x.toBits.toNat_lt h
  exact ⟨hc, by rw [hbits, toUInt64_toNat, Float.ofBits_toBits]⟩

/-- There is one infinity of each sign. -/
theorem parts_eq_infinite {x : Float} {negative : Bool} (h : parts x = .infinite negative) :
    Float.ofBits (double.infinityBits negative).toUInt64 = x := by
  rw [bits_of_partsOf_infinite x.toBits.toNat_lt h, toUInt64_toNat, Float.ofBits_toBits]

/-- The double made of a mantissa and an exponent has them as its parts. -/
theorem parts_ofBits_bitsOf (negative : Bool) {m : Nat} {e : Int} (h : double.Canonical m e) :
    parts (Float.ofBits (double.bitsOf negative m e).toUInt64) = .finite negative m e := by
  obtain ⟨hlt, hparts⟩ := partsOf_bitsOf negative h
  have hnat : (double.bitsOf negative m e).toUInt64.toNat = double.bitsOf negative m e := by
    simpa using hlt
  rw [parts, toBits_ofBits, hnat, hparts]
  rw [hnat, hparts]
  exact Parts.noConfusion

theorem parts_ofBits_infinityBits (negative : Bool) :
    parts (Float.ofBits (double.infinityBits negative).toUInt64) = .infinite negative := by
  cases negative <;> decide

end Number
end LoopNest
