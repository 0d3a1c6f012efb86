import LoopNest.Proofs.Number.FloatText

/-!
# Doubles of the other sign

A minus in front of a double turns over the bit of its sign and keeps its mantissa and exponent.  A
numeral rounds to the same mantissa and exponent with either sign, so a negative double is the minus
of what its digits alone read as.

* `parts_neg`: the parts of a finite double with a minus in front.
* `Numeral.read_not`: the double that a numeral of the other sign reads as.
-/

namespace LoopNest
namespace Number

open Float.Model Float.Model.UnpackedFloat

/-- Two doubles whose patterns differ in the sign only. -/
theorem pack_neg {u : UnpackedFloat} (hu : u ≠ .notANumber) :
    ∃ s e m, UnpackedFloat.pack .binary64 u = packComponents .binary64 s e m ∧
      UnpackedFloat.pack .binary64 u.neg = packComponents .binary64 (-s) e m := by
  cases u with
  | notANumber => exact absurd rfl hu
  | infinity s => exact ⟨s, _, _, rfl, rfl⟩
  | zero s => exact ⟨s, _, _, rfl, rfl⟩
  | finite s m e hm =>
    simp only [UnpackedFloat.neg, UnpackedFloat.pack]
    split
    · exact ⟨s, _, _, rfl, rfl⟩
    · split <;> exact ⟨s, _, _, rfl, rfl⟩

theorem toBitVec_neg (s : Sign) : (-s).toBitVec.toNat = 1 - s.toBitVec.toNat := by
  cases s <;> rfl

/-- A minus turns over the highest bit of a finite double. -/
theorem toBits_neg {x : Float} {negative : Bool} {m : Nat} {e : Int}
    (h : parts x = .finite negative m e) :
    ∃ s low, s < 2 ∧ low < 2 ^ 63 ∧ x.toBits.toNat = s * 2 ^ 63 + low ∧
      (-x).toBits.toNat = (1 - s) * 2 ^ 63 + low := by
  have hpack := pack_unpack x.toBits.toBitVec x.toModel.valid.eq_packedNaN
  have hneg : (-x).toBits.toBitVec =
      UnpackedFloat.pack .binary64 (UnpackedFloat.unpack .binary64 x.toBits.toBitVec).neg := rfl
  have hnumber : UnpackedFloat.unpack .binary64 x.toBits.toBitVec ≠ .notANumber := by
    intro hnan
    rw [hnan] at hpack
    have hparts : parts x = double.partsOf (UnpackedFloat.pack .binary64 .notANumber).toNat := by
      rw [hpack]
      rfl
    have hbits : double.partsOf (UnpackedFloat.pack .binary64 .notANumber).toNat = .nan := by decide
    rw [h, hbits] at hparts
    cases hparts
  obtain ⟨s, field, fraction, hs, hs'⟩ := pack_neg hnumber
  rw [hpack] at hs
  rw [hs'] at hneg
  have hfield : field.toNat < 2 ^ 11 := field.isLt
  have hfraction : fraction.toNat < 2 ^ 52 := fraction.isLt
  refine ⟨s.toBitVec.toNat, field.toNat * 2 ^ 52 + fraction.toNat, s.toBitVec.isLt, by omega, ?_,
    ?_⟩
  · have hx := congrArg BitVec.toNat hs
    rw [toNat_packComponents, Nat.add_assoc] at hx
    exact hx
  · have hx := congrArg BitVec.toNat hneg
    rw [toNat_packComponents, toBitVec_neg, Nat.add_assoc] at hx
    exact hx

/-- **A minus keeps the mantissa and the exponent of a finite double.** -/
theorem parts_neg {x : Float} {negative : Bool} {m : Nat} {e : Int}
    (h : parts x = .finite negative m e) :
    parts (-x) = .finite (!negative) m e := by
  obtain ⟨s, low, hs, hlow, hbits, hneg⟩ := toBits_neg h
  obtain ⟨hcanonical, hsum⟩ := bitsOf_of_partsOf x.toBits.toNat_lt h
  have hsum' : double.bitsOf (!negative) m e = (-x).toBits.toNat := by
    rw [bitsOf_double] at hsum ⊢
    rw [canonical_double] at hcanonical
    rw [hneg]
    cases negative
      <;> simp only [Bool.not_true, Bool.not_false, if_true, Bool.false_eq_true, if_false] at hsum ⊢
    all_goals omega
  rw [parts, ← hsum']
  exact (partsOf_bitsOf (!negative) hcanonical).2

theorem eq_of_parts {x y : Float} {negative : Bool} {m : Nat} {e : Int}
    (hx : parts x = .finite negative m e) (hy : parts y = .finite negative m e) : x = y :=
  (parts_eq_finite hx).2.symm.trans (parts_eq_finite hy).2

/-! ## Numerals of the other sign -/

theorem parts_ofQuotient_not {negative : Bool} {num den : Nat} (hden : 0 < den) {m : Nat} {e : Int}
    (h : parts (ofQuotient negative num den) = .finite negative m e) :
    parts (ofQuotient (!negative) num den) = .finite (!negative) m e := by
  cases hnearest : double.nearest? num den with
  | none =>
    rw [ofQuotient, ofQuotient?, hnearest] at h
    cases (parts_ofBits_infinityBits negative).symm.trans h
  | some result =>
    have hcanonical := double.canonical_of_nearest? (by decide) hden hnearest
    rw [ofQuotient, ofQuotient?, hnearest] at h ⊢
    cases (parts_ofBits_bitsOf negative hcanonical).symm.trans h
    exact parts_ofBits_bitsOf (!negative) hcanonical

/-- **A numeral of the other sign is read as the minus of the double.** -/
theorem Numeral.read_not {n : Numeral} {negative : Bool} {m : Nat} {e : Int}
    (h : parts (n.read negative) = .finite negative m e) :
    n.read (!negative) = -n.read negative := by
  refine eq_of_parts ?_ (parts_neg h)
  unfold Numeral.read ofScientific at h ⊢
  dsimp only at h ⊢
  split at h
  · next hzero =>
    rw [if_pos hzero]
    exact parts_ofQuotient_not Nat.one_pos h
  · next hzero =>
    rw [if_neg hzero]
    split at h
    · next hlarge =>
      rw [if_pos hlarge]
      exact parts_ofQuotient_not Nat.one_pos h
    · next hlarge =>
      rw [if_neg hlarge]
      exact parts_ofQuotient_not (Nat.pow_pos (by decide)) h

end Number
end LoopNest
