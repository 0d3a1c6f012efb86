import LoopNest.Number.Reader
import LoopNest.Proofs.Number.Bits

/-!
# The shortest decimal reads back

A decimal that lies in the interval of a double is read as that double, whichever way its digits are
split between the digits and the exponent.  The search for the shortest one goes down the powers of
ten and takes the first whose multiples meet the interval.  It cannot come to its end without a
result: a power of ten below half a unit of the last bit has a multiple in the upper half of every
interval, and twenty-four powers reach that far, because a mantissa has at most sixteen decimal
digits.

* `Decimal.value`: what a decimal stands for.
* `shortest_holds`: the decimal that is found lies in the interval.
* `ofScientific_of_holds`: digits and an exponent that lie in the interval of a double are read as
  it.
-/

namespace LoopNest
namespace Number

/-- The rational that a decimal stands for. -/
def Decimal.value (d : Decimal) : ℚ := d.digits * 10 ^ d.exponent

/-! ## Powers as integers -/

theorem zpow_mul_pow_toNat {a : ℚ} (ha : a ≠ 0) (z : Int) :
    a ^ z * a ^ (-z).toNat = a ^ z.toNat := by
  rw [← zpow_natCast, ← zpow_natCast, ← zpow_add₀ ha]
  congr 1
  omega

/-- A multiple of a power of ten and one of a quarter of the last bit, in a common unit. -/
theorem exists_unit (power exponent : Int) : ∃ c : ℚ, 0 < c ∧
    ((units power exponent).1 : ℚ) = 10 ^ power * c ∧
      ((units power exponent).2 : ℚ) = 2 ^ (exponent - 2) * c := by
  refine ⟨10 ^ (-power).toNat * 2 ^ (-(exponent - 2)).toNat, by positivity, ?_, ?_⟩
  · rw [← mul_assoc, zpow_mul_pow_toNat (by norm_num)]
    simp [units]
  · rw [mul_left_comm, zpow_mul_pow_toNat (by norm_num)]
    simp [units, mul_comm]

/-! ## One grid -/

namespace Interval

variable {i : Interval} {e p : Int}

/-- The test for a multiple of a power of ten is that the interval holds it. -/
theorem inside_iff (d : Nat) :
    (if i.closed then decide (i.low * (units p e).2 ≤ d * (units p e).1) &&
        decide (d * (units p e).1 ≤ i.high * (units p e).2)
      else decide (i.low * (units p e).2 < d * (units p e).1) &&
        decide (d * (units p e).1 < i.high * (units p e).2)) = true ↔
      i.Holds e (d * 10 ^ p) := by
  obtain ⟨c, hc, hten, htwo⟩ := exists_unit p e
  have hle : ∀ a b : Nat, a * (units p e).2 ≤ b * (units p e).1 ↔
      (a * 2 ^ (e - 2) : ℚ) ≤ b * 10 ^ p := by
    intro a b
    rw [← mul_le_mul_iff_left₀ hc, mul_assoc, mul_assoc, ← hten, ← htwo]
    exact_mod_cast Iff.rfl
  have hge : ∀ a b : Nat, b * (units p e).1 ≤ a * (units p e).2 ↔
      (b * 10 ^ p : ℚ) ≤ a * 2 ^ (e - 2) := by
    intro a b
    rw [← mul_le_mul_iff_left₀ hc, mul_assoc, mul_assoc, ← hten, ← htwo]
    exact_mod_cast Iff.rfl
  unfold Holds
  split
  · rw [Bool.and_eq_true, decide_eq_true_eq, decide_eq_true_eq, hle, hge]
  · rw [Bool.and_eq_true, decide_eq_true_eq, decide_eq_true_eq, ← not_le, ← not_le, hge, hle,
      not_le, not_le]

/-- What is found on a grid lies in the interval. -/
theorem holds_of_onGrid? {d : Decimal} (h : i.onGrid? e p = some d) : i.Holds e d.value := by
  have hinside := @inside_iff i e p
  unfold onGrid? at h
  dsimp only at h
  split at h
  · cases h
  next hbelow habove =>
    cases h
    exact (hinside _).mp hbelow
  next hbelow habove =>
    cases h
    exact (hinside _).mp habove
  next hbelow habove =>
    split at h
    · cases h
      exact (hinside _).mp hbelow
    · split at h
      · cases h
        exact (hinside _).mp habove
      · cases h
        -- the even one of the two
        rcases Nat.mod_two_eq_zero_or_one (i.middle * (units p e).2 / (units p e).1) with heven
          | hodd
        · rw [heven]
          exact (hinside _).mp hbelow
        · rw [hodd]
          exact (hinside _).mp habove

/-- A grid that is finer than the upper half of an interval has a point there. -/
theorem exists_onGrid? (hlow : i.low ≤ i.middle) (hfine : i.middle * 2 ^ (e - 2) + 10 ^ p <
    (i.high * 2 ^ (e - 2) : ℚ)) : ∃ d, i.onGrid? e p = some d := by
  have hten : 0 < (units p e).1 :=
    Nat.mul_pos (Nat.pow_pos (by decide)) (Nat.pow_pos (by decide))
  obtain ⟨c, hc, hten', htwo⟩ := exists_unit p e
  have hmiddle : (i.middle * 2 ^ (e - 2) : ℚ) * c = (i.middle * (units p e).2 : Nat) := by
    push_cast
    rw [htwo]
    ring
  have habove : i.Holds e ((i.middle * (units p e).2 / (units p e).1 + 1 : Nat) * 10 ^ p) := by
    set below := i.middle * (units p e).2 / (units p e).1 with hbelow
    have hgt : (i.middle * 2 ^ (e - 2) : ℚ) < (below + 1 : Nat) * 10 ^ p := by
      rw [← mul_lt_mul_iff_left₀ hc, hmiddle, mul_assoc, ← hten']
      exact_mod_cast Nat.lt_mul_of_div_lt (Nat.lt_succ_self _) hten
    have hle : ((below : Nat) * 10 ^ p : ℚ) ≤ i.middle * 2 ^ (e - 2) := by
      rw [← mul_le_mul_iff_left₀ hc, hmiddle, mul_assoc, ← hten']
      exact_mod_cast Nat.div_mul_le_self _ _
    have hlow : (i.low * 2 ^ (e - 2) : ℚ) ≤ i.middle * 2 ^ (e - 2) := by gcongr
    have hhigh : ((below + 1 : Nat) * 10 ^ p : ℚ) < i.high * 2 ^ (e - 2) := by
      push_cast
      linarith
    unfold Holds
    split
    · exact ⟨(hlow.trans_lt hgt).le, hhigh.le⟩
    · exact ⟨hlow.trans_lt hgt, hhigh⟩
  have hinside := inside_iff _ |>.mpr habove
  unfold onGrid?
  dsimp only
  rw [hinside]
  split
  · contradiction
  · exact ⟨_, rfl⟩
  · exact ⟨_, rfl⟩
  · split
    · exact ⟨_, rfl⟩
    · split <;> exact ⟨_, rfl⟩

end Interval
/-! ## The search -/

/-- A power of ten against a power of two, by `10 ^ 3 ≤ 2 ^ 10` and `2 ^ 33 ≤ 10 ^ 10`. -/
theorem ten_zpow_le_two_zpow {t s : Int} (hpos : 0 ≤ t → 10 * t ≤ 3 * s)
    (hneg : t ≤ 0 → 33 * t ≤ 10 * s) : (10 : ℚ) ^ t ≤ 2 ^ s := by
  rcases le_total 0 t with ht | ht
  · obtain ⟨n, rfl⟩ := Int.eq_ofNat_of_zero_le ht
    refine le_of_pow_le_pow_left₀ (by decide : 3 ≠ 0) (by positivity) ?_
    calc ((10 : ℚ) ^ (n : Int)) ^ 3 = (10 ^ 3) ^ n := by rw [zpow_natCast, pow_right_comm]
      _ ≤ (2 ^ 10) ^ n := by gcongr; norm_num
      _ = 2 ^ (10 * n : Int) := by rw [zpow_mul, zpow_natCast, zpow_ofNat]
      _ ≤ 2 ^ (3 * s) := zpow_le_zpow_right₀ one_le_two (hpos ht)
      _ = (2 ^ s) ^ 3 := by rw [← zpow_natCast, ← zpow_mul, mul_comm]; rfl
  · obtain ⟨n, rfl⟩ : ∃ n : Nat, t = -n := ⟨(-t).toNat, by omega⟩
    refine le_of_pow_le_pow_left₀ (by decide : 10 ≠ 0) (by positivity) ?_
    calc ((10 : ℚ) ^ (-n : Int)) ^ 10 = ((10 ^ 10) ^ n)⁻¹ := by
          rw [zpow_neg, inv_pow, zpow_natCast, pow_right_comm]
      _ ≤ ((2 ^ 33) ^ n)⁻¹ := by gcongr; norm_num
      _ = 2 ^ (33 * -n : Int) := by
          rw [mul_neg, zpow_neg, zpow_mul, zpow_natCast, zpow_ofNat]
      _ ≤ 2 ^ (10 * s) := zpow_le_zpow_right₀ one_le_two (hneg ht)
      _ = (2 ^ s) ^ 10 := by rw [← zpow_natCast, ← zpow_mul, mul_comm]; rfl

/-- The last power of ten that is tried lies below a quarter of the unit of the last bit. -/
theorem ten_zpow_last_le {m : Nat} {e : Int} (hc : double.Canonical m e) (hm : 0 < m) :
    (10 : ℚ) ^ (powerAbove m e - 23) ≤ 2 ^ (e - 2) := by
  obtain ⟨hlt, -, hleast, hgreatest⟩ := canonical_double.mp hc
  have hlog : m.log2 ≤ 52 := by
    have := (Nat.log2_lt hm.ne').mpr hlt
    omega
  rw [powerAbove, Int.fdiv_eq_ediv_of_nonneg _ (by decide)]
  refine ten_zpow_le_two_zpow ?_ ?_ <;> intro h <;> omega

theorem lt_interval_high (m : Nat) (e : Int) :
    ((double.interval m e).middle * 2 ^ (e - 2) + 2 ^ (e - 2) : ℚ) <
      (double.interval m e).high * 2 ^ (e - 2) := by
  have hpos : (0 : ℚ) < 2 ^ (e - 2) := by positivity
  simp only [Format.interval]
  push_cast
  linarith

/-- **The decimal that is found lies in the interval of its double.** -/
theorem shortest_holds {m : Nat} {e : Int} (hc : double.Canonical m e) (hm : 0 < m) :
    (double.interval m e).Holds e (double.shortest m e).value := by
  unfold Format.shortest
  dsimp only
  cases h : (List.range 24).findSome? fun (k : Nat) =>
      (double.interval m e).onGrid? e (powerAbove m e - k) with
  | some d =>
    obtain ⟨k, -, hk⟩ := List.exists_of_findSome?_eq_some h
    exact Interval.holds_of_onGrid? hk
  | none =>
    rw [List.findSome?_eq_none_iff] at h
    have hlow : (double.interval m e).low ≤ (double.interval m e).middle := by
      unfold Format.interval
      dsimp only
      split <;> omega
    have hfine : ((double.interval m e).middle * 2 ^ (e - 2) + 10 ^ (powerAbove m e - 23) : ℚ) <
        (double.interval m e).high * 2 ^ (e - 2) := by
      linarith [lt_interval_high m e, ten_zpow_last_le hc hm]
    obtain ⟨d, hd⟩ := Interval.exists_onGrid? hlow hfine
    exact absurd (h 23 (by decide)) (by simp [hd])

/-! ## Reading digits and an exponent -/

section Reading

variable {m : Nat} {e : Int} {q : ℚ}

/-- An interval lies between the least and the largest powers of ten that are told apart. -/
theorem bounds_of_holds (hc : double.Canonical m e) (hm : 0 < m)
    (h : (double.interval m e).Holds e q) : (10 : ℚ) ^ (-400 : Int) ≤ q ∧ q < 10 ^ (400 : Int) := by
  obtain ⟨hlt, -, hleast, hgreatest⟩ := canonical_double.mp hc
  have hends : ((double.interval m e).low : ℚ) * 2 ^ (e - 2) ≤ q ∧
      q ≤ (double.interval m e).high * 2 ^ (e - 2) := by
    unfold Interval.Holds at h
    split at h
    · exact h
    · exact ⟨h.1.le, h.2.le⟩
  constructor
  · have hlow : 1 ≤ (double.interval m e).low := by
      unfold Format.interval
      dsimp only
      split <;> omega
    calc (10 : ℚ) ^ (-400 : Int) ≤ 2 ^ (e - 2) := ten_zpow_le_two_zpow (by omega) (by omega)
      _ ≤ (double.interval m e).low * 2 ^ (e - 2) := by
          have : (1 : ℚ) ≤ (double.interval m e).low := by exact_mod_cast hlow
          exact le_mul_of_one_le_left (by positivity) this
      _ ≤ q := hends.1
  · have hhigh : (double.interval m e).high ≤ 2 ^ 55 := by
      show 4 * m + 2 ≤ 2 ^ 55
      omega
    calc q ≤ (double.interval m e).high * 2 ^ (e - 2) := hends.2
      _ ≤ (2 ^ 55 : Nat) * 2 ^ (e - 2) := by
          gcongr
      _ = 2 ^ (55 + (e - 2)) := by rw [zpow_add₀ two_ne_zero]; norm_cast
      _ ≤ 2 ^ (1024 : Int) := zpow_le_zpow_right₀ one_le_two (by omega)
      _ ≤ 2 ^ (3 * 400 : Int) := zpow_le_zpow_right₀ one_le_two (by decide)
      _ = (2 ^ 3) ^ 400 := by rw [zpow_mul]; rfl
      _ < 10 ^ 400 := by gcongr; norm_num

theorem length_toString_le_iff {n k : Nat} (hk : 0 < k) : (toString n).length ≤ k ↔ n < 10 ^ k := by
  rw [Nat.toString_eq_ofList_toDigits, String.length_ofList]
  exact Nat.length_toDigits_le_iff (by decide) hk

/-- The number of digits bounds a number on both sides. -/
theorem toString_bounds {n : Nat} (hn : 0 < n) :
    10 ^ ((toString n).length - 1) ≤ n ∧ n < 10 ^ (toString n).length := by
  have hpos : 0 < (toString n).length := by
    rw [Nat.toString_eq_ofList_toDigits, String.length_ofList]
    exact Nat.length_toDigits_pos
  refine ⟨?_, (length_toString_le_iff hpos).mp le_rfl⟩
  rcases Nat.eq_zero_or_pos ((toString n).length - 1) with h | h
  · rw [h]
    exact hn
  · by_contra hlt
    have := (length_toString_le_iff h).mpr (not_le.mp hlt)
    omega

/-- **Digits and an exponent that lie in the interval of a double are read as that double.** -/
theorem ofScientific_of_holds (hc : double.Canonical m e) (hm : 0 < m) (negative : Bool)
    {digits : List Nat} {x : Int}
    (h : (double.interval m e).Holds e (ofDigits digits * 10 ^ x)) :
    ofScientific negative digits x = Float.ofBits (double.bitsOf negative m e).toUInt64 := by
  obtain ⟨hlow, hhigh⟩ := bounds_of_holds hc hm h
  unfold ofScientific
  dsimp only
  generalize ofDigits digits = n at *
  have hpos : 0 < n := by
    by_contra hzero
    rw [Nat.eq_zero_of_not_pos hzero, Nat.cast_zero, zero_mul] at hlow
    exact absurd hlow (not_le.mpr (by positivity))
  obtain ⟨hfew, hmany⟩ := toString_bounds hpos
  have hlength : 0 < (toString n).length := by
    by_contra hzero
    rw [Nat.eq_zero_of_not_pos hzero] at hmany
    omega
  have hten : (0 : ℚ) < 10 ^ x := by positivity
  have habove : (-400 : Int) < (toString n).length + x := by
    refine (zpow_lt_zpow_iff_right₀ (by norm_num : (1 : ℚ) < 10)).mp (hlow.trans_lt ?_)
    rw [zpow_add₀ (by norm_num), zpow_natCast]
    gcongr
    exact_mod_cast hmany
  have hbelow : ((toString n).length : Int) - 1 + x < 400 := by
    refine (zpow_lt_zpow_iff_right₀ (by norm_num : (1 : ℚ) < 10)).mp (hhigh.trans_le' ?_)
    rw [zpow_add₀ (by norm_num), ← Nat.cast_one, ← Nat.cast_sub hlength, zpow_natCast]
    gcongr
    exact_mod_cast hfew
  rw [if_neg (by rw [Bool.or_eq_true, decide_eq_true_eq, decide_eq_true_eq]; omega),
    if_neg (by omega), Nat.pow_eq, Nat.pow_eq]
  have hquotient : ((n * 10 ^ x.toNat : Nat) : ℚ) / (10 ^ (-x).toNat : Nat) = n * 10 ^ x := by
    rw [div_eq_iff (by simp)]
    push_cast
    rw [mul_assoc, zpow_mul_pow_toNat (by norm_num)]
  rw [← hquotient] at h
  have hnearest := Format.nearest?_of_holds hc hm (Nat.mul_pos hpos (Nat.pow_pos (by decide)))
    (Nat.pow_pos (by decide)) h
  rw [ofQuotient, ofQuotient?, hnearest]
  rfl

end Reading
end Number
end LoopNest
