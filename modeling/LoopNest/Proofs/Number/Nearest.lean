import LoopNest.Number.Shortest
import Mathlib.Algebra.Order.Field.Power
import Mathlib.Algebra.Order.Field.Rat
import Mathlib.Data.Rat.Cast.Order
import Mathlib.Tactic.FieldSimp
import Mathlib.Tactic.Linarith
import Mathlib.Tactic.Positivity
import Mathlib.Tactic.Ring

/-!
# Rounding to the nearest number of a format

A quotient of integers is rounded in two steps: first the exponent at which it has a mantissa of
full length, then the integer nearest to it at that exponent.  The reals that end up at one number
are an interval around it, and this module proves that rounding does what the interval says.

## Where the two steps do not meet

The exponent is chosen before the mantissa is rounded.  Just below a power of two the quotient
belongs to the smaller exponent, and rounding its mantissa up leaves the format: the result is then
the least mantissa at the next exponent.  There the interval of the power of two is narrower on its
lower side, because the numbers below it lie closer.  At the least exponent nothing of this happens:
mantissas may be short there.

* `Near`: nearest integer, a tie going to the even one; `roundQuotient` finds it.
* `Format.Canonical`: the mantissas and exponents that a format has.
* `Format.nearest?_of_holds`: every quotient in the interval of a number rounds to that number.
* `Format.canonical_of_nearest?`: a quotient rounds to numbers of the format only.
-/

namespace LoopNest
namespace Number

/-! ## Scaling -/

theorem snd_scale_pos {num den : Nat} (hden : 0 < den) (exponent : Int) :
    0 < (scale num den exponent).2 := by
  unfold scale
  split
  · exact hden
  · exact Nat.mul_pos hden (Nat.pow_pos (by decide))

theorem scale_div (num den : Nat) (exponent : Int) :
    ((scale num den exponent).1 : ℚ) / (scale num den exponent).2 = num / den * 2 ^ exponent := by
  unfold scale
  split
  next h =>
    obtain ⟨k, rfl⟩ := Int.eq_ofNat_of_zero_le h
    push_cast
    simp
    ring
  next h =>
    obtain ⟨k, hk⟩ := Int.eq_ofNat_of_zero_le (a := -exponent) (by omega)
    obtain rfl : exponent = -(k : Int) := by omega
    push_cast
    simp
    field_simp

/-! ## Rounding to an integer -/

/-- The integer is nearest to the rational, and even if another one is as near. -/
def Near (q : ℚ) (m : Nat) : Prop :=
  (2 * m - 1 < 2 * q ∧ 2 * q < 2 * m + 1) ∨ (m % 2 = 0 ∧ 2 * m - 1 ≤ 2 * q ∧ 2 * q ≤ 2 * m + 1)

theorem Near.le {q : ℚ} {m : Nat} (h : Near q m) : 2 * m - 1 ≤ 2 * q ∧ 2 * q ≤ 2 * m + 1 := by
  rcases h with ⟨h₁, h₂⟩ | ⟨-, h₁, h₂⟩
  · exact ⟨h₁.le, h₂.le⟩
  · exact ⟨h₁, h₂⟩

theorem Near.unique {q : ℚ} {m m' : Nat} (h : Near q m) (h' : Near q m') : m = m' := by
  have hle : ∀ {a b : Nat}, Near q a → Near q b → a ≤ b := by
    intro a b ha hb
    by_contra hlt
    have hsucc : ((b : ℚ) + 1) ≤ a := by exact_mod_cast Nat.lt_of_not_le hlt
    -- both bounds are met with equality, so both are even and neighbours
    have haq := ha.le.1
    have hbq := hb.le.2
    have hab : a = b + 1 := by
      have : (a : ℚ) ≤ b + 1 := by linarith
      exact_mod_cast le_antisymm this hsucc
    subst hab
    push_cast at haq
    rcases ha with ⟨ha, -⟩ | ⟨ha, -⟩
    · push_cast at ha
      linarith
    · rcases hb with ⟨-, hb⟩ | ⟨hb, -⟩
      · linarith
      · omega
  exact le_antisymm (hle h h') (hle h' h)

theorem near_roundQuotient (num : Nat) {den : Nat} (hden : 0 < den) :
    Near (num / den) (roundQuotient num den) := by
  have hdenq : (0 : ℚ) < den := by exact_mod_cast hden
  have hnum : (num : ℚ) / den = (num / den : Nat) + (num % den : Nat) / den := by
    field_simp
    exact_mod_cast (Nat.div_add_mod num den).symm
  have hrest : (0 : ℚ) ≤ (num % den : Nat) / den := by positivity
  have hbound : ((num % den : Nat) : ℚ) / den < 1 := by
    rw [div_lt_one hdenq]
    exact_mod_cast Nat.mod_lt num hden
  rw [hnum]
  unfold roundQuotient
  dsimp only
  split
  next h =>
    have : 2 * (((num % den : Nat) : ℚ) / den) < 1 := by
      rw [← mul_div_assoc, div_lt_one hdenq]
      exact_mod_cast h
    exact .inl ⟨by linarith, by linarith⟩
  next h =>
    split
    next h' =>
      have : 1 < 2 * (((num % den : Nat) : ℚ) / den) := by
        rw [← mul_div_assoc, one_lt_div hdenq]
        exact_mod_cast h'
      refine .inl ⟨?_, ?_⟩ <;> push_cast <;> linarith
    next h' =>
      have : 2 * (((num % den : Nat) : ℚ) / den) = 1 := by
        rw [← mul_div_assoc, div_eq_one_iff_eq hdenq.ne']
        exact_mod_cast (by omega : 2 * (num % den) = den)
      refine .inr ⟨by omega, ?_, ?_⟩
      · have : (((num / den) % 2 : Nat) : ℚ) ≤ 1 := by exact_mod_cast (by omega : num / den % 2 ≤ 1)
        push_cast at this ⊢
        linarith
      · push_cast
        have : (0 : ℚ) ≤ (((num / den) % 2 : Nat) : ℚ) := by positivity
        linarith

/-! ## The binade of a quotient -/

/-- A quotient of two numbers lies between the quotients of their powers of two. -/
theorem quotient_bounds {num den : Nat} (hnum : 0 < num) (hden : 0 < den) :
    (2 : ℚ) ^ ((num.log2 : Int) - den.log2 - 1) < num / den ∧
      (num : ℚ) / den < 2 ^ ((num.log2 : Int) - den.log2 + 1) := by
  have hdenq : (0 : ℚ) < den := by exact_mod_cast hden
  have hnumLow : (2 : ℚ) ^ (num.log2 : Int) ≤ num := by
    exact_mod_cast Nat.log2_self_le hnum.ne'
  have hnumHigh : (num : ℚ) < 2 ^ ((num.log2 : Int) + 1) := by
    exact_mod_cast Nat.lt_log2_self (n := num)
  have hdenLow : (2 : ℚ) ^ (den.log2 : Int) ≤ den := by
    exact_mod_cast Nat.log2_self_le hden.ne'
  have hdenHigh : (den : ℚ) < 2 ^ ((den.log2 : Int) + 1) := by
    exact_mod_cast Nat.lt_log2_self (n := den)
  constructor
  · rw [lt_div_iff₀ hdenq]
    calc (2 : ℚ) ^ ((num.log2 : Int) - den.log2 - 1) * den
        < 2 ^ ((num.log2 : Int) - den.log2 - 1) * 2 ^ ((den.log2 : Int) + 1) := by gcongr
      _ = 2 ^ (num.log2 : Int) := by
          rw [← zpow_add₀ two_ne_zero]
          congr 1
          ring
      _ ≤ num := hnumLow
  · rw [div_lt_iff₀ hdenq]
    calc (num : ℚ) < 2 ^ ((num.log2 : Int) + 1) := hnumHigh
      _ = 2 ^ ((num.log2 : Int) - den.log2 + 1) * 2 ^ (den.log2 : Int) := by
          rw [← zpow_add₀ two_ne_zero]
          congr 1
          ring
      _ ≤ 2 ^ ((num.log2 : Int) - den.log2 + 1) * den := by gcongr

namespace Format

variable (f : Format)

/-- The exponent at which a quotient has a mantissa of full length. -/
def sharp (num den : Nat) : Int :=
  let guess : Int := Nat.log2 num - Nat.log2 den - f.fractionBits
  if (scale num den (-guess)).1 < 2 ^ f.fractionBits * (scale num den (-guess)).2 then guess - 1
  else guess

theorem sharp_bounds {num den : Nat} (hnum : 0 < num) (hden : 0 < den) :
    (2 : ℚ) ^ (f.sharp num den + f.fractionBits) ≤ num / den ∧
      (num : ℚ) / den < 2 ^ (f.sharp num den + f.fractionBits + 1) := by
  obtain ⟨hlow, hhigh⟩ := quotient_bounds hnum hden
  unfold sharp
  extract_lets guess
  -- the test compares the quotient with the least full mantissa at the guessed exponent
  have htest : (scale num den (-guess)).1 < 2 ^ f.fractionBits * (scale num den (-guess)).2 ↔
      (num : ℚ) / den < 2 ^ (guess + f.fractionBits) := by
    have hpos : (0 : ℚ) < (scale num den (-guess)).2 := by
      exact_mod_cast @snd_scale_pos num den hden (-guess)
    rw [add_comm, zpow_add₀ two_ne_zero, zpow_natCast, ← div_lt_iff₀ (by positivity),
      div_eq_mul_inv, ← zpow_neg, ← scale_div, div_lt_iff₀ hpos]
    exact_mod_cast Iff.rfl
  split
  next h =>
    refine ⟨hlow.le.trans' (le_of_eq ?_), (htest.mp h).trans_eq ?_⟩
    · congr 1
      omega
    · congr 1
      ring
  next h =>
    refine ⟨not_lt.mp fun hlt => h (htest.mpr hlt), hhigh.trans_eq ?_⟩
    congr 1
    omega

/-- A mantissa that was rounded up beyond the format is the least one at the next exponent. -/
def settle (mantissa : Nat) (exponent : Int) : Nat × Int :=
  if mantissa = 2 ^ (f.fractionBits + 1) then (2 ^ f.fractionBits, exponent + 1)
  else (mantissa, exponent)

/-- The nearest number of a format has the exponent of the quotient's binade, unless this is below
the least one, and the nearest integer at that exponent as its mantissa. -/
theorem nearest?_eq {num den : Nat} (hnum : 0 < num) (hden : 0 < den) :
    ∃ r, Near (num / den * 2 ^ (-max (f.sharp num den) f.minExponent)) r ∧
      f.nearest? num den =
        if f.maxExponent < (f.settle r (max (f.sharp num den) f.minExponent)).2 then none
        else some (f.settle r (max (f.sharp num den) f.minExponent)) := by
  set exponent := max (f.sharp num den) f.minExponent with hexponent
  refine ⟨roundQuotient (scale num den (-exponent)).1 (scale num den (-exponent)).2, ?_, ?_⟩
  · rw [← scale_div]
    exact near_roundQuotient _ (snd_scale_pos hden _)
  · rw [nearest?, if_neg hnum.ne']
    rfl

/-! ## The numbers of a format -/

/-- The mantissa and the exponent are those of a number of the format: the mantissa has full length,
or the exponent is the least. -/
structure Canonical (mantissa : Nat) (exponent : Int) : Prop where
  lt : mantissa < 2 ^ (f.fractionBits + 1)
  full : exponent = f.minExponent ∨ 2 ^ f.fractionBits ≤ mantissa
  least : f.minExponent ≤ exponent
  greatest : exponent ≤ f.maxExponent

end Format

/-- The interval of a number at an exponent holds a rational. -/
def Interval.Holds (i : Interval) (exponent : Int) (q : ℚ) : Prop :=
  if i.closed then i.low * 2 ^ (exponent - 2) ≤ q ∧ q ≤ i.high * 2 ^ (exponent - 2)
  else i.low * 2 ^ (exponent - 2) < q ∧ q < i.high * 2 ^ (exponent - 2)

namespace Format

variable {f : Format} {m : Nat} {e : Int} {q : ℚ}

theorem two_zpow_sub_two (e : Int) : (2 : ℚ) ^ (e - 2) = 2 ^ e / 4 := by
  rw [zpow_sub₀ two_ne_zero]
  norm_num

/-- A rational in the interval of a number, in units of the number's last bit. -/
theorem near_of_holds (hm : 0 < m) (h : (f.interval m e).Holds e q) : Near (q * 2 ^ (-e)) m := by
  have hpos : (0 : ℚ) < 2 ^ e := by positivity
  have hlow : (4 * m - 2 : ℚ) ≤ (f.interval m e).low := by
    unfold interval
    dsimp only
    split <;> push_cast [Nat.cast_sub (by omega : 1 ≤ 4 * m), Nat.cast_sub (by omega : 2 ≤ 4 * m)]
      <;> linarith
  have hscale : ∀ a : ℚ, a * 2 ^ (e - 2) = a / 4 * 2 ^ e := fun a => by
    rw [two_zpow_sub_two]
    ring
  rw [zpow_neg, ← div_eq_mul_inv]
  unfold Interval.Holds at h
  rw [hscale, hscale] at h
  split at h
  next hclosed =>
    have heven : m % 2 = 0 := by simpa [interval] using hclosed
    rw [← le_div_iff₀ hpos, ← div_le_iff₀ hpos] at h
    have hhigh : ((f.interval m e).high : ℚ) = 4 * m + 2 := by simp [interval]
    refine .inr ⟨heven, ?_, ?_⟩ <;> linarith [h.1, h.2]
  next hopen =>
    rw [← lt_div_iff₀ hpos, ← div_lt_iff₀ hpos] at h
    have hhigh : ((f.interval m e).high : ℚ) = 4 * m + 2 := by simp [interval]
    refine .inl ⟨?_, ?_⟩ <;> linarith [h.1, h.2]

/-- Below the least mantissa of full length the numbers lie closer. -/
theorem le_of_holds_least (hleast : m = 2 ^ f.fractionBits) (he : f.minExponent < e)
    (h : (f.interval m e).Holds e q) : 4 * (2 : ℚ) ^ f.fractionBits - 1 ≤ 4 * (q * 2 ^ (-e)) := by
  have hpos : (0 : ℚ) < 2 ^ e := by positivity
  have hlow : ((f.interval m e).low : ℚ) = 4 * 2 ^ f.fractionBits - 1 := by
    have hone : 1 ≤ 4 * 2 ^ f.fractionBits := by
      have := Nat.two_pow_pos f.fractionBits
      omega
    simp [interval, hleast, he, Nat.cast_sub hone]
  have hle : ((f.interval m e).low : ℚ) * 2 ^ (e - 2) ≤ q := by
    unfold Interval.Holds at h
    split at h
    · exact h.1
    · exact h.1.le
  rw [hlow, two_zpow_sub_two] at hle
  rw [zpow_neg, ← div_eq_mul_inv, ← mul_div_assoc, le_div_iff₀ hpos]
  linarith

/-- Two powers of two of which one lies below a rational and the other above it. -/
theorem lt_of_zpow_le_lt {a b : Int} (ha : (2 : ℚ) ^ a ≤ q) (hb : q < 2 ^ b) : a < b :=
  (zpow_lt_zpow_iff_right₀ one_lt_two).mp (ha.trans_lt hb)

theorem settle_of_lt {r : Nat} (h : r < 2 ^ (f.fractionBits + 1)) (e : Int) :
    f.settle r e = (r, e) :=
  if_neg h.ne

/-- Where a quotient in the interval of a number is rounded: at the number's exponent, or, where it
lies below the least mantissa of full length, at the exponent before it. -/
theorem exponent_of_holds (hc : f.Canonical m e) (hm : 0 < m) {num den : Nat} (hnum : 0 < num)
    (hden : 0 < den) (h : (f.interval m e).Holds e (num / den)) :
    max (f.sharp num den) f.minExponent = e ∨
      (max (f.sharp num den) f.minExponent = e - 1 ∧ m = 2 ^ f.fractionBits ∧ f.minExponent < e ∧
        (num : ℚ) / den * 2 ^ (-e) < 2 ^ f.fractionBits) := by
  obtain ⟨hsharpLow, hsharpHigh⟩ := f.sharp_bounds hnum hden
  have hnear := near_of_holds hm h
  have hunscale : (num : ℚ) / den * 2 ^ (-e) * 2 ^ e = num / den := by
    rw [mul_assoc, ← zpow_add₀ two_ne_zero]
    simp
  by_cases hfull : (2 : ℚ) ^ f.fractionBits ≤ num / den * 2 ^ (-e)
  · have hlow : (2 : ℚ) ^ (e + f.fractionBits) ≤ num / den := by
      rw [← hunscale, add_comm, zpow_add₀ two_ne_zero, zpow_natCast]
      gcongr
    have hhigh : (num : ℚ) / den < 2 ^ (e + f.fractionBits + 1) := by
      have hmle : (m : ℚ) + 1 ≤ 2 ^ (f.fractionBits + 1) := by exact_mod_cast hc.lt
      have hlt : (num : ℚ) / den * 2 ^ (-e) < 2 ^ (f.fractionBits + 1) := by linarith [hnear.le.2]
      rw [← hunscale, add_assoc, add_comm, zpow_add₀ two_ne_zero]
      gcongr
      exact_mod_cast hlt
    have := lt_of_zpow_le_lt hlow hsharpHigh
    have := lt_of_zpow_le_lt hsharpLow hhigh
    have := hc.least
    left
    omega
  · rw [not_le] at hfull
    have hhigh : (num : ℚ) / den < 2 ^ (e + f.fractionBits) := by
      rw [← hunscale, add_comm, zpow_add₀ two_ne_zero, zpow_natCast]
      gcongr
    have habove := lt_of_zpow_le_lt hsharpLow hhigh
    rcases eq_or_lt_of_le hc.least with hmin | hmin
    · left
      omega
    · have hleast : m = 2 ^ f.fractionBits := by
        have hge : 2 ^ f.fractionBits ≤ m := hc.full.resolve_left hmin.ne'
        have hlt : (m : ℚ) < 2 ^ f.fractionBits + 1 := by linarith [hnear.le.1]
        have hlt : m < 2 ^ f.fractionBits + 1 := by exact_mod_cast hlt
        omega
      have hlow : (2 : ℚ) ^ (e - 1 + f.fractionBits) ≤ num / den := by
        have hone : (1 : ℚ) ≤ 2 ^ f.fractionBits := one_le_pow₀ one_le_two
        have hhalf : (2 : ℚ) ^ ((f.fractionBits : Int) - 1) ≤ num / den * 2 ^ (-e) := by
          rw [zpow_sub₀ two_ne_zero, zpow_natCast, zpow_one]
          linarith [le_of_holds_least hleast hmin h]
        rw [← hunscale, show e - 1 + f.fractionBits = (f.fractionBits - 1 : Int) + e by ring,
          zpow_add₀ two_ne_zero]
        gcongr
      have := lt_of_zpow_le_lt hlow hsharpHigh
      exact .inr ⟨by omega, hleast, hmin, hfull⟩

/-- **Every quotient in the interval of a number rounds to that number.** -/
theorem nearest?_of_holds (hc : f.Canonical m e) (hm : 0 < m) {num den : Nat} (hnum : 0 < num)
    (hden : 0 < den) (h : (f.interval m e).Holds e (num / den)) :
    f.nearest? num den = some (m, e) := by
  obtain ⟨r, hr, heq⟩ := f.nearest?_eq hnum hden
  rcases exponent_of_holds hc hm hnum hden h with hmax | ⟨hmax, hleast, hmin, hlt⟩
  · rw [hmax] at hr heq
    rw [heq, hr.unique (near_of_holds hm h), settle_of_lt hc.lt, if_neg (not_lt.mpr hc.greatest)]
  · -- twice the quotient is nearest to the first mantissa beyond the format, an even number
    have hnear : Near (num / den * 2 ^ (-(e - 1))) (2 ^ (f.fractionBits + 1)) := by
      have hquarter := le_of_holds_least hleast hmin h
      rw [show -(e - 1) = 1 + -e by ring, zpow_add₀ two_ne_zero, zpow_one]
      refine .inr ⟨by simp [Nat.pow_succ], ?_, ?_⟩ <;> push_cast [pow_succ] <;> linarith
    rw [hmax] at hr heq
    rw [heq, hr.unique hnear, settle, if_pos rfl, if_neg (not_lt.mpr ?_), hleast]
    · simp
    · simpa using hc.greatest

/-- A rounded mantissa is at most the first one beyond the format. -/
theorem le_of_near {num den r : Nat} (hnum : 0 < num) (hden : 0 < den)
    (hr : Near (num / den * 2 ^ (-max (f.sharp num den) f.minExponent)) r) :
    r ≤ 2 ^ (f.fractionBits + 1) := by
  set exponent := max (f.sharp num den) f.minExponent with hexponent
  have hlt : (num : ℚ) / den * 2 ^ (-exponent) < 2 ^ (f.fractionBits + 1) := by
    rw [zpow_neg, ← div_eq_mul_inv, div_lt_iff₀ (by positivity), ← zpow_natCast,
      ← zpow_add₀ two_ne_zero]
    refine (f.sharp_bounds hnum hden).2.trans_le (zpow_le_zpow_right₀ one_le_two ?_)
    push_cast
    omega
  have hlt : (r : ℚ) < 2 ^ (f.fractionBits + 1) + 1 := by linarith [hr.le.1]
  have hlt : r < 2 ^ (f.fractionBits + 1) + 1 := by exact_mod_cast hlt
  omega

/-- A rounded mantissa has full length, unless the exponent is the least. -/
theorem full_of_near {num den r : Nat} (hnum : 0 < num) (hden : 0 < den)
    (hr : Near (num / den * 2 ^ (-max (f.sharp num den) f.minExponent)) r) :
    max (f.sharp num den) f.minExponent = f.minExponent ∨ 2 ^ f.fractionBits ≤ r := by
  rcases le_total (f.sharp num den) f.minExponent with hle | hle
  · exact .inl (max_eq_right hle)
  · right
    rw [max_eq_left hle] at hr
    have hle : (2 : ℚ) ^ f.fractionBits ≤ num / den * 2 ^ (-f.sharp num den) := by
      rw [zpow_neg, ← div_eq_mul_inv, le_div_iff₀ (by positivity), ← zpow_natCast,
        ← zpow_add₀ two_ne_zero, add_comm]
      exact (f.sharp_bounds hnum hden).1
    have hlt : (2 : ℚ) ^ f.fractionBits < r + 1 := by linarith [hr.le.2]
    have hlt : 2 ^ f.fractionBits < r + 1 := by exact_mod_cast hlt
    omega

/-- What a quotient rounds to is a number of the format. -/
theorem canonical_of_nearest? (hf : f.minExponent ≤ f.maxExponent) {num den : Nat} (hden : 0 < den)
    (h : f.nearest? num den = some (m, e)) : f.Canonical m e := by
  rcases Nat.eq_zero_or_pos num with rfl | hnum
  · rw [nearest?, if_pos rfl] at h
    cases h
    exact ⟨by positivity, .inl rfl, le_rfl, hf⟩
  obtain ⟨r, hr, heq⟩ := f.nearest?_eq hnum hden
  have hle := le_of_near hnum hden hr
  have hfull := full_of_near hnum hden hr
  have hleast : f.minExponent ≤ max (f.sharp num den) f.minExponent := le_max_right _ _
  generalize max (f.sharp num den) f.minExponent = exponent at *
  rw [heq] at h
  split at h
  · cases h
  next hmax =>
    have hsettle := Option.some.inj h
    rw [hsettle] at hmax
    have hgreatest : e ≤ f.maxExponent := not_lt.mp hmax
    unfold settle at hsettle
    split at hsettle
    next hbeyond =>
      cases hsettle
      refine ⟨?_, .inr le_rfl, by omega, hgreatest⟩
      rw [Nat.pow_succ]
      have := Nat.two_pow_pos f.fractionBits
      omega
    next hbeyond =>
      cases hsettle
      exact ⟨lt_of_le_of_ne hle hbeyond, hfull, hleast, hgreatest⟩

end Format
end Number
end LoopNest
