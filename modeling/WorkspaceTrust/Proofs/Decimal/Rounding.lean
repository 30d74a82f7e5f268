import Mathlib.Algebra.Order.Field.Power
import Mathlib.Algebra.Order.Field.Rat
import Mathlib.Tactic.FieldSimp
import Mathlib.Tactic.Linarith
import Mathlib.Tactic.NormNum
import Mathlib.Tactic.Positivity
import Mathlib.Tactic.Ring
import WorkspaceTrust.Decimal.Shortest

/-!
# Decimals that round to a number

The reals that round to a finite number form an interval around its
magnitude, `Rounds`. A decimal reads back exactly if its value is in that
interval (`readsBack_iff`), and then `ofDecimal` gives the number
(`ofDecimal_of_rounds`). All values here are rationals, so that powers of
two and of ten may be negative.
-/

namespace WorkspaceTrust.Binary64

/-! ## Rounding a quotient -/

/-- The integer within half a unit of a quotient, the even one of two. -/
theorem roundDiv_eq {num den m : Nat} (hden : 0 < den) (hlow : 2 * m * den ≤ 2 * num + den)
    (hhigh : 2 * num ≤ (2 * m + 1) * den)
    (hodd : m % 2 = 1 → 2 * m * den < 2 * num + den ∧ 2 * num < (2 * m + 1) * den) :
    roundDiv num den = m := by
  obtain ⟨q, hq⟩ : ∃ q, q = num / den := ⟨_, rfl⟩
  obtain ⟨r, hr⟩ : ∃ r, r = num % den := ⟨_, rfl⟩
  have hrd : r < den := hr ▸ Nat.mod_lt num hden
  have hnum : num = den * q + r := by rw [hq, hr, Nat.div_add_mod]
  have hqm : q ≤ m := by
    by_contra hlt
    have : den * (m + 1) ≤ den * q := Nat.mul_le_mul_left _ (by omega)
    nlinarith
  have hmq : m ≤ q + 1 := by
    by_contra hlt
    have : den * (q + 2) ≤ den * m := Nat.mul_le_mul_left _ (by omega)
    nlinarith
  rw [roundDiv, ← hq, ← hr]
  rcases (by omega : m = q ∨ m = q + 1) with rfl | rfl
  · have h2 : 2 * r ≤ den := by nlinarith
    have hstrict : m % 2 = 1 → 2 * r < den := fun h => by nlinarith [(hodd h).2]
    split_ifs <;> omega
  · have h2 : den ≤ 2 * r := by nlinarith
    have hstrict : (q + 1) % 2 = 1 → den < 2 * r := fun h => by nlinarith [(hodd h).1]
    split_ifs <;> omega

theorem roundDiv_mem (num den : Nat) :
    roundDiv num den = num / den ∨ roundDiv num den = num / den + 1 := by
  rw [roundDiv]
  split_ifs <;> simp

/-! ## Powers -/

/-- A power as a quotient of powers with natural exponents. -/
theorem zpow_eq_div {b : ℚ} (_ : b ≠ 0) (e : Int) : b ^ e = b ^ e.toNat / b ^ (-e).toNat := by
  rcases Int.le_total 0 e with h | h
  · rw [show (-e).toNat = 0 by omega, pow_zero, div_one, ← zpow_natCast, Int.toNat_of_nonneg h]
  · rw [show e.toNat = 0 by omega, pow_zero, ← zpow_natCast, Int.toNat_of_nonneg (by omega), zpow_neg,
      one_div, inv_inv]

theorem decimalLe_iff (a : Nat) (e : Int) (b : Nat) (q : Int) :
    decimalLe a e b q = true ↔ (a : ℚ) * 10 ^ e ≤ b * 2 ^ q := by
  rw [decimalLe, decide_eq_true_eq, zpow_eq_div (by norm_num : (10 : ℚ) ≠ 0) e,
    zpow_eq_div (by norm_num : (2 : ℚ) ≠ 0) q, ← mul_div_assoc, ← mul_div_assoc,
    div_le_div_iff₀ (by positivity) (by positivity)]
  exact_mod_cast Iff.rfl

theorem decimalLt_iff (a : Nat) (e : Int) (b : Nat) (q : Int) :
    decimalLt a e b q = true ↔ (a : ℚ) * 10 ^ e < b * 2 ^ q := by
  rw [decimalLt, decide_eq_true_eq, zpow_eq_div (by norm_num : (10 : ℚ) ≠ 0) e,
    zpow_eq_div (by norm_num : (2 : ℚ) ≠ 0) q, ← mul_div_assoc, ← mul_div_assoc,
    div_lt_div_iff₀ (by positivity) (by positivity)]
  exact_mod_cast Iff.rfl

/-- The power of two that a quotient lies above. -/
theorem floorLog2_spec {num den : Nat} (hnum : 0 < num) (hden : 0 < den) :
    (2 : ℚ) ^ floorLog2 num den ≤ num / den ∧ (num : ℚ) / den < 2 ^ (floorLog2 num den + 1) := by
  have hden' : (0 : ℚ) < den := by exact_mod_cast hden
  have two_ne : (2 : ℚ) ≠ 0 := by norm_num
  have hn₁ : (2 : ℚ) ^ (num.log2 : Int) ≤ num := by
    exact_mod_cast Nat.log2_self_le (Nat.pos_iff_ne_zero.1 hnum)
  have hn₂ : (num : ℚ) < 2 ^ ((num.log2 : Int) + 1) := by
    exact_mod_cast Nat.lt_log2_self
  have hd₁ : (2 : ℚ) ^ (den.log2 : Int) ≤ den := by
    exact_mod_cast Nat.log2_self_le (Nat.pos_iff_ne_zero.1 hden)
  have hd₂ : (den : ℚ) < 2 ^ ((den.log2 : Int) + 1) := by
    exact_mod_cast Nat.lt_log2_self
  obtain ⟨e, he⟩ : ∃ e : Int, e = (num.log2 : Int) - den.log2 := ⟨_, rfl⟩
  have hbelow : (num : ℚ) / den < 2 ^ (e + 1) := by
    rw [div_lt_iff₀ hden']
    calc (num : ℚ) < 2 ^ ((num.log2 : Int) + 1) := hn₂
      _ = 2 ^ (e + 1) * 2 ^ (den.log2 : Int) := by
        rw [← zpow_add₀ two_ne]
        congr 1
        omega
      _ ≤ 2 ^ (e + 1) * den := by gcongr
  have habove : (2 : ℚ) ^ (e - 1) ≤ num / den := by
    rw [le_div_iff₀ hden']
    calc (2 : ℚ) ^ (e - 1) * den ≤ 2 ^ (e - 1) * 2 ^ ((den.log2 : Int) + 1) := by gcongr
      _ = 2 ^ (num.log2 : Int) := by
        rw [← zpow_add₀ two_ne]
        congr 1
        omega
      _ ≤ num := hn₁
  have hcond : den * 2 ^ e.toNat ≤ num * 2 ^ (-e).toNat ↔ (2 : ℚ) ^ e ≤ num / den := by
    rw [zpow_eq_div two_ne, div_le_div_iff₀ (by positivity) hden', mul_comm]
    exact_mod_cast Iff.rfl
  rw [floorLog2, ← he]
  split_ifs with h
  · exact ⟨hcond.1 h, hbelow⟩
  · rw [sub_add_cancel]
    exact ⟨habove, lt_of_not_ge fun hle => h (hcond.2 hle)⟩

/-! ## The interval of a number -/

variable (x : Binary64)

theorem fraction_lt : x.fraction < 2 ^ 52 := Nat.mod_lt _ (by norm_num)

theorem exponentField_lt : x.exponentField < 2 ^ 11 := Nat.mod_lt _ (by norm_num)

theorem significand_lt : x.significand < 2 ^ 53 := by
  have := x.fraction_lt
  simp only [significand, fractionBits, Nat.pow_eq]
  split_ifs <;> omega

/-- The pattern without its sign: consecutive numbers have consecutive patterns, also
where the exponent changes. -/
def magnitude : Nat := (x.exponent + 1074).toNat * 2 ^ fractionBits + x.significand

theorem magnitude_eq : x.magnitude = x.exponentField * 2 ^ 52 + x.fraction := by
  simp only [magnitude, exponent, significand, fractionBits, Nat.pow_eq]
  split_ifs with h
  · simp [h]
  · have : (((max x.exponentField 1 : Nat) : Int) - 1075 + 1074).toNat = x.exponentField - 1 := by
      omega
    rw [this]
    omega

theorem magnitude_le (h : x.isFinite = true) : x.magnitude ≤ infinityMagnitude := by
  have := x.fraction_lt
  have := x.exponentField_lt
  rw [isFinite, decide_eq_true_eq] at h
  rw [magnitude_eq, infinityMagnitude, fractionBits, Nat.pow_eq]
  omega

theorem ofMagnitude_magnitude : ofMagnitude x.negative x.magnitude = x := by
  have hlt : x.bits.toNat < 2 ^ 64 := x.bits.toNat_lt
  have hbits : x = ⟨x.bits⟩ := rfl
  rw [magnitude_eq, ofMagnitude]
  conv_rhs => rw [hbits]
  congr 1
  rw [← UInt64.toNat_inj, UInt64.toNat_ofNat', exponentField, fraction, fractionBits]
  simp only [Nat.pow_eq]
  by_cases hneg : x.negative = true
  · rw [if_pos hneg]
    rw [negative, decide_eq_true_eq, Nat.pow_eq] at hneg
    omega
  · rw [if_neg hneg]
    rw [negative, decide_eq_true_eq, Nat.pow_eq] at hneg
    omega

/-- The lower end of the interval, in quarters of the last place. Below a power of two
the neighbour is only half as far away. -/
def lowEnd : Nat :=
  if x.fraction = 0 ∧ 1 < x.exponentField then 4 * x.significand - 1 else 4 * x.significand - 2

/-- The real rounds to the magnitude of the number. -/
structure Rounds (r : ℚ) : Prop where
  low : x.lowEnd * 2 ^ (x.exponent - 2) ≤ r
  high : r ≤ (4 * x.significand + 2 : Nat) * 2 ^ (x.exponent - 2)
  odd : x.significand % 2 = 1 →
    x.lowEnd * 2 ^ (x.exponent - 2) < r ∧ r < (4 * x.significand + 2 : Nat) * 2 ^ (x.exponent - 2)

theorem readsBack_iff (d : Decimal) :
    x.readsBack d = true ↔ x.Rounds (d.digits * 10 ^ d.exponent) := by
  have hlt := (decimalLt_iff d.digits d.exponent x.lowEnd (x.exponent - 2)).not
  have hle := (decimalLe_iff d.digits d.exponent x.lowEnd (x.exponent - 2)).not
  have hlow : x.readsBack d = if x.significand % 2 = 0 then
      !decimalLt d.digits d.exponent x.lowEnd (x.exponent - 2)
        && decimalLe d.digits d.exponent (4 * x.significand + 2) (x.exponent - 2)
    else !decimalLe d.digits d.exponent x.lowEnd (x.exponent - 2)
        && decimalLt d.digits d.exponent (4 * x.significand + 2) (x.exponent - 2) := rfl
  rw [hlow]
  split_ifs with h
  · simp only [Bool.and_eq_true, Bool.not_eq_true', ← Bool.not_eq_true, hlt, decimalLe_iff, not_lt]
    exact ⟨fun ⟨h₁, h₂⟩ => ⟨h₁, h₂, by omega⟩, fun h => ⟨h.low, h.high⟩⟩
  · simp only [Bool.and_eq_true, Bool.not_eq_true', ← Bool.not_eq_true, hle, decimalLt_iff, not_le]
    exact ⟨fun ⟨h₁, h₂⟩ => ⟨h₁.le, h₂.le, fun _ => ⟨h₁, h₂⟩⟩, fun hr => hr.odd (by omega)⟩

/-! ## Rounding -/

/-- Rounding at a place gives the integer whose unit interval there holds the quotient. -/
theorem roundDiv_at {num den m : Nat} {place : Int} (hden : 0 < den)
    (hlow : (2 * m - 1 : ℚ) * 2 ^ place ≤ 2 * (num / den))
    (hhigh : 2 * (num / den) ≤ (2 * m + 1 : ℚ) * 2 ^ place)
    (hodd : m % 2 = 1 → (2 * m - 1 : ℚ) * 2 ^ place < 2 * (num / den) ∧
      2 * (num / den) < (2 * m + 1 : ℚ) * 2 ^ place) :
    roundDiv (num * 2 ^ (-place).toNat) (den * 2 ^ place.toNat) = m := by
  have hden' : (0 : ℚ) < den := by exact_mod_cast hden
  have hup : (0 : ℚ) < 2 ^ place.toNat := by positivity
  have hdown : (0 : ℚ) < 2 ^ (-place).toNat := by positivity
  rw [zpow_eq_div (by norm_num : (2 : ℚ) ≠ 0) place] at hlow hhigh hodd
  rw [← mul_div_assoc, ← mul_div_assoc, div_le_div_iff₀ hdown hden'] at hlow
  rw [← mul_div_assoc, ← mul_div_assoc, div_le_div_iff₀ hden' hdown] at hhigh
  have hlow' : (2 * m * (den * 2 ^ place.toNat) : ℚ)
      ≤ 2 * (num * 2 ^ (-place).toNat) + den * 2 ^ place.toNat := by linarith
  have hhigh' : (2 * (num * 2 ^ (-place).toNat) : ℚ) ≤ (2 * m + 1) * (den * 2 ^ place.toNat) := by
    linarith
  refine roundDiv_eq (by positivity) (by exact_mod_cast hlow') (by exact_mod_cast hhigh') fun h => ?_
  obtain ⟨h₁, h₂⟩ := hodd h
  rw [← mul_div_assoc, ← mul_div_assoc, div_lt_div_iff₀ hdown hden'] at h₁
  rw [← mul_div_assoc, ← mul_div_assoc, div_lt_div_iff₀ hden' hdown] at h₂
  have h₁' : (2 * m * (den * 2 ^ place.toNat) : ℚ)
      < 2 * (num * 2 ^ (-place).toNat) + den * 2 ^ place.toNat := by linarith
  have h₂' : (2 * (num * 2 ^ (-place).toNat) : ℚ) < (2 * m + 1) * (den * 2 ^ place.toNat) := by
    linarith
  exact ⟨by exact_mod_cast h₁', by exact_mod_cast h₂'⟩

variable {x} {r : ℚ}

theorem exponent_ge : -1074 ≤ x.exponent := by
  rw [exponent]
  omega

/-- Above the least exponent there is a hidden bit. -/
theorem significand_ge (h : -1074 < x.exponent) : 2 ^ 52 ≤ x.significand ∧ 1 < x.exponentField := by
  rw [exponent] at h
  have : 1 < x.exponentField := by omega
  rw [significand, if_neg (by omega), fractionBits]
  exact ⟨Nat.le_add_left _ _, this⟩

theorem four_mul_zpow (q : Int) : (4 : ℚ) * 2 ^ (q - 2) = 2 ^ q := by
  rw [zpow_sub₀ (by norm_num : (2 : ℚ) ≠ 0)]
  norm_num
  ring

theorem le_lowEnd : (4 * x.significand - 2 : ℚ) ≤ x.lowEnd := by
  have : 4 * x.significand ≤ x.lowEnd + 2 := by
    rw [lowEnd]
    split_ifs <;> omega
  have : (4 * x.significand : ℚ) ≤ x.lowEnd + 2 := by exact_mod_cast this
  linarith

/-- The interval lies below the power of two above the significand. -/
theorem Rounds.lt (h : x.Rounds r) : r < 2 ^ (x.exponent + 53) := by
  have hm := x.significand_lt
  have hm' : ((4 * x.significand + 2 : Nat) : ℚ) < 2 ^ 55 := by
    have : 4 * x.significand + 2 < 2 ^ 55 := by omega
    exact_mod_cast this
  calc r ≤ (4 * x.significand + 2 : Nat) * 2 ^ (x.exponent - 2) := h.high
    _ < 2 ^ 55 * 2 ^ (x.exponent - 2) := by gcongr
    _ = 2 ^ (x.exponent + 53) := by
      rw [show x.exponent + 53 = 55 + (x.exponent - 2) by ring, zpow_add₀ (by norm_num)]
      norm_num

/-- At the place of the number itself the significand is the nearest integer. -/
theorem Rounds.roundDiv_eq {num den : Nat} (hden : 0 < den) (h : x.Rounds (num / den)) :
    roundDiv (num * 2 ^ (-x.exponent).toNat) (den * 2 ^ x.exponent.toNat) = x.significand := by
  have hunit : (0 : ℚ) < 2 ^ (x.exponent - 2) := by positivity
  have hlow : (4 * x.significand - 2 : ℚ) * 2 ^ (x.exponent - 2)
      ≤ x.lowEnd * 2 ^ (x.exponent - 2) := by
    gcongr
    exact le_lowEnd
  have hhigh := h.high
  have hodd := h.odd
  push_cast at hhigh hodd
  refine roundDiv_at hden ?_ ?_ fun hm => ?_
  · rw [← four_mul_zpow]
    linarith [h.low]
  · rw [← four_mul_zpow]
    linarith
  · obtain ⟨h₁, h₂⟩ := hodd hm
    rw [← four_mul_zpow]
    constructor <;> linarith

/-- Below a power of two the grid is finer, and a quotient that rounds up to the power
does so from there. -/
theorem Rounds.of_below (h : x.Rounds r) (hexp : -1074 < x.exponent)
    (hr : r < 2 ^ (x.exponent + 52)) :
    x.significand = 2 ^ 52 ∧ (2 ^ 54 - 1 : ℚ) * 2 ^ (x.exponent - 2) ≤ r := by
  obtain ⟨hm, hfield⟩ := significand_ge hexp
  have hunit : (0 : ℚ) < 2 ^ (x.exponent - 2) := by positivity
  have hpow : (2 : ℚ) ^ (x.exponent + 52) = 2 ^ 54 * 2 ^ (x.exponent - 2) := by
    rw [show x.exponent + 52 = 54 + (x.exponent - 2) by ring, zpow_add₀ (by norm_num)]
    norm_num
  have hlow : (x.lowEnd : ℚ) < 2 ^ 54 := by
    refine lt_of_mul_lt_mul_right ?_ hunit.le
    rw [← hpow]
    exact lt_of_le_of_lt h.low hr
  have hlow' : x.lowEnd < 2 ^ 54 := by exact_mod_cast hlow
  have hfraction : x.fraction = 0 := by
    by_contra hne
    have hsig : x.significand = x.fraction + 2 ^ 52 := by
      rw [significand, if_neg (by omega), fractionBits, Nat.pow_eq]
    rw [lowEnd, if_neg (by tauto)] at hlow'
    omega
  have hsig : x.significand = 2 ^ 52 := by
    rw [significand, if_neg (by omega), hfraction, fractionBits, zero_add, Nat.pow_eq]
  have hend : x.lowEnd = 2 ^ 54 - 1 := by
    rw [lowEnd, if_pos ⟨hfraction, hfield⟩, hsig]
    norm_num
  refine ⟨hsig, ?_⟩
  have := h.low
  rw [hend] at this
  exact_mod_cast this

/-- A quotient in the interval of a number rounds to it. -/
theorem ofRatio_of_rounds {num den : Nat} (hfinite : x.isFinite = true) (hnum : 0 < num)
    (hden : 0 < den) (h : x.Rounds (num / den)) : ofRatio x.negative num den = x := by
  have two_lt : (1 : ℚ) < 2 := by norm_num
  obtain ⟨hfloor, hceil⟩ := floorLog2_spec hnum hden
  obtain ⟨k, hk⟩ : ∃ k, k = floorLog2 num den := ⟨_, rfl⟩
  rw [← hk] at hfloor hceil
  have hge := @exponent_ge x
  have hupper : k < x.exponent + 53 :=
    (zpow_lt_zpow_iff_right₀ two_lt).1 (lt_of_le_of_lt hfloor h.lt)
  -- The place and the significand may be those of the next smaller power of two.
  have hround : (max (-1074) (k - 52) + 1074).toNat * 2 ^ fractionBits +
      roundDiv (num * 2 ^ (-max (-1074) (k - 52)).toNat) (den * 2 ^ (max (-1074) (k - 52)).toNat)
      = x.magnitude := by
    by_cases hplace : max (-1074) (k - 52) = x.exponent
    · rw [hplace, h.roundDiv_eq hden, magnitude]
    · have hexp : -1074 < x.exponent := by omega
      have hr : (num / den : ℚ) < 2 ^ (x.exponent + 52) :=
        lt_of_lt_of_le hceil (zpow_le_zpow_right₀ two_lt.le (by omega))
      obtain ⟨hsig, hlow⟩ := h.of_below hexp hr
      have hunit : (0 : ℚ) < 2 ^ (x.exponent - 2) := by positivity
      have hk' : x.exponent + 51 < k + 1 := by
        refine (zpow_lt_zpow_iff_right₀ two_lt).1 (lt_of_le_of_lt ?_ hceil)
        calc (2 : ℚ) ^ (x.exponent + 51) = 2 ^ 53 * 2 ^ (x.exponent - 2) := by
              rw [show x.exponent + 51 = 53 + (x.exponent - 2) by ring, zpow_add₀ (by norm_num)]
              norm_num
          _ ≤ (2 ^ 54 - 1) * 2 ^ (x.exponent - 2) := by
              gcongr
              norm_num
          _ ≤ _ := hlow
      have hhalf : (2 : ℚ) ^ (x.exponent - 1) = 2 * 2 ^ (x.exponent - 2) := by
        rw [show x.exponent - 1 = 1 + (x.exponent - 2) by ring, zpow_add₀ (by norm_num)]
        norm_num
      have hpow : (2 : ℚ) ^ (x.exponent + 52) = 2 ^ 54 * 2 ^ (x.exponent - 2) := by
        rw [show x.exponent + 52 = 54 + (x.exponent - 2) by ring, zpow_add₀ (by norm_num)]
        norm_num
      have hplace' : max (-1074) (k - 52) = x.exponent - 1 := by omega
      have hup : roundDiv (num * 2 ^ (-(x.exponent - 1)).toNat) (den * 2 ^ (x.exponent - 1).toNat)
          = 2 ^ 53 := by
        refine roundDiv_at hden ?_ ?_ (by norm_num)
        · rw [hhalf]
          push_cast
          linarith
        · rw [hhalf]
          rw [hpow] at hr
          push_cast
          linarith
      rw [hplace', hup, magnitude, hsig, fractionBits]
      omega
  have hshape : ofRatio x.negative num den = ofMagnitude x.negative
      (min ((max (-1074) (k - 52) + 1074).toNat * 2 ^ fractionBits +
        roundDiv (num * 2 ^ (-max (-1074) (k - 52)).toNat) (den * 2 ^ (max (-1074) (k - 52)).toNat))
        infinityMagnitude) := by
    rw [ofRatio, if_neg (by omega), hk]
    rfl
  rw [hshape, hround, min_eq_left (x.magnitude_le hfinite), ofMagnitude_magnitude]

/-! ## Decimals -/

/-- A number has as many digits as the power of ten above it says. -/
theorem digits_bounds {n : Nat} (h : 0 < n) :
    (10 : ℚ) ^ (((Nat.toDigits 10 n).length : Int) - 1) ≤ n ∧
      (n : ℚ) < 10 ^ ((Nat.toDigits 10 n).length : Int) := by
  obtain ⟨w, hw⟩ : ∃ w, (Nat.toDigits 10 n).length = w + 1 :=
    ⟨(Nat.toDigits 10 n).length - 1, by
      have := List.length_pos_iff.2 (Nat.toDigits_ne_nil (n := n) (b := 10))
      omega⟩
  have hupper : n < 10 ^ (w + 1) :=
    (Nat.length_toDigits_le_iff (by norm_num) (by omega)).1 (by omega)
  have hlower : 10 ^ w ≤ n := by
    rcases Nat.eq_zero_or_pos w with rfl | hpos
    · exact h
    · by_contra hlt
      have := (Nat.length_toDigits_le_iff (by norm_num) hpos).2 (by omega : n < 10 ^ w)
      omega
  rw [hw]
  constructor
  · rw [show ((w + 1 : Nat) : Int) - 1 = (w : Int) by omega, zpow_natCast]
    exact_mod_cast hlower
  · rw [zpow_natCast]
    exact_mod_cast hupper

theorem two_pow_lt : (2 : ℚ) ^ 93 < 10 ^ 28 := by norm_num

/-- All finite numbers are below the decimals that are read as infinite. -/
theorem two_zpow_lt : (2 : ℚ) ^ (1024 : Int) < 10 ^ (310 : Int) :=
  calc (2 : ℚ) ^ (1024 : Int) = (2 ^ 93) ^ 11 * 2 := by
        rw [← pow_mul, ← pow_succ, ← zpow_natCast]
        rfl
    _ < (10 ^ 28) ^ 11 * 10 ^ 2 := by
        gcongr
        · exact two_pow_lt
        · norm_num
    _ = 10 ^ (310 : Int) := by
        rw [← pow_mul, ← pow_add, ← zpow_natCast]
        rfl

/-- All numbers but zero are above the decimals that are read as zero. -/
theorem lt_two_zpow : (10 : ℚ) ^ (-330 : Int) < 2 ^ (-1075 : Int) := by
  rw [zpow_neg, zpow_neg]
  refine inv_strictAnti₀ (by positivity) ?_
  calc (2 : ℚ) ^ (1075 : Int) = (2 ^ 93) ^ 11 * 2 ^ 52 := by
        rw [← pow_mul, ← pow_add, ← zpow_natCast]
        rfl
    _ < (10 ^ 28) ^ 11 * 10 ^ 22 := by
        gcongr
        · exact two_pow_lt
        · norm_num
    _ = 10 ^ (330 : Int) := by
        rw [← pow_mul, ← pow_add, ← zpow_natCast]
        rfl

/-- A decimal in the interval of a number is read as the number. -/
theorem ofDecimal_of_rounds {digits : Nat} {e : Int} (hfinite : x.isFinite = true)
    (hpos : 0 < x.significand) (h : x.Rounds (digits * 10 ^ e)) :
    ofDecimal x.negative digits e = x := by
  have ten_ne : (10 : ℚ) ≠ 0 := by norm_num
  have hge := @exponent_ge x
  have hleast : (2 : ℚ) ^ (-1075 : Int) ≤ digits * 10 ^ e := by
    have hm : (1 : ℚ) ≤ x.significand := by exact_mod_cast hpos
    calc (2 : ℚ) ^ (-1075 : Int) ≤ 2 * 2 ^ (x.exponent - 2) := by
          rw [← zpow_one_add₀ (by norm_num)]
          exact zpow_le_zpow_right₀ (by norm_num) (by omega)
      _ ≤ x.lowEnd * 2 ^ (x.exponent - 2) := by
          gcongr
          exact le_trans (by linarith) le_lowEnd
      _ ≤ _ := h.low
  have hmost : (digits : ℚ) * 10 ^ e < 2 ^ (1024 : Int) := by
    have hq : x.exponent ≤ 971 := by
      have := x.exponentField_lt
      rw [isFinite, decide_eq_true_eq] at hfinite
      rw [exponent]
      omega
    exact lt_of_lt_of_le h.lt (zpow_le_zpow_right₀ (by norm_num) (by omega))
  have hdigits : 0 < digits := by
    rcases Nat.eq_zero_or_pos digits with rfl | hpos
    · have : (0 : ℚ) < 2 ^ (-1075 : Int) := by positivity
      rw [Nat.cast_zero, zero_mul] at hleast
      exact absurd hleast (not_le.2 this)
    · exact hpos
  obtain ⟨hlower, hupper⟩ := digits_bounds hdigits
  generalize hw : ((Nat.toDigits 10 digits).length : Int) = width at *
  have hsmall : ¬ 310 < width + e := by
    intro hlt
    have : (10 : ℚ) ^ (310 : Int) ≤ digits * 10 ^ e :=
      calc (10 : ℚ) ^ (310 : Int) ≤ 10 ^ (width - 1 + e) :=
            zpow_le_zpow_right₀ (by norm_num) (by omega)
        _ = 10 ^ (width - 1) * 10 ^ e := zpow_add₀ ten_ne _ _
        _ ≤ digits * 10 ^ e := by gcongr
    exact absurd (lt_trans hmost two_zpow_lt) (not_lt.2 this)
  have hlarge : ¬ width + e < -330 := by
    intro hlt
    have : (digits : ℚ) * 10 ^ e < 10 ^ (-330 : Int) :=
      calc (digits : ℚ) * 10 ^ e < 10 ^ width * 10 ^ e := by gcongr
        _ = 10 ^ (width + e) := (zpow_add₀ ten_ne _ _).symm
        _ ≤ 10 ^ (-330 : Int) := zpow_le_zpow_right₀ (by norm_num) (by omega)
    exact absurd (lt_trans this lt_two_zpow) (not_lt.2 hleast)
  have hvalue : ((digits * 10 ^ e.toNat : Nat) : ℚ) / (10 ^ (-e).toNat : Nat) = digits * 10 ^ e := by
    rw [zpow_eq_div ten_ne e]
    push_cast
    ring
  rw [ofDecimal]
  simp only [hw, Nat.pow_eq]
  rw [if_neg (by omega), if_neg hsmall, if_neg hlarge]
  exact ofRatio_of_rounds hfinite (by positivity) (by positivity) (by rwa [hvalue])

end WorkspaceTrust.Binary64
