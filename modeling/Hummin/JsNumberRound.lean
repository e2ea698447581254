/-
Rounding to a double gives a double: its result rounds to itself.
-/
import Mathlib.Tactic.Positivity
import Hummin.JsNumber

namespace Hummin

theorem roundHalfEven_intCast (number : ℤ) : roundHalfEven (number : ℚ) = number := by
  simp [roundHalfEven]

theorem roundHalfEven_bounds (value : ℚ) :
    ⌊value⌋ ≤ roundHalfEven value ∧ roundHalfEven value ≤ ⌊value⌋ + 1 := by
  rw [roundHalfEven]
  split_ifs <;> omega

/-- A multiple of its own last place is a double. -/
theorem isDouble_of_multiple {value : ℚ} (hpos : 0 < value) (hlt : value < 2 ^ 1024)
    {count : ℤ} (hcount : value = count * (2 : ℚ) ^ lastPlace value) : IsDouble value := by
  have hplace : (2 : ℚ) ^ lastPlace value ≠ 0 := zpow_ne_zero _ (by norm_num)
  have hdiv : value / 2 ^ lastPlace value = count := by
    rw [div_eq_iff hplace]
    exact hcount
  rw [IsDouble, abs_of_pos hpos, roundDouble, hdiv, roundHalfEven_intCast,
    ← hcount, abs_of_pos hpos, if_pos hlt]

/-- With at most 53 bits a number is a multiple of its last place: only a power
of two may have a higher one. -/
theorem exists_multiple_lastPlace {number place : ℤ} (hpos : 0 < number)
    (hbits : number ≤ 2 ^ 53) (hplace : -1074 ≤ place) :
    ∃ count : ℤ, (number : ℚ) * 2 ^ place = count * (2 : ℚ) ^ lastPlace (number * 2 ^ place) := by
  have hunit : (0 : ℚ) < 2 ^ place := zpow_pos (by norm_num) _
  have hcast : (0 : ℚ) < number := by exact_mod_cast hpos
  have hvalue : (0 : ℚ) < number * 2 ^ place := mul_pos hcast hunit
  have hlast : lastPlace ((number : ℚ) * 2 ^ place) =
      max (Int.log 2 ((number : ℚ) * 2 ^ place) - 52) (-1074) := by
    rw [lastPlace, abs_of_pos hvalue]
  rcases le_or_gt (lastPlace ((number : ℚ) * 2 ^ place)) place with hle | hgt
  · obtain ⟨shift, hshift⟩ := Int.eq_ofNat_of_zero_le (sub_nonneg.mpr hle)
    refine ⟨number * 2 ^ shift, ?_⟩
    have hsplit : (2 : ℚ) ^ place =
        2 ^ shift * 2 ^ lastPlace ((number : ℚ) * 2 ^ place) := by
      rw [← zpow_natCast, ← zpow_add₀ (by norm_num), ← hshift]
      congr 1
      ring
    conv_lhs => rw [hsplit]
    push_cast
    ring
  have htop : (number : ℚ) * 2 ^ place ≤ 2 ^ (place + 53) := by
    have hnumber : (number : ℚ) ≤ 2 ^ (53 : ℤ) := by
      exact_mod_cast hbits
    calc (number : ℚ) * 2 ^ place ≤ 2 ^ (53 : ℤ) * 2 ^ place := by gcongr
      _ = 2 ^ (place + 53) := by
          rw [← zpow_add₀ (by norm_num), add_comm]
  have hlog : place + 53 ≤ Int.log 2 ((number : ℚ) * 2 ^ place) := by omega
  have hbottom : (2 : ℚ) ^ (place + 53) ≤ number * 2 ^ place := by
    have hpow := (Int.zpow_le_iff_le_log (by norm_num) hvalue).mpr hlog
    exact_mod_cast hpow
  have heq : (number : ℚ) * 2 ^ place = 2 ^ (place + 53) :=
    le_antisymm htop hbottom
  have hplace' : lastPlace ((number : ℚ) * 2 ^ place) = place + 1 := by
    have hexact : Int.log 2 ((number : ℚ) * 2 ^ place) = place + 53 := by
      rw [heq]
      exact_mod_cast Int.log_zpow (R := ℚ) (b := 2) (by norm_num) (place + 53)
    omega
  refine ⟨2 ^ 52, ?_⟩
  rw [hplace', heq, show place + 53 = (52 : ℕ) + (place + 1) by push_cast; ring,
    zpow_add₀ (by norm_num), zpow_natCast]
  norm_num

/-- Natural numbers below 2^53 are doubles. -/
theorem isDouble_natCast {number : Nat} (hnumber : number < 2 ^ 53) : IsDouble (number : ℚ) := by
  rcases Nat.eq_zero_or_pos number with rfl | hpos
  · simp [IsDouble, roundDouble, roundHalfEven]
  have hvalue : (0 : ℚ) < number := by exact_mod_cast hpos
  have hlt : (number : ℚ) < 2 ^ 1024 := by
    have hbig : (2 : ℚ) ^ 53 ≤ 2 ^ 1024 :=
      pow_le_pow_right₀ (by norm_num) (by decide)
    exact lt_of_lt_of_le (by exact_mod_cast hnumber) hbig
  obtain ⟨count, hcount⟩ :=
    @exists_multiple_lastPlace number 0 (by omega) (by omega) (by decide)
  rw [zpow_zero, mul_one] at hcount
  exact isDouble_of_multiple hvalue hlt hcount

/-- What rounding gives is a double. -/
theorem isDouble_of_roundDouble {value rounded : ℚ} (hvalue : 0 ≤ value)
    (hround : roundDouble value = some rounded) : IsDouble rounded := by
  rw [roundDouble] at hround
  split_ifs at hround with hlt
  cases hround
  have hunit : (0 : ℚ) < 2 ^ lastPlace value := zpow_pos (by norm_num) _
  have hfloor : 0 ≤ ⌊value / 2 ^ lastPlace value⌋ :=
    Int.floor_nonneg.mpr (div_nonneg hvalue hunit.le)
  have hbounds := roundHalfEven_bounds (value / 2 ^ lastPlace value)
  have htop : ⌊value / 2 ^ lastPlace value⌋ < 2 ^ 53 := by
    have hlog : Int.log 2 value + 1 ≤ lastPlace value + 53 := by
      have hle := le_max_left (Int.log 2 |value| - 52) (-1074)
      rw [← lastPlace, abs_of_nonneg hvalue] at hle
      omega
    have hpow : value < 2 ^ (lastPlace value + 53) := by
      refine (Int.lt_zpow_succ_log_self (b := 2) (by norm_num) value).trans_le ?_
      exact zpow_le_zpow_right₀ (by norm_num) hlog
    rw [Int.floor_lt, div_lt_iff₀ hunit]
    rw [add_comm, zpow_add₀ (by norm_num)] at hpow
    exact_mod_cast hpow
  generalize hnumber : roundHalfEven (value / 2 ^ lastPlace value) = number at *
  rcases (hfloor.trans hbounds.1).eq_or_lt with hzero | hpos
  · rw [← hzero, Int.cast_zero, zero_mul, IsDouble, abs_zero]
    simp [roundDouble, roundHalfEven]
  obtain ⟨count, hcount⟩ := exists_multiple_lastPlace hpos
    (show number ≤ 2 ^ 53 by omega) (le_max_right _ _ : -1074 ≤ lastPlace value)
  have hdouble : (0 : ℚ) < number * 2 ^ lastPlace value :=
    mul_pos (by exact_mod_cast hpos) hunit
  rw [abs_of_pos hdouble] at hlt
  exact isDouble_of_multiple hdouble hlt hcount

end Hummin
