import Servitals.JsNumber

/-!
# Arithmetic with doubles

What awk and jq calculate with: the double nearest to a number.  It is exact on the integers up to 2 ^ 53, and keeps a
sign.
-/

namespace Servitals

/-- The double nearest to a number that is not too large for one. -/
def double (x : ℚ) : ℚ := (roundDouble x).getD 0

theorem roundEven_intCast (z : ℤ) : roundEven (z : ℚ) = z := by
  unfold roundEven
  simp

private theorem roundDouble_of_pos {n : ℕ} (hpos : 0 < n) (h : n < 2 ^ 53) : roundDouble n = some (n : ℚ) := by
  have hne : (n : ℚ) ≠ 0 := Nat.cast_ne_zero.2 hpos.ne'
  have hlog : Int.log 2 |(n : ℚ)| = (Nat.log 2 n : ℤ) := by
    rw [Nat.abs_cast, Int.log_natCast]
  have hle : Nat.log 2 n ≤ 52 := by
    have := Nat.log_lt_of_lt_pow hpos.ne' h
    omega
  have hmax : max (Nat.log 2 n : ℤ) (-1022) = Nat.log 2 n := max_eq_left (by omega)
  have hulp : (2 : ℚ) ^ ((Nat.log 2 n : ℤ) - 52) ≠ 0 := zpow_ne_zero _ (by norm_num)
  -- the number is a multiple of the last place
  have hwhole : (n : ℚ) / 2 ^ ((Nat.log 2 n : ℤ) - 52) = ((n * 2 ^ (52 - Nat.log 2 n) : ℤ) : ℚ) := by
    rw [div_eq_iff hulp]
    push_cast
    rw [mul_assoc, ← zpow_natCast, ← zpow_add₀ (by norm_num), Nat.cast_sub hle]
    simp
  have hsmall : |(n : ℚ)| < 2 ^ 1024 := by
    rw [Nat.abs_cast]
    have : (n : ℚ) < 2 ^ 53 := by exact_mod_cast h
    exact this.trans (pow_lt_pow_right₀ (by norm_num) (by norm_num))
  unfold roundDouble
  rw [if_neg hne]
  dsimp only
  rw [hlog, hmax, hwhole, roundEven_intCast, ← hwhole, div_mul_cancel₀ _ hulp, if_pos hsmall]

theorem double_natCast {n : ℕ} (h : n < 2 ^ 53) : double n = n := by
  rcases Nat.eq_zero_or_pos n with rfl | hpos
  · rfl
  · rw [double, roundDouble_of_pos hpos h, Option.getD_some]

theorem roundEven_nonneg {x : ℚ} (h : 0 ≤ x) : 0 ≤ roundEven x := by
  have hfloor : 0 ≤ ⌊x⌋ := Int.floor_nonneg.2 h
  unfold roundEven
  dsimp only
  split_ifs <;> omega

theorem double_nonneg {x : ℚ} (h : 0 ≤ x) : 0 ≤ double x := by
  unfold double roundDouble
  split
  · exact le_rfl
  · dsimp only
    split
    · have hround : 0 ≤ roundEven (x / 2 ^ (max (Int.log 2 |x|) (-1022) - 52)) := roundEven_nonneg (by positivity)
      rw [Option.getD_some]
      positivity
    · exact le_rfl

end Servitals
