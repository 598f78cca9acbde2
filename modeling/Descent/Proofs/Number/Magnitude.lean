import Mathlib.Algebra.Group.Nat.Defs
import Descent.Number.Rounding

/-!
# Magnitudes and their values

The values of the magnitudes increase with them, and `floorMagnitude t` is the last magnitude whose
value is at most `t` units.  A significand from `2 ^ 52` to `2 ^ 53` and a shift make up a magnitude
by addition, which holds at the upper end too, where the next power of two begins.
-/

namespace Descent.Binary64

theorem units_mul_add (e : Nat) {f : Nat} (hf : f < 2 ^ 52) :
    units (e * 2 ^ 52 + f) = if e = 0 then f else (2 ^ 52 + f) * 2 ^ (e - 1) := by
  have hdiv : (e * 2 ^ 52 + f) / 2 ^ 52 = e := by omega
  have hmod : (e * 2 ^ 52 + f) % 2 ^ 52 = f := by omega
  simp only [units, hdiv, hmod]

/-- Below the first power of two that is not a unit itself, a magnitude is its own value. -/
theorem units_of_lt {k : Nat} (hk : k < 2 ^ 52) : units k = k := by
  have h := units_mul_add 0 hk
  simpa using h

/-- The value of a magnitude that is made up of a shift and a significand. -/
theorem units_shift_add (s : Nat) {q : Nat} (hlow : 2 ^ 52 ≤ q) (hhigh : q ≤ 2 ^ 53) :
    units (s * 2 ^ 52 + q) = q * 2 ^ s := by
  rcases Nat.lt_or_eq_of_le hhigh with hlt | rfl
  · have he : s * 2 ^ 52 + q = (s + 1) * 2 ^ 52 + (q - 2 ^ 52) := by omega
    rw [he, units_mul_add (s + 1) (by omega), if_neg (Nat.succ_ne_zero s), Nat.add_sub_cancel,
      Nat.add_sub_cancel' hlow]
  · have he : s * 2 ^ 52 + 2 ^ 53 = (s + 2) * 2 ^ 52 + 0 := by omega
    rw [he, units_mul_add (s + 2) (by decide), if_neg (Nat.succ_ne_zero _)]
    change (2 ^ 52 + 0) * 2 ^ (s + 1) = 2 ^ 53 * 2 ^ s
    rw [Nat.pow_succ 2 s]
    omega

/-- Every magnitude is its own value or made up of a shift and a significand. -/
theorem magnitude_cases (k : Nat) :
    k < 2 ^ 52 ∨ ∃ s q, k = s * 2 ^ 52 + q ∧ 2 ^ 52 ≤ q ∧ q < 2 ^ 53 := by
  rcases Nat.lt_or_ge k (2 ^ 52) with hk | hk
  · exact Or.inl hk
  · refine Or.inr ⟨k / 2 ^ 52 - 1, k % 2 ^ 52 + 2 ^ 52, ?_, by omega, by omega⟩
    omega

theorem units_lt_units_succ (k : Nat) : units k < units (k + 1) := by
  rcases magnitude_cases k with hk | ⟨s, q, rfl, hlow, hhigh⟩
  · rw [units_of_lt hk]
    rcases Nat.lt_or_ge (k + 1) (2 ^ 52) with hk' | hk'
    · rw [units_of_lt hk']
      exact Nat.lt_succ_self k
    · have h := units_shift_add 0 hk' (by omega)
      rw [Nat.zero_mul, Nat.zero_add, Nat.pow_zero, Nat.mul_one] at h
      rw [h]
      exact Nat.lt_succ_self k
  · rw [units_shift_add s hlow (Nat.le_of_lt hhigh), Nat.add_assoc,
      units_shift_add s (by omega) hhigh]
    exact Nat.mul_lt_mul_of_pos_right (Nat.lt_succ_self q) (Nat.two_pow_pos s)

theorem units_lt_units {j k : Nat} (h : j < k) : units j < units k := by
  induction h with
  | refl => exact units_lt_units_succ j
  | step _ ih => exact Nat.lt_trans ih (units_lt_units_succ _)

theorem units_le_units {j k : Nat} (h : j ≤ k) : units j ≤ units k := by
  rcases Nat.lt_or_eq_of_le h with h | rfl
  · exact Nat.le_of_lt (units_lt_units h)
  · exact Nat.le_refl _

/-- A number of units lies between the magnitude found for it and the next one. -/
theorem units_floorMagnitude (t : Nat) :
    units (floorMagnitude t) ≤ t ∧ t < units (floorMagnitude t + 1) := by
  rcases Nat.lt_or_ge t (2 ^ 53) with ht | ht
  · -- Small values are magnitudes themselves.
    have hunits : units t = t := by
      rcases Nat.lt_or_ge t (2 ^ 52) with h | h
      · exact units_of_lt h
      · simpa using units_shift_add 0 h (Nat.le_of_lt ht)
    have hshift : t.log2 - 52 = 0 := by
      rcases Nat.eq_zero_or_pos t with rfl | hpos
      · rfl
      · have := (Nat.log2_lt (Nat.ne_of_gt hpos)).2 ht
        omega
    have hfloor : floorMagnitude t = t := by simp [floorMagnitude, hshift]
    have hnext := units_lt_units_succ t
    rw [hfloor]
    omega
  · have hne : t ≠ 0 := by omega
    have hlog : 53 ≤ t.log2 := (Nat.le_log2 hne).2 ht
    obtain ⟨s, hs⟩ : ∃ s, t.log2 = 52 + s := ⟨t.log2 - 52, by omega⟩
    have hfloor : floorMagnitude t = s * 2 ^ 52 + t / 2 ^ s := by
      simp only [floorMagnitude, hs, Nat.add_sub_cancel_left, Nat.shiftRight_eq_div_pow]
    have hlow : 2 ^ 52 ≤ t / 2 ^ s := by
      rw [Nat.le_div_iff_mul_le (Nat.two_pow_pos s), ← Nat.pow_add, ← hs]
      exact Nat.log2_self_le hne
    have hhigh : t / 2 ^ s < 2 ^ 53 := by
      rw [Nat.div_lt_iff_lt_mul (Nat.two_pow_pos s), ← Nat.pow_add]
      have := Nat.lt_log2_self (n := t)
      rwa [hs, Nat.add_right_comm] at this
    rw [hfloor, Nat.add_assoc, units_shift_add s hlow (Nat.le_of_lt hhigh),
      units_shift_add s (by omega) hhigh]
    exact ⟨Nat.div_mul_le_self _ _, Nat.lt_mul_of_div_lt (Nat.lt_succ_self _) (Nat.two_pow_pos s)⟩

end Descent.Binary64
