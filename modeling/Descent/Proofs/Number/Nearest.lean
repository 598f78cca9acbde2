import Mathlib.Algebra.Order.Field.Power
import Mathlib.Algebra.Order.Field.Rat
import Mathlib.Tactic.FieldSimp
import Mathlib.Tactic.GCongr
import Mathlib.Tactic.Linarith
import Mathlib.Tactic.NormNum
import Mathlib.Tactic.Positivity
import Mathlib.Tactic.Ring
import Descent.Number.Decimal
import Descent.Proofs.Number.Magnitude

/-!
# Rounding is to the nearest

`IsNearest q m` says, without the function that finds it, that `m` is the magnitude nearest to `q`
units and the even one of two that are equally near.  There is exactly one such magnitude, and the
main statement, `Decimal.rounds_iff`, is that reading a decimal finds it for every number of digits
and every exponent, also where a power of ten decides on its own.
-/

namespace Descent

namespace Binary64

/-- No other magnitude is nearer to `q` units, and if another one is as near, this one is even.  The
infinity counts as the power of two that would come next. -/
def IsNearest (q : ℚ) (m : Nat) : Prop :=
  m ≤ infinity ∧ ∀ k ≤ infinity, k ≠ m →
    |(units m : ℚ) - q| < |(units k : ℚ) - q| ∨
      |(units m : ℚ) - q| = |(units k : ℚ) - q| ∧ m % 2 = 0

theorem cast_units_lt {j k : Nat} (h : j < k) : (units j : ℚ) < units k :=
  Nat.cast_lt.2 (units_lt_units h)

theorem cast_units_le {j k : Nat} (h : j ≤ k) : (units j : ℚ) ≤ units k :=
  Nat.cast_le.2 (units_le_units h)

/-! ## There is only one nearest magnitude -/

theorem IsNearest.le_of_isNearest {q : ℚ} {m m' : Nat} (h : IsNearest q m) (h' : IsNearest q m') :
    m' ≤ m := by
  by_contra hlt
  rw [not_le] at hlt
  have h₁ := h.2 m' h'.1 hlt.ne'
  have h₂ := h'.2 m h.1 hlt.ne
  obtain ⟨heq, heven, heven'⟩ :
      |(units m : ℚ) - q| = |(units m' : ℚ) - q| ∧ m % 2 = 0 ∧ m' % 2 = 0 := by
    rcases h₁ with h₁ | ⟨h₁, he⟩ <;> rcases h₂ with h₂ | ⟨h₂, he'⟩
    · exact absurd (h₁.trans h₂) (lt_irrefl _)
    · exact absurd h₂ h₁.ne'
    · exact absurd h₁ h₂.ne'
    · exact ⟨h₁, he, he'⟩
  -- Both are even, so there is a magnitude between them, and that one is nearer than either.
  have hmid := h.2 (m + 1) (by have := h'.1; omega) (by omega)
  have hlow := cast_units_lt (Nat.lt_succ_self m)
  have hhigh := cast_units_lt (show m + 1 < m' by omega)
  have hq : q = ((units m : ℚ) + units m') / 2 := by
    rcases abs_eq_abs.1 heq with e | e
    · have := cast_units_lt hlt
      linarith
    · linarith
  have hnear : |(units (m + 1) : ℚ) - q| < |(units m : ℚ) - q| := by
    rw [abs_of_nonpos (by linarith : (units m : ℚ) - q ≤ 0), abs_lt]
    constructor <;> linarith
  rcases hmid with hmid | ⟨hmid, -⟩
  · exact absurd (hmid.trans hnear) (lt_irrefl _)
  · exact absurd hmid hnear.ne'

theorem IsNearest.unique {q : ℚ} {m m' : Nat} (h : IsNearest q m) (h' : IsNearest q m') : m = m' :=
  le_antisymm (h'.le_of_isNearest h) (h.le_of_isNearest h')

/-! ## Where one magnitude is clearly the nearest -/

/-- A magnitude is nearest to its own value. -/
theorem isNearest_units {m : Nat} (hm : m ≤ infinity) : IsNearest (units m) m := by
  refine ⟨hm, fun k _ hk => Or.inl ?_⟩
  rw [sub_self, abs_zero, abs_pos, sub_ne_zero]
  rcases Nat.lt_or_gt_of_ne hk with h | h
  · exact (cast_units_lt h).ne
  · exact (cast_units_lt h).ne'

/-- What is at least the power of two that would come next becomes the infinity. -/
theorem isNearest_infinity {q : ℚ} (hq : (units infinity : ℚ) ≤ q) : IsNearest q infinity := by
  refine ⟨le_rfl, fun k hk hne => Or.inl ?_⟩
  have hlt := cast_units_lt (lt_of_le_of_ne hk hne)
  rw [abs_of_nonpos (by linarith), abs_of_nonpos (by linarith)]
  linarith

/-- What is less than half a unit becomes zero. -/
theorem isNearest_zero {q : ℚ} (hq : 0 ≤ q) (hq' : 2 * q < 1) : IsNearest q 0 := by
  refine ⟨Nat.zero_le _, fun k _ hne => Or.inl ?_⟩
  have hone := cast_units_le (show 1 ≤ k by omega)
  rw [units_of_lt (show 1 < 2 ^ 52 by decide)] at hone
  rw [units_of_lt (show 0 < 2 ^ 52 by decide)]
  push_cast at hone ⊢
  rw [abs_of_nonpos (by linarith), abs_of_nonneg (by linarith)]
  linarith

/-! ## Rounding a quotient -/

/-- Between two neighbours the nearer one is the nearest of all magnitudes. -/
theorem isNearest_of_between {q : ℚ} {k m : Nat} (hm : m ≤ infinity) (hlow : (units k : ℚ) ≤ q)
    (hhigh : q < units (k + 1))
    (h : m = k ∧ 2 * q < units k + units (k + 1) ∨
      m = k + 1 ∧ (units k : ℚ) + units (k + 1) < 2 * q ∨
      (m = k ∨ m = k + 1) ∧ 2 * q = units k + units (k + 1) ∧ m % 2 = 0) :
    IsNearest q m := by
  refine ⟨hm, fun j _ hne => ?_⟩
  have hbelow : |(units k : ℚ) - q| = q - units k := by rw [abs_of_nonpos (by linarith), neg_sub]
  have habove : |(units (k + 1) : ℚ) - q| = units (k + 1) - q := abs_of_pos (by linarith)
  -- A magnitude other than the two neighbours is further away than the one on its side.
  have hside : j < k ∧ q - units k < |(units j : ℚ) - q| ∨ j = k ∨ j = k + 1 ∨
      k + 1 < j ∧ units (k + 1) - q < |(units j : ℚ) - q| := by
    rcases Nat.lt_trichotomy j k with hj | rfl | hj
    · have := cast_units_lt hj
      refine Or.inl ⟨hj, ?_⟩
      rw [abs_of_nonpos (by linarith)]
      linarith
    · exact Or.inr (Or.inl rfl)
    · rcases Nat.lt_or_eq_of_le (Nat.succ_le_of_lt hj) with hj | rfl
      · have := cast_units_lt hj
        refine Or.inr (Or.inr (Or.inr ⟨hj, ?_⟩))
        rw [abs_of_pos (by linarith)]
        linarith
      · exact Or.inr (Or.inr (Or.inl rfl))
  rcases h with ⟨rfl, h⟩ | ⟨rfl, h⟩ | ⟨rfl | rfl, h, heven⟩ <;>
    rcases hside with ⟨-, hj⟩ | rfl | rfl | ⟨-, hj⟩ <;>
      simp only [hbelow, habove, ne_eq, not_true_eq_false] at hne ⊢
  all_goals first
    | exact Or.inl (by linarith)
    | exact Or.inr ⟨by linarith, heven⟩

/-- Rounding a quotient finds the nearest magnitude. -/
theorem nearest_isNearest (num : Nat) {den : Nat} (hden : 0 < den) :
    IsNearest ((num : ℚ) / den) (nearest num den) := by
  obtain ⟨hfloor, hceil⟩ := units_floorMagnitude (num / den)
  have hden' : (0 : ℚ) < den := Nat.cast_pos.2 hden
  have hlow : (units (floorMagnitude (num / den)) : ℚ) ≤ num / den := by
    rw [le_div_iff₀ hden']
    exact_mod_cast (Nat.le_div_iff_mul_le hden).1 hfloor
  have hhigh : (num : ℚ) / den < units (floorMagnitude (num / den) + 1) := by
    rw [div_lt_iff₀ hden']
    exact_mod_cast (Nat.div_lt_iff_lt_mul hden).1 hceil
  -- The integer comparison with the middle decides between the same two neighbours.
  have hmiddle : ∀ k : Nat, 2 * ((num : ℚ) / den) < units k + units (k + 1) ↔
      2 * num < (units k + units (k + 1)) * den := fun k => by
    rw [← mul_div_assoc, div_lt_iff₀ hden']
    exact_mod_cast Iff.rfl
  have hmiddle' : ∀ k : Nat, (units k : ℚ) + units (k + 1) < 2 * ((num : ℚ) / den) ↔
      (units k + units (k + 1)) * den < 2 * num := fun k => by
    rw [← mul_div_assoc, lt_div_iff₀ hden']
    exact_mod_cast Iff.rfl
  simp only [nearest]
  generalize floorMagnitude (num / den) = k at hlow hhigh
  have hclamp : ∀ m ≤ k + 1, (m ≤ infinity → IsNearest ((num : ℚ) / den) m) →
      IsNearest ((num : ℚ) / den) (min m infinity) := by
    intro m hmk hm
    rcases le_total m infinity with h | h
    · rw [min_eq_left h]
      exact hm h
    · rw [min_eq_right h]
      rcases Nat.lt_or_eq_of_le h with h | rfl
      · exact isNearest_infinity ((cast_units_le (by omega)).trans hlow)
      · exact hm le_rfl
  split
  · next h =>
    exact hclamp k (Nat.le_succ k) fun hm =>
      isNearest_of_between hm hlow hhigh (Or.inl ⟨rfl, (hmiddle k).2 h⟩)
  · next h =>
    split
    · next h' =>
      exact hclamp (k + 1) le_rfl fun hm =>
        isNearest_of_between hm hlow hhigh (Or.inr (Or.inl ⟨rfl, (hmiddle' k).2 h'⟩))
    · next h' =>
      have htie : 2 * ((num : ℚ) / den) = units k + units (k + 1) :=
        le_antisymm (not_lt.1 fun hlt => h' ((hmiddle' k).1 hlt))
          (not_lt.1 fun hlt => h ((hmiddle k).1 hlt))
      split
      · next heven =>
        exact hclamp k (Nat.le_succ k) fun hm =>
          isNearest_of_between hm hlow hhigh (Or.inr (Or.inr ⟨Or.inl rfl, htie, heven⟩))
      · next hodd =>
        exact hclamp (k + 1) le_rfl fun hm =>
          isNearest_of_between hm hlow hhigh (Or.inr (Or.inr ⟨Or.inr rfl, htie, by omega⟩))

theorem units_power (s : Nat) : units ((s + 1) * 2 ^ 52) = 2 ^ (52 + s) := by
  rw [Nat.succ_mul, units_shift_add s (Nat.le_refl _) (by decide), pow_add]

theorem units_infinity : units infinity = 2 ^ (1024 + unitPlaces) := by
  have hexponent : 1024 + unitPlaces = 52 + 2046 := by decide
  rw [hexponent]
  exact units_power 2046

end Binary64

namespace Decimal

open Binary64

/-- The value of a decimal in units, exactly and without its sign. -/
def units (d : Decimal) : ℚ := d.digits * 10 ^ d.exponent * 2 ^ unitPlaces

/-- The number is the nearest one to the decimal, and has its sign. -/
def Rounds (d : Decimal) (x : Binary64) : Prop :=
  x.negative = d.negative ∧ IsNearest d.units x.magnitude

/-- An exponent that is too large for any digits but zero. -/
theorem units_infinity_le {digits : Nat} {exponent : Int} (hd : digits ≠ 0) (he : 310 < exponent) :
    (Binary64.units infinity : ℚ) ≤ digits * 10 ^ exponent * 2 ^ unitPlaces := by
  have hdigits : (1 : ℚ) ≤ digits := Nat.one_le_cast.2 (Nat.one_le_iff_ne_zero.2 hd)
  have hpower : (2 : ℚ) ^ 1024 ≤ 10 ^ exponent := by
    calc (2 : ℚ) ^ 1024 = (2 ^ 93) ^ 11 * 2 := by rw [← pow_mul, ← pow_succ]
      _ ≤ (10 ^ 28) ^ 11 * 10 := by gcongr <;> norm_num
      _ = 10 ^ (309 : Int) := by rw [← pow_mul, ← pow_succ]; exact (zpow_natCast 10 309).symm
      _ ≤ 10 ^ exponent := zpow_le_zpow_right₀ (by norm_num) (by omega)
  rw [units_infinity, Nat.cast_pow, Nat.cast_ofNat, pow_add]
  calc (2 : ℚ) ^ 1024 * 2 ^ unitPlaces = 1 * 2 ^ 1024 * 2 ^ unitPlaces := by rw [one_mul]
    _ ≤ (digits : ℚ) * 10 ^ exponent * 2 ^ unitPlaces := by gcongr

/-- An exponent that is too small for the digits. -/
theorem two_mul_units_lt_one {digits : Nat} {exponent : Int}
    (he : exponent < -(digits.log2 + 400 : Nat)) :
    2 * ((digits : ℚ) * 10 ^ exponent * 2 ^ unitPlaces) < 1 := by
  obtain ⟨n, rfl⟩ : ∃ n : Nat, exponent = -(n : Int) := ⟨exponent.natAbs, by omega⟩
  have hn : digits.log2 + 401 ≤ n := by omega
  have hdigits : (digits : ℚ) < 2 ^ (digits.log2 + 1) := by exact_mod_cast Nat.lt_log2_self
  have hpower : (2 : ℚ) ^ (digits.log2 + 1 + unitPlaces + 1) ≤ 10 ^ n := by
    calc (2 : ℚ) ^ (digits.log2 + 1 + unitPlaces + 1) ≤ 2 ^ (3 * n) :=
          pow_le_pow_right₀ (by norm_num) (by simp only [unitPlaces]; omega)
      _ = 8 ^ n := by rw [pow_mul]; norm_num
      _ ≤ 10 ^ n := by gcongr; norm_num
  have hpos : (0 : ℚ) < 10 ^ n := by positivity
  rw [zpow_neg, zpow_natCast]
  calc 2 * ((digits : ℚ) * (10 ^ n)⁻¹ * 2 ^ unitPlaces)
      < 2 * (2 ^ (digits.log2 + 1) * (10 ^ n)⁻¹ * 2 ^ unitPlaces) := by gcongr
    _ = 2 ^ (digits.log2 + 1 + unitPlaces + 1) * (10 ^ n)⁻¹ := by ring
    _ ≤ 10 ^ n * (10 ^ n)⁻¹ := by gcongr
    _ = 1 := mul_inv_cancel₀ hpos.ne'

theorem magnitude_isNearest (digits : Nat) (exponent : Int) :
    IsNearest (digits * 10 ^ exponent * 2 ^ unitPlaces) (magnitude digits exponent) := by
  unfold magnitude
  split
  · next hzero =>
    subst hzero
    exact isNearest_zero (by simp) (by simp)
  split
  · next hd he => exact isNearest_infinity (units_infinity_le hd he)
  split
  · next he => exact isNearest_zero (by positivity) (two_mul_units_lt_one he)
  split
  · next he =>
    obtain ⟨n, rfl⟩ := Int.eq_ofNat_of_zero_le he
    have h := nearest_isNearest (digits * 10 ^ n * 2 ^ unitPlaces) Nat.one_pos
    rw [Nat.cast_one, div_one, Nat.cast_mul, Nat.cast_mul, Nat.cast_pow, Nat.cast_pow] at h
    exact h
  · next he =>
    obtain ⟨n, rfl⟩ : ∃ n : Nat, exponent = -(n : Int) := ⟨exponent.natAbs, by omega⟩
    have h := nearest_isNearest (digits * 2 ^ unitPlaces) (by positivity : 0 < 10 ^ n)
    rw [zpow_neg, zpow_natCast, neg_neg, Int.toNat_natCast]
    convert h using 1
    push_cast
    ring

/-- Reading a decimal gives the nearest double-precision number, and no other number is nearest. -/
theorem rounds_iff {d : Decimal} {x : Binary64} : d.Rounds x ↔ x = d.toBinary64 := by
  constructor
  · rintro ⟨hsign, hnear⟩
    obtain ⟨negative, m, hm⟩ := x
    obtain rfl : negative = d.negative := hsign
    obtain rfl : m = magnitude d.digits d.exponent := hnear.unique (magnitude_isNearest _ _)
    rfl
  · rintro rfl
    exact ⟨rfl, magnitude_isNearest _ _⟩

/-- Decimals with one value are read as one number. -/
theorem toBinary64_congr {d d' : Decimal} (hsign : d.negative = d'.negative)
    (hunits : d.units = d'.units) : d.toBinary64 = d'.toBinary64 := by
  refine rounds_iff.1 ⟨hsign, ?_⟩
  rw [← hunits]
  exact magnitude_isNearest _ _

end Decimal

end Descent
