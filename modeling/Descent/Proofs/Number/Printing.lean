import Mathlib.Tactic.Ring
import Descent.Number.Positional
import Descent.Proofs.Number.Nearest
import Descent.Proofs.Number.Numeral

/-!
# The texts of numbers

The text of a finite number reads back as that number.  The search for the fewest digits only stops
at a decimal that reads back, at the latest at the exact value.  Positional notation may move zeros
between the digits and the exponent, which changes neither the sign nor the value.
-/

namespace Descent

open Text

namespace Decimal

/-! ## Digits -/

theorem digitsValue_eq_ofDigitChars (ds : List Char) : digitsValue ds = Nat.ofDigitChars 10 ds 0 :=
  rfl

theorem digitsValue_append (u v : List Char) :
    digitsValue (u ++ v) = 10 ^ v.length * digitsValue u + digitsValue v := by
  simp only [digitsValue_eq_ofDigitChars, Nat.ofDigitChars_append]
  exact Nat.ofDigitChars_eq_ofDigitChars_zero

theorem digitsValue_replicate_zero (n : Nat) : digitsValue (List.replicate n '0') = 0 := by
  rw [digitsValue_eq_ofDigitChars, Nat.ofDigitChars_replicate_zero, Nat.mul_zero]

theorem digitsValue_toDigits (n : Nat) : digitsValue (Nat.toDigits 10 n) = n :=
  Nat.ofDigitChars_ten_toDigits

theorem all_isDigit_toDigits (n : Nat) : All Char.isDigit (Nat.toDigits 10 n) :=
  fun _ hc => Nat.isDigit_of_mem_toDigits (by decide) (by decide) hc

/-- Without the zeros at its end a text is the same up to those zeros. -/
theorem exists_dropZeros (ds : List Char) : ∃ zeros : Nat,
    ds = (ds.reverse.dropWhile (· = '0')).reverse ++ List.replicate zeros '0' := by
  have hsplit := List.takeWhile_append_dropWhile (p := (· = '0')) (l := ds.reverse)
  have hzeros : ∀ c ∈ ds.reverse.takeWhile (· = '0'), c = '0' := fun c hc =>
    of_decide_eq_true ((isRun_takeWhile_dropWhile _ ds.reverse).1 c hc)
  rw [List.eq_replicate_of_mem hzeros] at hsplit
  refine ⟨(ds.reverse.takeWhile (· = '0')).length, ?_⟩
  calc ds = ds.reverse.reverse := ds.reverse_reverse.symm
    _ = _ := by rw [← hsplit, List.reverse_append, List.reverse_replicate, hsplit]

/-- The digits after the point stand for a number below a power of ten, up to zeros at their end. -/
theorem exists_fractionDigits {places n : Nat} (hplaces : 0 < places) (hn : n < 10 ^ places) :
    ∃ zeros, places = (fractionDigits places n).length + zeros ∧
      n = 10 ^ zeros * digitsValue (fractionDigits places n) ∧
      All Char.isDigit (fractionDigits places n) := by
  obtain ⟨zeros, hzeros⟩ := exists_dropZeros
    (List.replicate (places - (Nat.toDigits 10 n).length) '0' ++ Nat.toDigits 10 n)
  change _ = fractionDigits places n ++ List.replicate zeros '0' at hzeros
  have hlen := (Nat.length_toDigits_le_iff (by decide : 1 < 10) hplaces).2 hn
  refine ⟨zeros, ?_, ?_, fun c hc => ?_⟩
  · have := congrArg List.length hzeros
    simp only [List.length_append, List.length_replicate] at this
    omega
  · have := congrArg digitsValue hzeros
    simpa [digitsValue_append, digitsValue_replicate_zero, digitsValue_toDigits] using this
  · have hmem : c ∈ fractionDigits places n ++ List.replicate zeros '0' :=
      List.mem_append_left _ hc
    rw [← hzeros, List.mem_append] at hmem
    rcases hmem with hmem | hmem
    · rw [List.eq_of_mem_replicate hmem]
      decide
    · exact all_isDigit_toDigits n c hmem

/-! ## Positional notation -/

/-- Zeros can be moved from the digits to the exponent. -/
theorem units_mul_pow (s : Bool) (n k : Nat) (e : Int) :
    units ⟨s, 10 ^ k * n, e⟩ = units ⟨s, n, e + k⟩ := by
  simp only [units]
  rw [zpow_add₀ (by norm_num), zpow_natCast]
  push_cast
  ring

theorem sign_of_negative (negative : Bool) : Sign (if negative then ['-'] else []) negative := by
  cases negative
  · exact .none
  · exact .minus

/-- Digits, and a point with more digits behind them if there are more. -/
theorem positionalMagnitude_of_neg (digits : Nat) {places : Nat} (hplaces : 0 < places) :
    ∃ f, Fraction f (fractionDigits places (digits % 10 ^ places)) ∧
      positionalMagnitude digits (-(places : Int)) =
        Nat.toDigits 10 (digits / 10 ^ places) ++ f := by
  obtain ⟨-, -, -, hdigits⟩ := exists_fractionDigits (n := digits % 10 ^ places) hplaces
    (Nat.mod_lt _ (Nat.pow_pos (by decide)))
  have hneg : ¬ (0 : Int) ≤ -(places : Int) := by omega
  rw [positionalMagnitude, if_neg hneg, neg_neg, Int.toNat_natCast]
  dsimp only
  generalize fractionDigits places (digits % 10 ^ places) = fraction at hdigits ⊢
  cases fraction with
  | nil => exact ⟨[], .none, (List.append_nil _).symm⟩
  | cons c ds => exact ⟨'.' :: c :: ds, .point hdigits, rfl⟩

/-- Positional notation is a numeral for a decimal with the same sign and the same value. -/
theorem exists_numeral_positional (d : Decimal) :
    ∃ d', Numeral d.positional d' ∧ d'.negative = d.negative ∧ d'.units = d.units := by
  obtain ⟨negative, digits, exponent⟩ := d
  have hsign := sign_of_negative negative
  rcases lt_or_ge exponent 0 with hexponent | hexponent
  · obtain ⟨places, rfl⟩ : ∃ n : Nat, exponent = -(n : Int) := ⟨exponent.natAbs, by omega⟩
    have hplaces : 0 < places := by omega
    obtain ⟨zeros, hlen, hvalue, -⟩ := exists_fractionDigits (n := digits % 10 ^ places) hplaces
      (Nat.mod_lt _ (Nat.pow_pos (by decide)))
    obtain ⟨f, hf, htext⟩ := positionalMagnitude_of_neg digits hplaces
    generalize fractionDigits places (digits % 10 ^ places) = fraction at hlen hvalue hf
    refine ⟨⟨negative, digitsValue (Nat.toDigits 10 (digits / 10 ^ places) ++ fraction),
      0 - fraction.length⟩, ?_, rfl, ?_⟩
    · have hnumeral := Numeral.intro hsign (all_isDigit_toDigits (digits / 10 ^ places)) hf
        (fun h => Nat.toDigits_ne_nil h.1) .none
      rw [List.append_nil, ← htext] at hnumeral
      exact hnumeral
    · have hexact : digits =
          10 ^ zeros * digitsValue (Nat.toDigits 10 (digits / 10 ^ places) ++ fraction) := by
        rw [digitsValue_append, digitsValue_toDigits, Nat.mul_add, ← hvalue, ← Nat.mul_assoc,
          ← Nat.pow_add, Nat.add_comm zeros, ← hlen, Nat.div_add_mod]
      have hshift : (0 : Int) - fraction.length = -(places : Int) + zeros := by omega
      rw [hshift, ← units_mul_pow, ← hexact]
  · obtain ⟨k, rfl⟩ := Int.eq_ofNat_of_zero_le hexponent
    refine ⟨⟨negative, digitsValue (Nat.toDigits 10 (digits * 10 ^ k)), 0⟩, ?_, rfl, ?_⟩
    · have hnumeral := Numeral.intro hsign (all_isDigit_toDigits (digits * 10 ^ k)) .none
        (fun h => Nat.toDigits_ne_nil h.1) .none
      simpa [positional, positionalMagnitude] using hnumeral
    · rw [digitsValue_toDigits, Nat.mul_comm, units_mul_pow, zero_add]

end Decimal

namespace Binary64

/-! ## The fewest digits -/

theorem readsBack_of_neighbour? {k place n : Nat} (h : neighbour? k place = some n) :
    readsBack k place n = true := by
  simp only [neighbour?] at h
  split at h
  · next hlow hhigh =>
    cases h
    split
    · exact hlow
    · exact hhigh
  · next hlow _ =>
    cases h
    exact hlow
  · next _ hhigh =>
    cases h
    exact hhigh
  · cases h

theorem five_pow_mul_mul_zpow (n : ℚ) (places : Nat) :
    5 ^ places * n * 10 ^ (-(places : Int)) * 2 ^ places = n := by
  have hten : (10 : ℚ) ^ places = 5 ^ places * 2 ^ places := by
    rw [← mul_pow]
    norm_num
  rw [zpow_neg, zpow_natCast, hten]
  field_simp

/-- On the finest grid a magnitude is exact. -/
theorem magnitude_decimalUnits {k : Nat} (hk : k ≤ infinity) :
    Decimal.magnitude (decimalUnits k) (-(unitPlaces : Int)) = k := by
  have hcast : (decimalUnits k : ℚ) = 5 ^ unitPlaces * units k := by
    rw [decimalUnits, Nat.cast_mul, Nat.cast_pow, Nat.cast_ofNat]
  have hnear := Decimal.magnitude_isNearest (decimalUnits k) (-(unitPlaces : Int))
  rw [hcast, five_pow_mul_mul_zpow] at hnear
  exact hnear.unique (isNearest_units hk)

/-- Whatever the search finds reads back. -/
theorem magnitude_firstNeighbour {k : Nat} (hk : k ≤ infinity) (place : Nat) :
    Decimal.magnitude (firstNeighbour k place).1 ((firstNeighbour k place).2 - unitPlaces) = k := by
  induction place with
  | zero =>
    rw [firstNeighbour, Nat.cast_zero, zero_sub]
    exact magnitude_decimalUnits hk
  | succ place ih =>
    rw [firstNeighbour]
    split
    · next n hn => exact of_decide_eq_true (readsBack_of_neighbour? hn)
    · exact ih

theorem toBinary64_shortest {x : Binary64} (hx : x.isFinite = true) :
    x.shortest.toBinary64 = x := by
  obtain ⟨negative, k, hlt⟩ := x
  have hk : k ≤ infinity := Nat.le_of_lt (of_decide_eq_true hx)
  simp only [shortest, Decimal.toBinary64, magnitude_firstNeighbour hk]

/-- The text of a finite number is a numeral for a decimal that rounds to it. -/
theorem exists_numeral_toChars {x : Binary64} (hx : x.isFinite = true) :
    ∃ d, Decimal.Numeral x.toChars d ∧ d.Rounds x := by
  obtain ⟨d, hd, hsign, hunits⟩ := Decimal.exists_numeral_positional x.shortest
  refine ⟨d, hd, Decimal.rounds_iff.2 ?_⟩
  rw [Decimal.toBinary64_congr hsign hunits, toBinary64_shortest hx]

end Binary64

end Descent
