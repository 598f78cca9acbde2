import Descent.Proofs.Json.Number

/-!
# Numbers are read whole

A number is all of a run of the characters that numbers are written with, or there is no number: no
part of a run that is malformed as a whole is ever read.  The second attempt of the rule for
numbers, with digits alone, comes only where there is no such run.  Then there are no digits either,
so that it always fails.
-/

namespace Descent.Json

open Descent.Text Descent.Parser

variable {b w r : List Char} {c next : Cursor}

/-! ## Runs and numerals -/

theorem ofChars?_eq_none_iff : Binary64.ofChars? w = none ↔ ¬ ∃ d, Decimal.Numeral w d := by
  rw [Binary64.ofChars?, Option.map_eq_none_iff, Option.eq_none_iff_forall_ne_some, not_exists]
  exact forall_congr' fun d => not_congr Decimal.ofChars?_eq_some_iff

theorem ofChars?_of_numeral {d : Decimal} (hd : Decimal.Numeral w d) :
    Binary64.ofChars? w = some d.toBinary64 :=
  ofChars?_eq_some_iff_numeral.2 ⟨d, hd, Decimal.rounds_iff.2 rfl⟩

/-- Digits alone are a numeral. -/
theorem numeral_of_digits (hw : All Char.isDigit w) (hne : w ≠ []) :
    Decimal.Numeral w ⟨false, Decimal.digitsValue w, 0⟩ := by
  have h := Decimal.Numeral.intro .none hw .none (fun h => hne h.1) .none
  simpa using h

/-- A run of numeric characters that are all digits is a run of digits. -/
theorem isRun_digits_of_isNumeric (hw : All Char.isDigit w) (h : IsRun isNumeric w r) :
    IsRun Char.isDigit w r := by
  refine ⟨hw, fun c hc => ?_⟩
  by_contra hdigit
  have hnumeric := isNumeric_of_isDigit (Bool.eq_true_of_not_eq_false hdigit)
  rw [h.2 c hc] at hnumeric
  cases hnumeric

/-! ## The scanners on a run -/

theorem run_float (h : IsRun isNumeric w r) :
    float.run ⟨b, w ++ r⟩ =
      if w = [] then .error (.expected "numeric literal" ⟨b, w ++ r⟩)
      else (Binary64.ofChars? w).elim (.error (.expected malformedFloat ⟨b, w ++ r⟩))
        fun x => .ok (x, ⟨w.reverse ++ b, r⟩) :=
  run_converted .numeric rfl malformedFloat h

/-- Digits are always a number, so that only their absence is a failure. -/
theorem run_integer (h : IsRun Char.isDigit w r) :
    integer.run ⟨b, w ++ r⟩ =
      if w = [] then .error (.expected "digits" ⟨b, w ++ r⟩)
      else .ok (Decimal.toBinary64 ⟨false, Decimal.digitsValue w, 0⟩, ⟨w.reverse ++ b, r⟩) := by
  have hrun : integer.run ⟨b, w ++ r⟩ = _ := run_converted .digits rfl "integer" h
  by_cases hne : w = []
  · rw [hrun, if_pos hne, if_pos hne]
    rfl
  · rw [hrun, if_neg hne, if_neg hne, ofChars?_of_numeral (numeral_of_digits h.1 hne)]
    rfl

theorem run_number_of_numeral (h : IsRun isNumeric w r) {d : Decimal} (hd : Decimal.Numeral w d) :
    float.run ⟨b, w ++ r⟩ = .ok (d.toBinary64, ⟨w.reverse ++ b, r⟩) ∧
      number.run ⟨b, w ++ r⟩ = .ok (.number d.toBinary64, ⟨w.reverse ++ b, r⟩) := by
  have hfloat : float.run ⟨b, w ++ r⟩ = .ok (d.toBinary64, ⟨w.reverse ++ b, r⟩) := by
    rw [run_float h, if_neg (ne_nil_of_numeral hd), ofChars?_of_numeral hd]
    rfl
  exact ⟨hfloat, run_number_of_ok hfloat⟩

theorem run_number_of_not_numeral (h : IsRun isNumeric w r) (hne : w ≠ [])
    (hd : ¬ ∃ d, Decimal.Numeral w d) :
    number.run ⟨b, w ++ r⟩ = .error (.expected malformedFloat ⟨b, w ++ r⟩) := by
  rw [run_number h, if_neg hne, ofChars?_eq_none_iff.2 hd]
  rfl

/-! ## The second attempt -/

/-- Every number is one that the scanner for floats reads. -/
theorem run_number_eq_ok_iff {v : Value} :
    number.run c = .ok (v, next) ↔ ∃ x, v = .number x ∧ float.run c = .ok (x, next) := by
  obtain ⟨b, t⟩ := c
  obtain ⟨w, r, rfl, hrun⟩ := exists_isRun isNumeric t
  rw [run_number hrun, run_float hrun]
  split
  · simp
  · rcases Binary64.ofChars? w with - | x <;> simp [eq_comm]

theorem run_integer_eq_ok_iff_isDigit :
    (∃ x next, integer.run c = .ok (x, next)) ↔ ∃ d ∈ c.peek?, d.isDigit = true := by
  obtain ⟨b, t⟩ := c
  obtain ⟨w, r, rfl, hrun⟩ := exists_isRun Char.isDigit t
  rw [run_integer hrun]
  cases w with
  | nil =>
    refine iff_of_false (fun ⟨x, next, h⟩ => by cases h) ?_
    rintro ⟨d, hd, hdigit⟩
    rw [hrun.2 d hd] at hdigit
    cases hdigit
  | cons d w =>
    refine iff_of_true ⟨_, _, if_neg (List.cons_ne_nil d w)⟩ ⟨d, rfl, ?_⟩
    exact (all_cons_iff.1 hrun.1).1

/-- Where there are no digits the scanner for integers says so, and it has no other failure. -/
theorem eq_expected_digits_of_run_integer {failure : Failure}
    (h : integer.run c = .error failure) : failure = .expected "digits" c := by
  obtain ⟨b, t⟩ := c
  obtain ⟨w, r, rfl, hrun⟩ := exists_isRun Char.isDigit t
  rw [run_integer hrun] at h
  split at h
  · cases h
    rfl
  · cases h

/-- Digits alone fail where no run of numeric characters is found. -/
theorem run_integer_of_run_float {failure : Failure} (h : float.run c = .error failure)
    (hfailure : failure.expectation ≠ malformedFloat) :
    integer.run c = .error (.expected "digits" c) := by
  obtain ⟨b, t⟩ := c
  obtain ⟨w, r, rfl, hrun⟩ := exists_isRun isNumeric t
  rw [run_float hrun] at h
  split at h
  · next hw =>
    subst hw
    rw [run_integer (isRun_digits_of_isNumeric (all_nil _) hrun), if_pos rfl]
  · rcases hx : Binary64.ofChars? w with - | x
    · rw [hx] at h
      cases h
      exact absurd rfl hfailure
    · rw [hx] at h
      cases h

/-- A run of digits is read the same as a number and as an integer. -/
theorem run_number_eq_run_integer (h : IsRun isNumeric w r) (hw : All Char.isDigit w) :
    number.run ⟨b, w ++ r⟩ = (Value.number <$> integer).run ⟨b, w ++ r⟩ := by
  rw [run_map, run_integer (isRun_digits_of_isNumeric hw h)]
  by_cases hne : w = []
  · rw [run_number h, if_pos hne, if_pos hne]
  · rw [if_neg hne, (run_number_of_numeral h (numeral_of_digits hw hne)).2]

/-! ## Numbers -/

/-- The longest run of numeric characters at a cursor decides.  If it is a numeral, all of it is
read, as the nearest double, by the rule for numbers as by the scanner for floats; if it is not,
none of it is.  The scanner for integers only adds its failure for the lack of digits: what the rule
for numbers reads is what the scanner for floats reads. -/
theorem number_never_split {w after : List Char} (hrest : c.rest = w ++ after)
    (hrun : IsRun isNumeric w after) :
    ((∃ v next, number.run c = .ok (v, next)) ↔ ∃ d, Decimal.Numeral w d) ∧
    (∀ d, Decimal.Numeral w d → ∃ x next, d.Rounds x ∧ c.Spans w next ∧
      float.run c = .ok (x, next) ∧ number.run c = .ok (.number x, next)) ∧
    (w ≠ [] → (¬ ∃ d, Decimal.Numeral w d) → number.run c = .error (.expected "float" c)) ∧
    (w = [] → number.run c = .error (.expected "digits" c)) ∧
    (∀ v next, number.run c = .ok (v, next) →
      ∃ x, v = .number x ∧ float.run c = .ok (x, next)) ∧
    (∀ failure, float.run c = .error failure → failure.expectation ≠ malformedFloat →
      integer.run c = .error (.expected "digits" c)) ∧
    (∀ failure, integer.run c = .error failure → failure = .expected "digits" c) ∧
    ((∃ x next, integer.run c = .ok (x, next)) ↔ ∃ d ∈ c.peek?, d.isDigit = true) ∧
    (All Char.isDigit w → number.run c = (Value.number <$> integer).run c) := by
  obtain ⟨b, t⟩ := c
  obtain rfl : t = w ++ after := hrest
  refine ⟨⟨?_, ?_⟩, fun d hd => ?_, run_number_of_not_numeral hrun, fun hw => ?_,
    fun v next => run_number_eq_ok_iff.1, fun failure => run_integer_of_run_float,
    fun failure => eq_expected_digits_of_run_integer, run_integer_eq_ok_iff_isDigit,
    run_number_eq_run_integer hrun⟩
  · rintro ⟨v, next, h⟩
    by_contra hd
    by_cases hne : w = []
    · rw [run_number hrun, if_pos hne] at h
      cases h
    · rw [run_number_of_not_numeral hrun hne hd] at h
      cases h
  · rintro ⟨d, hd⟩
    exact ⟨_, _, (run_number_of_numeral hrun hd).2⟩
  · obtain ⟨hfloat, hnumber⟩ := run_number_of_numeral (b := b) hrun hd
    exact ⟨_, _, Decimal.rounds_iff.2 rfl, Cursor.spans_append b w after, hfloat, hnumber⟩
  · rw [run_number hrun, if_pos hw]

/-- In `12e]` the digits are not split off the run that is no number, although they are one. -/
theorem number_never_split_malformed :
    (Cursor.start "12e]".toList).rest = "12e".toList ++ "]".toList ∧
      IsRun isNumeric "12e".toList "]".toList ∧
      number.run (.start "12e]".toList) = .error (.expected "float" (.start "12e]".toList)) ∧
      ∃ x, integer.run (.start "12e]".toList) = .ok (x, ⟨"21".toList, "e]".toList⟩) := by
  have hrun : IsRun isNumeric "12e".toList "]".toList := ⟨by decide, stops_cons_iff.2 (by decide)⟩
  have hdigits : IsRun Char.isDigit "12".toList "e]".toList :=
    ⟨by decide, stops_cons_iff.2 (by decide)⟩
  have hnot : ¬ ∃ d, Decimal.Numeral "12e".toList d := ofChars?_eq_none_iff.1 (by decide)
  obtain ⟨-, -, hmalformed, -⟩ := number_never_split (c := .start "12e]".toList) rfl hrun
  exact ⟨rfl, hrun, hmalformed (by decide) hnot, _, run_integer hdigits⟩

end Descent.Json
