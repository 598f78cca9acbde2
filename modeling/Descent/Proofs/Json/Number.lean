import Descent.Json.Number
import Descent.Proofs.Number.Nearest
import Descent.Proofs.Number.Numeral
import Descent.Proofs.Parser.Language

/-!
# The language of numbers

A number is a longest run of the characters that numbers are written with, if that run is a numeral.
Its value is the double-precision number nearest to the decimal that the numeral stands for.  Digits
alone are looked for only where there is no such character at all, so that this second attempt never
succeeds.
-/

namespace Descent.Json

open Descent.Text Descent.Parser

/-- The characters that numbers are written with. -/
def isNumeric (c : Char) : Bool := "0123456789.eE+-".toList.contains c

/-- Numbers in texts. -/
def numbers : Language Binary64 := fun w x r =>
  IsRun isNumeric w r ∧ ∃ d, Decimal.Numeral w d ∧ d.Rounds x

/-! ## The characters of a numeral -/

theorem mem_digits_of_isDigit {c : Char} (h : c.isDigit = true) : c ∈ "0123456789".toList := by
  have hall : ∀ n < 10, Char.ofNat ('0'.toNat + n) ∈ "0123456789".toList := by decide
  obtain ⟨hle, hge⟩ := Char.isDigit_iff_toNat.1 h
  have hn : c.toNat - '0'.toNat < 10 := by
    change c.toNat ≤ '0'.toNat + 9 at hge
    omega
  have hc := hall _ hn
  rwa [Nat.add_sub_cancel' hle, Char.ofNat_toNat] at hc

theorem isNumeric_of_isDigit {c : Char} (h : c.isDigit = true) : isNumeric c = true := by
  have hall : All isNumeric "0123456789".toList := by decide
  exact hall c (mem_digits_of_isDigit h)

theorem all_isNumeric_of_digits {ds : List Char} (h : All Char.isDigit ds) : All isNumeric ds :=
  fun c hc => isNumeric_of_isDigit (h c hc)

theorem all_isNumeric_of_sign {s : List Char} {negative : Bool} (h : Decimal.Sign s negative) :
    All isNumeric s := by
  cases h <;> decide

/-- A numeral is written with the characters of numbers. -/
theorem all_isNumeric_of_numeral {w : List Char} {d : Decimal} (h : Decimal.Numeral w d) :
    All isNumeric w := by
  obtain ⟨hs, hwhole, hf, -, hx⟩ := h
  refine all_append_iff.2 ⟨all_isNumeric_of_sign hs, all_append_iff.2
    ⟨all_isNumeric_of_digits hwhole, all_append_iff.2 ⟨?_, ?_⟩⟩⟩
  · cases hf with
    | none => exact all_nil _
    | point hds => exact all_cons_iff.2 ⟨by decide, all_isNumeric_of_digits hds⟩
  · cases hx with
    | none => exact all_nil _
    | power hc hs _ hds =>
      refine all_cons_iff.2 ⟨?_, all_append_iff.2
        ⟨all_isNumeric_of_sign hs, all_isNumeric_of_digits hds⟩⟩
      rcases hc with rfl | rfl <;> decide

theorem ne_nil_of_numeral {w : List Char} {d : Decimal} (h : Decimal.Numeral w d) : w ≠ [] := by
  obtain ⟨-, -, hf, hne, -⟩ := h
  intro hw
  simp only [List.append_eq_nil_iff] at hw
  obtain ⟨-, rfl, rfl, -⟩ := hw
  cases hf
  exact hne ⟨rfl, rfl⟩

theorem ofChars?_eq_some_iff_numeral {w : List Char} {x : Binary64} :
    Binary64.ofChars? w = some x ↔ ∃ d, Decimal.Numeral w d ∧ d.Rounds x := by
  rw [Binary64.ofChars?, Option.map_eq_some_iff]
  simp only [Decimal.ofChars?_eq_some_iff, Decimal.rounds_iff, eq_comm (a := x)]

/-! ## Reading -/

theorem run_converted (q : Pattern) (hq : q.quantifier.least = 1) (what : String)
    {b w r : List Char} (h : IsRun q.accepts.contains w r) :
    (converted q what).run ⟨b, w ++ r⟩ =
      if w = [] then .error (.expected q.what ⟨b, w ++ r⟩)
      else (Binary64.ofChars? w).elim (.error (.expected what ⟨b, w ++ r⟩))
        fun x => .ok (x, ⟨w.reverse ++ b, r⟩) := by
  have hpattern := run_pattern q h (b := b)
  rw [hq] at hpattern
  unfold converted
  simp only [Parser.run, Id.run] at hpattern ⊢
  rw [hpattern]
  cases w with
  | nil => rfl
  | cons c w =>
    have hlong : ¬ (c :: w).length < 1 := Nat.not_lt.2 (Nat.le_add_left 1 w.length)
    rw [if_neg hlong, if_neg (List.cons_ne_nil c w)]
    rcases hx : Binary64.ofChars? (c :: w) with - | x <;> simp only [hx] <;> rfl

theorem run_number_of_ok {c next : Cursor} {x : Binary64} (h : float.run c = .ok (x, next)) :
    number.run c = .ok (.number x, next) := by
  unfold number
  simp only [Parser.run, Id.run] at h ⊢
  rw [h]

theorem run_number_of_error {c : Cursor} {failure : Failure} (h : float.run c = .error failure) :
    number.run c = if failure.expectation = malformedFloat then .error failure
      else (Value.number <$> integer).run c := by
  unfold number
  simp only [Parser.run, Id.run] at h ⊢
  rw [h]

/-- A number is the whole run of characters that numbers are written with, or there is none. -/
theorem run_number {b w r : List Char} (h : IsRun isNumeric w r) :
    number.run ⟨b, w ++ r⟩ =
      if w = [] then .error (.expected "digits" ⟨b, w ++ r⟩)
      else (Binary64.ofChars? w).elim (.error (.expected malformedFloat ⟨b, w ++ r⟩))
        fun x => .ok (.number x, ⟨w.reverse ++ b, r⟩) := by
  have hfloat : float.run ⟨b, w ++ r⟩ = _ := run_converted .numeric rfl malformedFloat h
  cases w with
  | nil =>
    -- No run at all: the digits are then missing too.
    have hdigits : IsRun Char.isDigit [] r := by
      refine ⟨all_nil _, fun c hc => ?_⟩
      cases hd : c.isDigit with
      | false => rfl
      | true => exact (isNumeric_of_isDigit hd).symm.trans (h.2 c hc)
    have hinteger : integer.run ⟨b, [] ++ r⟩ = _ := run_converted .digits rfl "integer" hdigits
    rw [if_pos rfl] at hfloat hinteger
    have hdigitless : ¬ Pattern.numeric.what = malformedFloat := by decide
    rw [run_number_of_error hfloat, Failure.expectation, if_neg hdigitless, run_map, hinteger]
    rfl
  | cons c w =>
    rw [if_neg (List.cons_ne_nil c w)] at hfloat ⊢
    rcases hx : Binary64.ofChars? (c :: w) with - | x
    · rw [hx] at hfloat
      rw [run_number_of_error hfloat]
      exact if_pos rfl
    · rw [hx] at hfloat
      exact run_number_of_ok hfloat

theorem reads_number {n : Nat} : Reads n number (numbers.map Value.number) := by
  intro c _ v next
  obtain ⟨b, t⟩ := c
  obtain ⟨w, r, rfl, hrun⟩ := exists_isRun isNumeric t
  rw [run_number hrun]
  constructor
  · intro h
    split at h
    · cases h
    · rcases hx : Binary64.ofChars? w with - | x
      · rw [hx] at h
        cases h
      · rw [hx] at h
        cases h
        exact ⟨w, Cursor.spans_append b w r, x, rfl, hrun, ofChars?_eq_some_iff_numeral.1 hx⟩
  · rintro ⟨w', hs, x, rfl, hrun', d, hd, hx⟩
    obtain ⟨rfl, hr⟩ := hrun.unique hrun' hs.rest_eq
    rw [if_neg (ne_nil_of_numeral hd), ofChars?_eq_some_iff_numeral.2 ⟨d, hd, hx⟩]
    rw [(Cursor.spans_append b w r).unique hs]
    rfl

end Descent.Json
