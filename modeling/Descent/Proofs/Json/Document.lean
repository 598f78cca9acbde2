import Descent.Json.Document
import Descent.Proofs.Json.Grammar

/-!
# Documents that are read

A document is a spelling of a value with nothing but white space behind it.
-/

namespace Descent.Json

open Descent.Text Descent.Parser

variable {n : Nat}

/-- The empty word at the end of the text. -/
def textEnd : Language Unit := fun w _ r => w = [] ∧ r = []

theorem run_endOfInput (c : Cursor) :
    endOfInput.run c = if c.atEnd then .ok ((), c) else .error (.expected "end of input" c) :=
  rfl

theorem reads_endOfInput : Reads n endOfInput textEnd := by
  rintro ⟨b, t⟩ - ⟨⟩ next
  rw [run_endOfInput, Cursor.atEnd]
  cases t with
  | nil =>
    simp only [List.isEmpty_nil, if_true, Except.ok.injEq, Prod.mk.injEq, true_and]
    constructor
    · rintro rfl
      exact ⟨[], Cursor.spans_refl _, rfl, rfl⟩
    · rintro ⟨w, hs, rfl, -⟩
      exact (Cursor.spans_nil_iff.1 hs).symm
  | cons c t =>
    simp only [List.isEmpty_cons, Bool.false_eq_true, if_false, reduceCtorEq, false_iff]
    rintro ⟨w, hs, rfl, hr⟩
    obtain rfl := Cursor.spans_nil_iff.1 hs
    cases hr

/-- Complete documents. -/
def documents : Language Value := fun w v r =>
  ∃ u x, w = u ++ x ∧ r = [] ∧ Spells u v x ∧ Blank x

theorem reads_document : Reads n document documents := by
  have hread := reads_value.bind fun v => reads_whiteSpace.bind fun _ =>
    reads_endOfInput.bind fun _ => reads_pure (n := n) v
  refine Reads.congr hread fun {w v r} => ⟨?_, ?_⟩
  · rintro ⟨u, v, -, rfl, hu, x, -, -, rfl, ⟨-, hx, -⟩, -, -, -, rfl, ⟨rfl, hr⟩, rfl, rfl⟩
    obtain rfl : r = [] := hr
    exact ⟨u, x, by simp, rfl, by simpa using hu, hx.1⟩
  · rintro ⟨u, x, rfl, rfl, hu, hx⟩
    exact ⟨u, v, x ++ [], by simp, by simpa using hu, x, x, [], rfl,
      ⟨rfl, ⟨hx, stops_nil _⟩, Nat.zero_le _⟩, [], (), [], rfl, ⟨rfl, rfl⟩, rfl, rfl⟩

/-- A text is read completely exactly if it spells a value with nothing but white space behind
it. -/
theorem parseComplete_eq_ok_iff {text : String} {v : Value} :
    Id.run (parseComplete text) = .ok v ↔
      ∃ w x, text.toList = w ++ x ∧ Spells w v x ∧ Blank x := by
  have hread := @reads_document _ (.ofString text) (Nat.lt_succ_self _) v
  rw [run_parseComplete]
  constructor
  · intro h
    rcases hrun : document.run (.ofString text) with failure | ⟨v', next⟩
    · rw [hrun] at h
      cases h
    · rw [hrun] at h
      cases h
      obtain ⟨w, hs, u, x, rfl, hr, hu, hx⟩ := hread.1 hrun
      have hrest := hs.rest_eq
      rw [hr, List.append_nil] at hrest
      exact ⟨u, x, hrest, hu, hx⟩
  · rintro ⟨w, x, htext, hw, hx⟩
    obtain ⟨next, hs, hr⟩ := Cursor.exists_spans (c := Cursor.ofString text) (w := w ++ x) (r := [])
      (htext.trans (List.append_nil _).symm)
    rw [hread.2 ⟨_, hs, w, x, rfl, hr, hw, hx⟩]
    rfl

end Descent.Json
