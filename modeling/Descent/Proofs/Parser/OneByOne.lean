import Descent.Proofs.Parser.Repetition
import Descent.Proofs.Parser.Reverting

/-!
# Runs, one character at a time

A pattern measures its run at one go.  A run of listed characters can also be read step by step, as
a repetition of a choice between literals of one character each.  Both ways stop at the same place
and read the same text.
-/

namespace Descent.Parser

open Text

variable {p : Char → Bool} {b w r : List Char} {chars : List Char} {c : Cursor} {x : Char}

/-- One of the characters, each of them as a literal. -/
def literalsOf (chars : List Char) : Parser Id (List Char) :=
  any (chars.map fun x => literal (String.singleton x))

/-! ## One character -/

theorem run_literal_singleton (b : List Char) (x : Char) (r : List Char) :
    (literal (String.singleton x)).run ⟨b, x :: r⟩ = .ok ([x], ⟨x :: b, r⟩) := by
  have h := run_literal (String.singleton x) b r
  rw [String.toList_singleton] at h
  exact h

theorem run_literal_singleton_of_head?_ne (h : c.rest.head? ≠ some x) :
    (literal (String.singleton x)).run c = .error (.expected (quoted (String.singleton x)) c) := by
  apply run_literal_of_not_isPrefix
  rintro ⟨r, hr⟩
  rw [String.toList_singleton] at hr
  exact h (by rw [← hr]; rfl)

/-- Where one of the characters comes next, the choice reads it: the literals before it in the
list are of other characters. -/
theorem run_literalsOf_of_mem (h : x ∈ chars) :
    (literalsOf chars).run ⟨b, x :: r⟩ = .ok ([x], ⟨x :: b, r⟩) := by
  unfold literalsOf
  induction chars with
  | nil => cases h
  | cons y ys ih =>
    rw [List.map_cons, run_any_cons]
    by_cases hy : x = y
    · subst hy
      rw [run_literal_singleton]
    · have hne : (⟨b, x :: r⟩ : Cursor).rest.head? ≠ some y := by simpa using hy
      rw [run_literal_singleton_of_head?_ne hne]
      exact ih ((List.mem_cons.1 h).resolve_left hy)

theorem run_literalsOf_of_stops (h : Stops chars.contains c.rest) :
    (literalsOf chars).run c = .error (.noneMatched c) := by
  unfold literalsOf
  induction chars with
  | nil => rfl
  | cons y ys ih =>
    have hboth : ∀ z ∈ c.rest.head?, z ≠ y ∧ z ∉ ys := by simpa [Stops] using h
    have hne : c.rest.head? ≠ some y := fun hz => (hboth y hz).1 rfl
    rw [List.map_cons, run_any_cons, run_literal_singleton_of_head?_ne hne]
    apply ih
    intro z hz
    simpa using (hboth z hz).2

theorem advances_literalsOf (chars : List Char) : (literalsOf chars).Advances := by
  apply Advances.any
  intro q hq
  obtain ⟨x, -, rfl⟩ := List.mem_map.1 hq
  apply advances_literal
  simp

/-! ## Runs -/

/-- The characters of a run are read one after the other, and the repetition ends where the run
does. -/
theorem exists_maximal_literalsOf (b : List Char) (h : IsRun chars.contains w r) :
    ∃ stops, Maximal (literalsOf chars) ⟨b, w ++ r⟩ (w.map ([·])) stops ⟨w.reverse ++ b, r⟩ := by
  obtain ⟨hw, hr⟩ := h
  induction w generalizing b with
  | nil => exact ⟨[], .nil, _, run_literalsOf_of_stops hr⟩
  | cons x w ih =>
    obtain ⟨hx, hw⟩ := all_cons_iff.1 hw
    have hmem : x ∈ chars := by simpa using hx
    obtain ⟨stops, hsuccesses, hfails⟩ := ih (x :: b) hw
    rw [List.reverse_cons, List.append_assoc]
    exact ⟨_, .cons (run_literalsOf_of_mem hmem) hsuccesses, hfails⟩

theorem run_many_literalsOf (b : List Char) (h : IsRun chars.contains w r) :
    (many (literalsOf chars)).run ⟨b, w ++ r⟩ = .ok (w.map ([·]), ⟨w.reverse ++ b, r⟩) := by
  obtain ⟨stops, hmaximal⟩ := exists_maximal_literalsOf b h
  exact hmaximal.run_many (advances_literalsOf chars)

/-- Every initial segment of accepted characters is part of the longest one. -/
theorem prefix_of_isRun (h : IsRun p w r) {u : List Char} (hu : u <+: w ++ r) (hall : All p u) :
    u <+: w := by
  rcases List.prefix_or_prefix_of_prefix hu (List.prefix_append w r) with hshort | ⟨v, rfl⟩
  · exact hshort
  · obtain ⟨t, ht⟩ := hu
    rw [List.append_assoc] at ht
    have hr : r = v ++ t := (List.append_cancel_left ht).symm
    have hv := (all_append_iff.1 hall).2
    obtain rfl : v = [] := eq_nil_of_stops_append hv (hr ▸ h.2)
    exact ⟨[], by rw [List.append_nil, List.append_nil]⟩

theorem run_pattern_zeroOrMore (what : String) (accepts : CharClass) (b : List Char)
    (h : IsRun accepts.contains w r) :
    (pattern ⟨what, accepts, .zeroOrMore⟩).run ⟨b, w ++ r⟩ = .ok (w, ⟨w.reverse ++ b, r⟩) := by
  rw [run_pattern _ h]
  exact if_neg (Nat.not_lt_zero _)

theorem run_pattern_oneOrMore (what : String) (accepts : CharClass) (b : List Char)
    (h : IsRun accepts.contains w r) :
    (pattern ⟨what, accepts, .oneOrMore⟩).run ⟨b, w ++ r⟩ =
      if w = [] then .error (.expected what ⟨b, w ++ r⟩)
      else .ok (w, ⟨w.reverse ++ b, r⟩) := by
  rw [run_pattern _ h]
  have hshort : w.length < Quantifier.oneOrMore.least ↔ w = [] := by simp [Quantifier.least]
  by_cases hw : w = []
  · rw [if_pos (hshort.2 hw), if_pos hw]
  · rw [if_neg (mt hshort.1 hw), if_neg hw]

/-- A pattern of listed characters and a repetition of literals of these characters stop at the
same cursor, and the pattern reads what the literals read one after the other.  If the run must not
be empty, the pattern succeeds exactly where there are such literals, and otherwise fails where it
started.  Whatever characters a pattern accepts, it reads the longest initial segment of them. -/
theorem pattern_agrees_with_literals (what : String) (c : Cursor) :
    (∀ chars : List Char, ∃ words last,
      (many (any (chars.map fun x => literal (String.singleton x)))).run c = .ok (words, last) ∧
      (pattern ⟨what, .oneOf chars, .zeroOrMore⟩).run c = .ok (words.flatten, last) ∧
      (pattern ⟨what, .oneOf chars, .oneOrMore⟩).run c =
        if words = [] then .error (.expected what c) else .ok (words.flatten, last)) ∧
    ∀ accepts : CharClass, ∃ slice last,
      (pattern ⟨what, accepts, .zeroOrMore⟩).run c = .ok (slice, last) ∧
      (pattern ⟨what, accepts, .oneOrMore⟩).run c =
        (if slice = [] then .error (.expected what c) else .ok (slice, last)) ∧
      c.Spans slice last ∧ All accepts.contains slice ∧
      (∀ x, last.peek? = some x → accepts.contains x = false) ∧
      ∀ u, u <+: c.rest → All accepts.contains u → u <+: slice := by
  obtain ⟨b, t⟩ := c
  refine ⟨fun chars => ?_, fun accepts => ?_⟩
  · obtain ⟨w, r, rfl, hrun⟩ := exists_isRun (CharClass.oneOf chars).contains t
    have hflatten : (w.map ([·])).flatten = w := by rw [← List.flatMap_def, List.flatMap_singleton']
    refine ⟨w.map ([·]), ⟨w.reverse ++ b, r⟩, run_many_literalsOf b hrun, ?_, ?_⟩
    · rw [hflatten]
      exact run_pattern_zeroOrMore what _ b hrun
    · rw [hflatten, run_pattern_oneOrMore what _ b hrun]
      cases w with
      | nil => rfl
      | cons x w => rfl
  · obtain ⟨w, r, rfl, hrun⟩ := exists_isRun accepts.contains t
    exact ⟨w, ⟨w.reverse ++ b, r⟩, run_pattern_zeroOrMore what accepts b hrun,
      run_pattern_oneOrMore what accepts b hrun, Cursor.spans_append b w r, hrun.1, hrun.2,
      fun u hu hall => prefix_of_isRun hrun hu hall⟩

/-- Characters with the same first byte are told apart: `ê` is neither of the two. -/
example : (pattern ⟨"accented", .oneOf ['é', 'è'], .zeroOrMore⟩).run (.ofString "éèê") =
    .ok ("éè".toList, ⟨"èé".toList, ['ê']⟩) := by
  rfl

end Descent.Parser
