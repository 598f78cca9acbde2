import Descent.Text.WhiteSpace

/-!
# Longest runs

The longest initial run of characters of one kind, stated without the function that finds it: all
its characters are of that kind and the next one, if there is one, is not.
-/

namespace Descent.Text

/-- No character of the kind comes first. -/
def Stops (p : Char → Bool) (r : List Char) : Prop := ∀ c ∈ r.head?, p c = false

/-- All the characters are of the kind. -/
def All (p : Char → Bool) (w : List Char) : Prop := ∀ c ∈ w, p c = true

/-- `w` is the longest run of characters of the kind at the start of `w ++ r`. -/
def IsRun (p : Char → Bool) (w r : List Char) : Prop := All p w ∧ Stops p r

instance (p : Char → Bool) (w : List Char) : Decidable (All p w) :=
  List.decidableBAll (fun c => p c = true) w

/-- All the characters are white space. -/
abbrev Blank (w : List Char) : Prop := All isWhiteSpace w

variable {p : Char → Bool} {c : Char} {u v w r : List Char}

theorem all_nil (p : Char → Bool) : All p [] := by simp [All]

theorem all_cons_iff : All p (c :: w) ↔ p c = true ∧ All p w := by simp [All]

theorem all_append_iff : All p (u ++ v) ↔ All p u ∧ All p v := by
  simp only [All, List.mem_append]
  constructor
  · exact fun h => ⟨fun c hc => h c (Or.inl hc), fun c hc => h c (Or.inr hc)⟩
  · rintro ⟨hu, hv⟩ c (hc | hc)
    · exact hu c hc
    · exact hv c hc

theorem stops_nil (p : Char → Bool) : Stops p [] := by simp [Stops]

theorem stops_cons_iff : Stops p (c :: r) ↔ p c = false := by simp [Stops]

theorem eq_nil_of_stops_append (hw : All p w) (h : Stops p (w ++ r)) : w = [] := by
  cases w with
  | nil => rfl
  | cons c w =>
    have hc := (all_cons_iff.1 hw).1
    rw [List.cons_append, stops_cons_iff, hc] at h
    cases h

theorem eq_nil_of_cons_eq_append (hw : All p w) (hc : p c = false) (e : c :: u = w ++ r) : w = [] :=
  eq_nil_of_stops_append hw (e ▸ stops_cons_iff.2 hc)

theorem takeWhile_append_of_isRun (h : IsRun p w r) : (w ++ r).takeWhile p = w := by
  obtain ⟨hw, hr⟩ := h
  induction w with
  | nil =>
    cases r with
    | nil => rfl
    | cons c r => simp [stops_cons_iff.1 hr]
  | cons c w ih =>
    obtain ⟨hc, hw⟩ := all_cons_iff.1 hw
    simp [hc, ih hw]

theorem dropWhile_append_of_isRun (h : IsRun p w r) : (w ++ r).dropWhile p = r := by
  have hsplit := List.takeWhile_append_dropWhile (p := p) (l := w ++ r)
  rw [takeWhile_append_of_isRun h] at hsplit
  exact List.append_cancel_left hsplit

/-- Every text is its longest run and what follows it. -/
theorem isRun_takeWhile_dropWhile (p : Char → Bool) (t : List Char) :
    IsRun p (t.takeWhile p) (t.dropWhile p) := by
  induction t with
  | nil => exact ⟨all_nil p, stops_nil p⟩
  | cons c t ih =>
    cases hc : p c with
    | true =>
      simp only [List.takeWhile_cons, List.dropWhile_cons, hc, if_true]
      exact ⟨all_cons_iff.2 ⟨hc, ih.1⟩, ih.2⟩
    | false =>
      simp only [List.takeWhile_cons, List.dropWhile_cons, hc, Bool.false_eq_true, if_false]
      exact ⟨all_nil p, stops_cons_iff.2 hc⟩

theorem exists_isRun (p : Char → Bool) (t : List Char) : ∃ w r, t = w ++ r ∧ IsRun p w r :=
  ⟨t.takeWhile p, t.dropWhile p, (List.takeWhile_append_dropWhile).symm,
    isRun_takeWhile_dropWhile p t⟩

/-- A text has only one longest run. -/
theorem IsRun.unique {w' r' : List Char} (h : IsRun p w r) (h' : IsRun p w' r')
    (e : w ++ r = w' ++ r') : w = w' ∧ r = r' := by
  have hw := takeWhile_append_of_isRun h
  have hr := dropWhile_append_of_isRun h
  rw [e] at hw hr
  exact ⟨hw.symm.trans (takeWhile_append_of_isRun h'), hr.symm.trans (dropWhile_append_of_isRun h')⟩

end Descent.Text
