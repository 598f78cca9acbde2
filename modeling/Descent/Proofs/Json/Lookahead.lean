import Descent.Proofs.Json.Grammar

/-!
# What follows a value

A number ends where the characters that numbers are written with end, so that it depends on one
character behind it.  No other value depends on anything behind it: wherever its text comes, it is
read.  A text that breaks off inside such a value therefore has no value, for a shorter value at its
start would be a value at the start of the longer text too.
-/

namespace Descent.Json

open Descent.Text Descent.Parser

variable {α : Type}

/-! ## The text behind a spelling -/

/-- Only up to its first character can a text decide whether a run stops before it. -/
theorem stops_append_cons_iff {p : Char → Bool} {c : Char} {t r r' : List Char} :
    Stops p (t ++ c :: r) ↔ Stops p (t ++ c :: r') := by
  cases t with
  | nil => rw [List.nil_append, List.nil_append, stops_cons_iff, stops_cons_iff]
  | cons d t => rw [List.cons_append, List.cons_append, stops_cons_iff, stops_cons_iff]

/-- What the words of one language need behind them to be words of the other language is at most
that a number can end there. -/
def Continues (L M : Language α) : Prop :=
  ∀ ⦃w a r r'⦄, L w a r → (Stops isNumeric r → Stops isNumeric r') → M w a r'

theorem Continues.keyed {L M : Language Value} (h : Continues L M) :
    Continues (Keyed L) (Keyed M) := by
  rintro w field r r' ⟨hu, hy, hz, hv⟩ hr
  exact .intro hu hy hz (h hv hr)

/-- Entries up to a closing bracket do not depend on what is behind that. -/
theorem Continues.entries {L M : Language α} (h : Continues L M) {close : Char}
    {w r r' : List Char} {as : List α} (hw : Entries L w as (close :: r)) :
    Entries M w as (close :: r') := by
  generalize ht : close :: r = t at hw
  induction hw with
  | nil => exact .nil
  | cons hx hu hy hk _ ih =>
    rename_i x u y k w t a as
    subst ht
    refine .cons hx (h hu fun hstop => ?_) hy hk (ih rfl)
    rw [← List.append_assoc, ← List.append_assoc] at hstop ⊢
    exact stops_append_cons_iff.1 hstop

/-- A spelling needs no more behind it than that a number can end there. -/
theorem continues_spells : Continues Spells Spells := by
  intro w v r r' h
  have hparts : Continues (fun u v s => Spells u v s ∧ ∀ s',
      (Stops isNumeric s → Stops isNumeric s') → Spells u v s') Spells := fun _ _ _ _ h => h.2 _
  refine Spells.induct (P := fun w v r => ∀ r', (Stops isNumeric r → Stops isNumeric r') →
    Spells w v r') (fun _ _ => .null) (fun b _ _ => .bool b) ?_ (fun hu _ _ => .string hu)
    ?_ ?_ h r'
  · intro w r x hx r' hr
    exact .number ⟨⟨hx.1.1, hr hx.1.2⟩, hx.2⟩
  · intro w r items hitems r' _
    exact .array (hparts.entries hitems)
  · intro w r fields hfields r' _
    exact .object (hparts.keyed.entries hfields)

/-- What has a spelling other than that of a number is spelled so in front of every text. -/
theorem Spells.of_number?_eq_none {w r : List Char} {v : Value} (h : Spells w v r)
    (hv : v.number? = none) (r' : List Char) : Spells w v r' := by
  cases h with
  | null => exact .null
  | bool b => exact .bool b
  | number _ => cases hv
  | string hu => exact .string hu
  | array hitems => exact .array (continues_spells.entries hitems)
  | object hfields => exact .object (continues_spells.keyed.entries hfields)

/-- The first character of a spelling tells whether it is that of a number. -/
theorem Spells.number?_eq_none_iff {c : Char} {u r : List Char} {v : Value}
    (h : Spells (c :: u) v r) : v.number? = none ↔ isNumeric c = false := by
  generalize hw : c :: u = w at h
  cases h with
  | null =>
    cases hw
    exact iff_of_true rfl (by decide)
  | bool b =>
    cases b <;> cases hw <;> exact iff_of_true rfl (by decide)
  | number h =>
    subst hw
    simp [Value.number?, (all_cons_iff.1 h.1.1).1]
  | string _ | array _ | object _ =>
    cases hw
    exact iff_of_true rfl (by decide)

/-! ## Texts that break off -/

/-- No value comes first in a text that breaks off inside a value other than a number. -/
theorem not_begins_of_truncated {u t r : List Char} {v : Value} (h : Spells (u ++ t) v r)
    (hv : v.number? = none) (ht : t ≠ []) : ¬ Language.Begins Spells u := by
  rintro ⟨w, v', s, rfl, hw⟩
  obtain ⟨c, -, w, rfl⟩ := beginsIn_spells hw
  have hc : isNumeric c = false := h.number?_eq_none_iff.1 hv
  have hw' := hw.of_number?_eq_none (hw.number?_eq_none_iff.2 hc) (s ++ t ++ r)
  obtain ⟨e, -⟩ := hw'.unique h (by simp)
  have hlen := congrArg List.length e
  have hpos := List.length_pos_iff.2 ht
  simp only [List.length_append] at hlen
  omega

/-- A value other than a number is read again wherever its text comes, and a number wherever its
text comes and the run ends with it.  A text that breaks off inside a value other than a number is
refused at its start. -/
theorem run_value_of_slice {c next : Cursor} {v : Value} (h : value.run c = .ok (v, next)) :
    (∀ (c' : Cursor) (after : List Char), c'.rest = c.sliceTo next ++ after →
      v.number? = none ∨ Stops isNumeric after →
      ∃ next', value.run c' = .ok (v, next') ∧ c'.Spans (c.sliceTo next) next' ∧
        next'.position = c'.position + byteLength (c.sliceTo next)) ∧
    (v.number? = none → ∀ text missing, c.sliceTo next = text ++ missing → missing ≠ [] →
      ∃ failure, Id.run (parse (String.ofList text)) = .error failure ∧
        failure = .noneMatched (.start text) ∧ failure.position = 0) := by
  obtain ⟨w, hs, hw⟩ := run_value_eq_ok_iff.1 h
  rw [hs.sliceTo_eq]
  refine ⟨fun c' after hrest hafter => ?_, ?_⟩
  · obtain ⟨next', hs', rfl⟩ := Cursor.exists_spans hrest
    refine ⟨next', run_value_eq_ok_iff.2 ⟨w, hs', ?_⟩, hs', hs'.position_eq⟩
    rcases hafter with hv | hstop
    · exact hw.of_number?_eq_none hv _
    · exact continues_spells hw fun _ => hstop
  · rintro hv text missing rfl hmissing
    refine ⟨_, ?_, rfl, rfl⟩
    rw [run_parse, Cursor.ofString, String.toList_ofList]
    have hbegins := not_begins_of_truncated hw hv hmissing
    rw [run_value_eq_error_iff.2 hbegins]
    rfl

/-- The text of a list is read again in front of more text, and refused without its bracket. -/
theorem run_value_of_slice_list :
    value.run (.start "[null]".toList) = .ok (.array [.null], ⟨"[null]".toList.reverse, []⟩) ∧
      ((∃ next, value.run ⟨['a'], "[null]1".toList⟩ = .ok (.array [.null], next) ∧
          next.position = 7) ∧
        ∃ failure, Id.run (parse (String.ofList "[null".toList)) = .error failure ∧
          failure.position = 0) := by
  have hentries : Entries Spells "null".toList [.null] [']'] :=
    .cons (x := []) (y := []) (k := []) (all_nil _) Spells.null (all_nil _) (Or.inl rfl) .nil
  have hrun : value.run (.start "[null]".toList) =
      .ok (.array [.null], ⟨"[null]".toList.reverse, []⟩) :=
    run_value_eq_ok_iff.2 ⟨"[null]".toList, ⟨rfl, rfl⟩, .array hentries⟩
  obtain ⟨hmore, hless⟩ := run_value_of_slice hrun
  refine ⟨hrun, ?_, ?_⟩
  · obtain ⟨next, hnext, -, hposition⟩ := hmore ⟨['a'], "[null]1".toList⟩ ['1'] rfl (Or.inl rfl)
    exact ⟨next, hnext, hposition⟩
  · obtain ⟨failure, hfailure, -, hposition⟩ := hless rfl "[null".toList [']'] rfl (by decide)
    exact ⟨failure, hfailure, hposition⟩

end Descent.Json
