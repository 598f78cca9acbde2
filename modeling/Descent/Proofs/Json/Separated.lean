import Descent.Proofs.Json.Entries

/-!
# Entries with commas between them

Most texts of containers have one comma between two entries and no other commas.  They are entries
if every single one is spelled properly, and only then: greedy reading comes out behind the comma of
an entry before it looks at the next one, so that no later text can make up for a bad entry.
-/

namespace Descent.Json

open Descent.Text

variable {α β : Type} {L : Language β} {close : Char}

/-! ## Commas -/

/-- Texts with commas between them. -/
def separated (text : α → List Char) (as : List α) : List Char := [','].intercalate (as.map text)

theorem separated_cons (text : α → List Char) (a : α) (as : List α) :
    separated text (a :: as) = text a ++ as.flatMap fun b => ',' :: text b := by
  unfold separated
  induction as generalizing a with
  | nil => simp
  | cons b as ih =>
    rw [List.map_cons, List.map_cons, List.intercalate_cons_cons, ← List.map_cons, ih b,
      List.flatMap_cons, List.append_assoc, List.singleton_append, List.cons_append]

theorem separated_cons_cons (text : α → List Char) (a b : α) (as : List α) :
    separated text (a :: b :: as) = text a ++ ',' :: separated text (b :: as) := by
  rw [separated_cons, separated_cons, List.flatMap_cons, List.cons_append]

theorem separated_singleton (text : α → List Char) (a : α) : separated text [a] = text a :=
  List.intercalate_singleton

theorem separated_map {γ : Type} {f : γ → α} {text : α → List Char} {text' : γ → List Char}
    {cs : List γ} (h : ∀ c ∈ cs, text (f c) = text' c) :
    separated text (cs.map f) = separated text' cs := by
  rw [separated, List.map_map, separated, List.map_congr_left (f := text ∘ f) h]

/-! ## White space behind numbers -/

theorem not_isNumeric_of_isWhiteSpace {c : Char} (h : isWhiteSpace c = true) :
    isNumeric c = false := by
  have hall : All (fun c => !isWhiteSpace c) "0123456789.eE+-".toList := by decide
  by_contra hc
  have hwhite := hall c (List.contains_iff_mem.1 (Bool.eq_true_of_not_eq_false hc))
  simp [h] at hwhite

/-- A number can end in front of white space. -/
theorem stops_isNumeric_append {y r : List Char} (hy : Blank y) (hr : Stops isNumeric r) :
    Stops isNumeric (y ++ r) := by
  cases y with
  | nil => exact hr
  | cons c y => exact stops_cons_iff.2 (not_isNumeric_of_isWhiteSpace (all_cons_iff.1 hy).1)

/-! ## Entries -/

/-- A closing bracket is not the first character of an entry. -/
theorem head_ne_close (h : Apart L close) {x u : List Char} (hx : Blank x) {c : Char}
    (hu : u.head? = some c) (hc : c ≠ close) (r s : List Char) : close :: s ≠ x ++ (u ++ r) := by
  obtain ⟨u, rfl⟩ := List.head?_eq_some_iff.1 hu
  intro e
  cases x with
  | nil => exact hc (List.cons.inj e).1.symm
  | cons d x =>
    have hd := (all_cons_iff.1 hx).1
    rw [← (List.cons.inj e).1, h.close_not_white] at hd
    cases hd

/-- An entry that is read begins behind the white space, and if it ends where a word ends, the white
space behind that word and a comma are read with it. -/
theorem Greedy.of_append_eq (h : Apart L close) {w r x t y tail : List Char} {b : β}
    (hw : Greedy L w b r) (hx : Blank x) (ht : Stops isWhiteSpace (t ++ (y ++ tail)))
    (hy : Blank y) (htail : Stops isWhiteSpace tail) (e : w ++ r = x ++ (t ++ (y ++ tail))) :
    ∃ u s, L u b s ∧ u ++ s = t ++ (y ++ tail) ∧
      (u = t → tail = ',' :: r ∨ ∀ q, tail ≠ ',' :: q) := by
  obtain ⟨hx', hu, hy', hk⟩ := hw
  simp only [List.append_assoc] at e hu hy'
  obtain ⟨-, e⟩ := IsRun.unique (p := isWhiteSpace) ⟨hx', h.stops hu⟩ ⟨hx, ht⟩ e
  refine ⟨_, _, hu, e, ?_⟩
  rintro rfl
  obtain ⟨-, rfl⟩ := hy'.unique ⟨hy, htail⟩ (List.append_cancel_left e)
  rcases hk with rfl | ⟨rfl, hk⟩
  · exact Or.inl rfl
  · exact Or.inr hk

section Padded

variable {before text after : α → List Char} (hbefore : ∀ a, Blank (before a))
  (hafter : ∀ a, Blank (after a))

include hbefore hafter

/-- Words with white space around them and commas between them are entries. -/
theorem entries_separated {meaning : α → β} (hclose : isNumeric close = false) (r : List Char)
    {as : List α} (h : ∀ a ∈ as, ∀ r, Stops isNumeric r → L (text a) (meaning a) r) :
    Entries L (separated (fun a => before a ++ (text a ++ after a)) as) (as.map meaning)
      (close :: r) := by
  induction as with
  | nil => exact .nil
  | cons a as ih =>
    rw [List.forall_mem_cons] at h
    cases as with
    | nil =>
      have hstop : Stops isNumeric (after a ++ ([] ++ ([] ++ close :: r))) :=
        stops_isNumeric_append (hafter a) (stops_cons_iff.2 hclose)
      have hlast := Entries.cons (hbefore a) (h.1 _ hstop) (hafter a) (Or.inl rfl) .nil
      simpa [separated_singleton] using hlast
    | cons b as =>
      have hrest := ih h.2
      have hstop : ∀ w, Stops isNumeric (after a ++ ([','] ++ (w ++ close :: r))) := fun _ =>
        stops_isNumeric_append (hafter a) (stops_cons_iff.2 (by decide))
      have hfirst := Entries.cons (hbefore a) (h.1 _ (hstop _)) (hafter a) (Or.inr rfl) hrest
      simpa [separated_cons_cons] using hfirst

/-- Where entries are read from words with white space around them and commas between them, each of
the words is proper: reading an entry comes out behind its comma before it looks at the next one. -/
theorem forall_of_many (h : Apart L close)
    (hunique : ∀ {u u' b b' r r'}, L u b r → L u' b' r' → u ++ r = u' ++ r' → u = u')
    {good : α → Prop} (hclose : isNumeric close = false) {as : List α}
    (hhead : ∀ a ∈ as, ∃ c u, text a = c :: u ∧ isWhiteSpace c = false ∧ c ≠ close)
    (hgood : ∀ a ∈ as, ∀ r, Stops isNumeric r → L.Begins (text a ++ r) → good a)
    (hword : ∀ a ∈ as, good a → ∀ r, Stops isNumeric r → ∃ b, L (text a) b r)
    {w q s : List Char} {bs : List β} (hw : (Greedy L).Many w bs (close :: s))
    (e : w ++ close :: s = separated (fun a => before a ++ (text a ++ after a)) as ++ close :: q) :
    ∀ a ∈ as, good a := by
  induction as generalizing w bs with
  | nil => exact List.forall_mem_nil _
  | cons a as ih =>
    rw [List.forall_mem_cons] at hhead hgood hword
    obtain ⟨c, t, ht, hc, hne⟩ := hhead.1
    rw [separated_cons, List.append_assoc] at e
    cases hw with
    | nil =>
      rw [List.append_assoc, List.append_assoc] at e
      exact absurd e (head_ne_close h (hbefore a) (ht ▸ rfl) hne _ _)
    | cons hentry hrest =>
      generalize htail :
        (as.flatMap fun b => ',' :: (before b ++ (text b ++ after b))) ++ close :: q = tail at e
      have htail' : Stops isNumeric tail ∧ Stops isWhiteSpace tail := by
        subst htail
        cases as with
        | nil => exact ⟨stops_cons_iff.2 hclose, stops_cons_iff.2 h.close_not_white⟩
        | cons a' as => exact ⟨stops_cons_iff.2 (by decide), stops_cons_iff.2 (by decide)⟩
      have hstop := stops_isNumeric_append (hafter a) htail'.1
      have hwhite : Stops isWhiteSpace (text a ++ (after a ++ tail)) := ht ▸ stops_cons_iff.2 hc
      simp only [List.append_assoc] at e
      obtain ⟨u, r, hu, e, hnext⟩ := hentry.of_append_eq h (hbefore a) hwhite (hafter a) htail'.2 e
      have ha : good a := hgood.1 _ hstop ⟨u, _, r, e.symm, hu⟩
      obtain ⟨b, hb⟩ := hword.1 ha _ hstop
      have hnext := hnext (hunique hu hb e)
      refine List.forall_mem_cons.2 ⟨ha, ?_⟩
      cases as with
      | nil => exact List.forall_mem_nil _
      | cons a' as =>
        subst htail
        rcases hnext with hnext | hnext
        · refine ih hhead.2 hgood.2 hword.2 hrest ?_
          rw [separated_cons]
          exact (List.cons.inj hnext).2.symm
        · exact absurd rfl (hnext _)

end Padded

/-- Words with commas between them and no white space are entries. -/
theorem entries_separated_of_words {text : α → List Char} {meaning : α → β}
    (hclose : isNumeric close = false) (r : List Char) {as : List α}
    (h : ∀ a ∈ as, ∀ r, Stops isNumeric r → L (text a) (meaning a) r) :
    Entries L (separated text as) (as.map meaning) (close :: r) := by
  have hentries := entries_separated (fun _ => all_nil _) (fun _ => all_nil _) hclose r h
  simpa only [List.nil_append, List.append_nil] using hentries

/-- Between the brackets of a container without entries there is nothing, not even white space. -/
theorem eq_nil_of_entries (h : Apart L close) {w gap q s : List Char} {bs : List β}
    (hw : Entries L w bs (close :: s)) (hgap : Blank gap)
    (e : w ++ close :: s = gap ++ close :: q) : gap = [] := by
  cases hw with
  | nil =>
    cases gap with
    | nil => rfl
    | cons d gap =>
      have hd := (all_cons_iff.1 hgap).1
      rw [← (List.cons.inj e).1, h.close_not_white] at hd
      cases hd
  | cons hx hu _ _ _ =>
    simp only [List.append_assoc] at e hu
    obtain ⟨-, e⟩ := IsRun.unique (p := isWhiteSpace) ⟨hx, h.stops hu⟩
      ⟨hgap, stops_cons_iff.2 h.close_not_white⟩ e
    obtain ⟨c, u, rfl, -, -, hc⟩ := h.begins hu
    exact absurd (List.cons.inj e).1 hc

end Descent.Json
