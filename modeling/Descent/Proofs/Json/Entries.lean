import Descent.Proofs.Json.Spelling

/-!
# Entries of containers

The rules for arrays and objects read white space as far as it goes, take a comma where there is one
and never give an entry back.  The spellings of containers leave all of that open.  The main
statement is `many_greedy_iff`: up to the closing bracket the two agree, because neither white space
nor a comma can begin an entry.
-/

namespace Descent.Json

open Descent.Text Descent.Parser

variable {α β : Type} {n : Nat}

/-! ## The rules as parsers for entries -/

/-- What the parser reads, with white space around it and an optional comma. -/
def entry (p : Parser Id α) : Parser Id α := do
  let _ ← whiteSpace
  let a ← p
  let _ ← whiteSpace
  let _ ← optionalComma
  pure a

/-- A key, a colon and what the parser reads. -/
def keyed (p : Parser Id Value) : Parser Id (String × Value) := do
  let key ← stringLiteral
  let _ ← whiteSpace
  let _ ← literal ":"
  let _ ← whiteSpace
  let item ← p
  pure (String.ofList key, item)

/-- Entries between brackets. -/
def enclosed (opener closer : String) (f : List α → β) (p : Parser Id α) : Parser Id β := do
  let _ ← literal opener
  let as ← many (entry p)
  let _ ← literal closer
  pure (f as)

theorem field_eq (p : Parser Id Value) : field p = entry (keyed p) := by
  simp only [field, entry, keyed, bind_assoc, pure_bind]

theorem arrayOf_eq (p : Parser Id Value) : arrayOf p = enclosed "[" "]" Value.array p := rfl

theorem objectOf_eq (p : Parser Id Value) :
    objectOf p =
      enclosed "\x7b" "\x7d" (fun fields => .object (Fields.ofPairs fields)) (keyed p) := by
  rw [objectOf, enclosed, field_eq]

/-! ## The language of an entry -/

/-- An entry as it is read: no white space is left behind it, and a comma only if one was taken
already. -/
inductive Greedy (L : Language α) : Language α where
  | intro {x u y k r : List Char} {a : α} : Blank x → L u a (y ++ (k ++ r)) →
      IsRun isWhiteSpace y (k ++ r) → k = [','] ∨ k = [] ∧ (∀ s, r ≠ ',' :: s) →
      Greedy L (x ++ (u ++ (y ++ k))) a r

variable {L : Language α} {p : Parser Id α} {close : Char}

theorem Apart.stops (h : Apart L close) {u r s : List Char} {a : α} (hu : L u a r) :
    Stops isWhiteSpace (u ++ s) := by
  obtain ⟨c, u, rfl, hc, -, -⟩ := h.begins hu
  exact stops_cons_iff.2 hc

theorem Greedy.ne_nil (h : Apart L close) {w r : List Char} {a : α} (hw : Greedy L w a r) :
    w ≠ [] := by
  obtain ⟨-, hu, -, -⟩ := hw
  obtain ⟨c, u, rfl, -⟩ := h.begins hu
  simp

theorem reads_whiteSpace : Reads n whiteSpace (Language.run isWhiteSpace 0) :=
  reads_pattern .whiteSpace

theorem reads_optionalComma : Reads n optionalComma (Language.word [',']).optional :=
  (reads_literal ",").optional

theorem reads_entry (hp : Reads n p L) (h : Apart L close) : Reads n (entry p) (Greedy L) := by
  have hread := reads_whiteSpace.bind fun _ => hp.bind fun a => reads_whiteSpace.bind fun _ =>
    reads_optionalComma.bind fun _ => reads_pure a
  refine Reads.congr hread fun {w a r} => ⟨?_, ?_⟩
  · rintro ⟨x, -, -, rfl, ⟨-, hx, -⟩, u, a, -, rfl, hu, y, -, -, rfl, ⟨-, hy, -⟩, k, o, -, rfl, hk,
      rfl, rfl⟩
    rw [List.append_nil] at hx hu hy ⊢
    refine .intro hx.1 (by simpa using hu) hy ?_
    rcases hk with ⟨-, -, rfl, -⟩ | ⟨-, rfl, hr⟩
    · exact Or.inl rfl
    · exact Or.inr ⟨rfl, fun s e => hr (Language.begins_word_singleton_iff.2 ⟨s, e⟩)⟩
  · rintro ⟨hx, hu, hy, hk⟩
    rename_i x u y k
    have hx' : IsRun isWhiteSpace x (u ++ (y ++ (k ++ []) ++ r)) := ⟨hx, h.stops hu⟩
    refine ⟨x, x, u ++ (y ++ (k ++ [])), by simp, ⟨rfl, by simpa using hx', Nat.zero_le _⟩,
      u, a, y ++ (k ++ []), rfl, by simpa using hu, y, y, k ++ [], rfl,
      ⟨rfl, by simpa using hy, Nat.zero_le _⟩, k, ?_⟩
    rcases hk with rfl | ⟨rfl, hr⟩
    · exact ⟨some [','], [], rfl, Or.inl ⟨_, rfl, rfl, rfl⟩, rfl, rfl⟩
    · refine ⟨none, [], rfl, Or.inr ⟨rfl, rfl, fun hb => ?_⟩, rfl, rfl⟩
      obtain ⟨s, hs⟩ := Language.begins_word_singleton_iff.1 hb
      exact hr s hs

theorem reads_keyed {p : Parser Id Value} {L : Language Value} (hp : Reads n p L)
    (h : Apart L close) : Reads n (keyed p) (Keyed L) := by
  have hread := reads_stringLiteral.bind fun key => reads_whiteSpace.bind fun _ =>
    (reads_literal ":").bind fun _ => reads_whiteSpace.bind fun _ => hp.bind fun item =>
      reads_pure (String.ofList key, item)
  refine Reads.congr hread fun {w field r} => ⟨?_, ?_⟩
  · rintro ⟨-, key, -, rfl, ⟨u, rfl, hu⟩, y, -, -, rfl, ⟨-, hy, -⟩, -, -, -, rfl, ⟨rfl, -⟩,
      z, -, -, rfl, ⟨-, hz, -⟩, v, item, -, rfl, hv, rfl, rfl⟩
    have := Keyed.intro hu hy.1 hz.1 (by simpa using hv)
    simpa using this
  · rintro ⟨hu, hy, hz, hv⟩
    rename_i u content y z v item
    have hy' : IsRun isWhiteSpace y (":".toList ++ (z ++ (v ++ [])) ++ r) :=
      ⟨hy, stops_cons_iff.2 (by decide)⟩
    have hz' : IsRun isWhiteSpace z (v ++ [] ++ r) := ⟨hz, by simpa using h.stops hv⟩
    exact ⟨_, content, y ++ (":".toList ++ (z ++ (v ++ []))), by simp, ⟨u, rfl, hu⟩,
      y, y, _, rfl, ⟨rfl, hy', Nat.zero_le _⟩, ":".toList, ":".toList, _, rfl, ⟨rfl, rfl⟩,
      z, z, _, rfl, ⟨rfl, hz', Nat.zero_le _⟩, v, item, [], rfl, hv, rfl, rfl⟩

/-! ## Greed loses nothing -/

theorem Greedy.entries {w v r : List Char} {a : α} {as : List α} (hw : Greedy L w a (v ++ r))
    (h : Entries L v as r) : Entries L (w ++ v) (a :: as) r := by
  obtain ⟨hx, hu, hy, hk⟩ := hw
  rename_i x u y k
  have hcons := Entries.cons hx hu hy.1 (hk.symm.imp And.left id) h
  simpa only [List.append_assoc] using hcons

theorem entries_of_many {w r : List Char} {as : List α} (h : (Greedy L).Many w as r) :
    Entries L w as r := by
  induction h with
  | nil _ => exact .nil
  | cons hw _ ih => exact hw.entries ih

theorem not_begins_greedy (h : Apart L close) (r : List Char) :
    ¬ (Greedy L).Begins (close :: r) := by
  rintro ⟨w, a, s, e, hx, hu, -, -⟩
  rename_i x u y k
  obtain ⟨c, u, rfl, -, -, hc⟩ := h.begins hu
  rw [List.append_assoc] at e
  obtain rfl := eq_nil_of_cons_eq_append hx h.close_not_white e
  exact hc (List.cons.inj e).1.symm

/-- White space in front of a text that does not begin with white space can be taken in two
parts. -/
theorem exists_of_blank_append_eq {x y z v : List Char} (hy : Blank y) (hz : Stops isWhiteSpace z)
    (e : x ++ z = y ++ v) : ∃ x', x = y ++ x' ∧ v = x' ++ z := by
  rcases List.append_eq_append_iff.1 e with ⟨y', rfl, rfl⟩ | ⟨x', rfl, rfl⟩
  · obtain rfl := eq_nil_of_stops_append (all_append_iff.1 hy).2 hz
    exact ⟨[], by simp, rfl⟩
  · exact ⟨x', rfl, rfl⟩

/-- The first character of an entry is no comma. -/
theorem Entries.head_ne_comma (h : Apart L close) {w r y v : List Char} {c : Char} {as : List α}
    (hw : Entries L w as r) (hy : Blank y) (hc : isWhiteSpace c = false) (e : w = y ++ c :: v) :
    c ≠ ',' := by
  cases hw with
  | nil => exact absurd e.symm (by simp)
  | cons hx hu _ _ _ =>
    obtain ⟨x, rfl, hv⟩ := exists_of_blank_append_eq hy (h.stops hu) e
    obtain rfl := eq_nil_of_cons_eq_append (all_append_iff.1 hx).2 hc hv
    obtain ⟨d, u, rfl, -, hd, -⟩ := h.begins hu
    exact (List.cons.inj hv).1 ▸ hd

/-- Entries up to a closing bracket are read however their white space is shared out, also if some
of it is read already. -/
theorem many_of_entries (h : Apart L close) {w r : List Char} {as : List α}
    (hw : Entries L w as (close :: r)) :
    ∀ {y v : List Char}, Blank y → w = y ++ v → (Greedy L).Many v as (close :: r) := by
  generalize hr : close :: r = t at hw
  induction hw with
  | nil =>
    intro y v _ e
    obtain ⟨rfl, rfl⟩ := List.append_eq_nil_iff.1 e.symm
    exact .nil (hr ▸ not_begins_greedy h r)
  | cons hx hu hz hk hw ih =>
    rename_i x u z k w t a as
    subst hr
    intro y v hy e
    obtain ⟨x, rfl, rfl⟩ := exists_of_blank_append_eq hy (h.stops hu) e
    have hx' : Blank x := (all_append_iff.1 hx).2
    rcases hk with rfl | rfl
    · -- Without a comma the entry is read with the white space in front of the next one.
      obtain ⟨z', v, rfl, hrun⟩ := exists_isRun isWhiteSpace w
      have hstop : Stops isWhiteSpace (v ++ close :: r) ∧ ∀ s, v ++ close :: r ≠ ',' :: s := by
        cases v with
        | nil =>
          exact ⟨stops_cons_iff.2 h.close_not_white,
            fun s e => h.close_ne_comma (List.cons.inj e).1⟩
        | cons c v =>
          have hc := stops_cons_iff.1 hrun.2
          exact ⟨stops_cons_iff.2 hc, fun s e =>
            hw.head_ne_comma h hrun.1 hc rfl (List.cons.inj e).1⟩
      have hgreedy : Greedy L (x ++ (u ++ ((z ++ z') ++ []))) a (v ++ close :: r) := by
        refine .intro hx' ?_ ⟨all_append_iff.2 ⟨hz, hrun.1⟩, hstop.1⟩ (Or.inr ⟨rfl, hstop.2⟩)
        simpa using hu
      simpa using Language.Many.cons hgreedy (ih rfl hrun.1 rfl)
    · have hgreedy : Greedy L (x ++ (u ++ (z ++ [',']))) a (w ++ close :: r) :=
        .intro hx' hu ⟨hz, stops_cons_iff.2 (by decide)⟩ (Or.inl rfl)
      simpa using Language.Many.cons hgreedy (ih rfl (all_nil _) rfl)

/-- Up to a closing bracket, entries are read exactly as they are spelled. -/
theorem many_greedy_iff (h : Apart L close) {w r : List Char} {as : List α} :
    (Greedy L).Many w as (close :: r) ↔ Entries L w as (close :: r) :=
  ⟨entries_of_many, fun hw => many_of_entries h hw (all_nil _) rfl⟩

/-! ## Containers -/

/-- Entries between two characters. -/
def Enclosed (o close : Char) (f : List α → β) (L : Language α) : Language β := fun w b r =>
  ∃ u as, w = o :: (u ++ [close]) ∧ b = f as ∧ Entries L u as (close :: r)

/-- Between brackets, what the parser for the entries reads behind the opening one is enough. -/
theorem reads_enclosed (hp : Reads n p L) (h : Apart L close) {opener closer : String} {o : Char}
    (ho : opener.toList = [o]) (hc : closer.toList = [close]) (f : List α → β) :
    Reads (n + 1) (enclosed opener closer f p) (Enclosed o close f L) := by
  have hopener := reads_literal (n := n + 1) opener
  rw [ho] at hopener
  have hcloser := reads_literal (n := n) closer
  rw [hc] at hcloser
  have hentries := (reads_entry hp h).many fun _ _ _ hw => hw.ne_nil h
  have hread := hopener.bind_of_proper (Language.beginsIn_word o []).proper fun _ =>
    hentries.bind fun as => hcloser.bind fun _ => reads_pure (f as)
  refine Reads.congr hread fun {w b r} => ⟨?_, ?_⟩
  · rintro ⟨-, -, -, rfl, ⟨rfl, -⟩, u, as, -, rfl, hu, -, -, -, rfl, ⟨rfl, -⟩, rfl, rfl⟩
    exact ⟨u, as, rfl, rfl, (many_greedy_iff h).1 hu⟩
  · rintro ⟨u, as, rfl, rfl, hu⟩
    exact ⟨[o], [o], u ++ [close], rfl, ⟨rfl, rfl⟩, u, as, [close], rfl, (many_greedy_iff h).2 hu,
      [close], [close], [], rfl, ⟨rfl, rfl⟩, rfl, rfl⟩

end Descent.Json
