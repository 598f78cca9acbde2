import Descent.Parser.Sequence
import Descent.Proofs.Parser.Language

/-!
# Parsers that only move forward

A parser may only move forward in its text: a success stands behind what was read, and a failure
points behind what was read before it, which may be further on than where the parser started.  Every
combinator keeps this.  Reading something on every success is more than that; it is kept by all of
them but repetition and option.
-/

namespace Descent.Parser

open Text

variable {α β : Type} {p : Parser Id α} {f : α → Parser Id β} {c next last : Cursor} {a : α} {b : β}
  {failure : Failure}

/-! ## What an outcome comes from -/

theorem run_bind_eq_ok_iff :
    (p >>= f).run c = .ok (b, last) ↔
      ∃ a next, p.run c = .ok (a, next) ∧ (f a).run next = .ok (b, last) := by
  rw [run_bind]
  constructor
  · intro h
    rcases hp : p.run c with failure | ⟨a, next⟩
    · rw [hp] at h
      cases h
    · rw [hp] at h
      exact ⟨a, next, rfl, h⟩
  · rintro ⟨a, next, hp, h⟩
    rw [hp]
    exact h

theorem run_bind_eq_error_iff :
    (p >>= f).run c = .error failure ↔
      p.run c = .error failure ∨
        ∃ a next, p.run c = .ok (a, next) ∧ (f a).run next = .error failure := by
  rw [run_bind]
  constructor
  · intro h
    rcases hp : p.run c with failure' | ⟨a, next⟩
    · rw [hp] at h
      cases h
      exact .inl rfl
    · rw [hp] at h
      exact .inr ⟨a, next, rfl, h⟩
  · rintro (hp | ⟨a, next, hp, h⟩)
    · rw [hp]
    · rw [hp]
      exact h

theorem run_any_cons_eq_ok_iff {ps : List (Parser Id α)} :
    (any (p :: ps)).run c = .ok (a, next) ↔
      p.run c = .ok (a, next) ∨
        (∃ failure, p.run c = .error failure) ∧ (any ps).run c = .ok (a, next) := by
  rw [run_any_cons]
  rcases p.run c with failure | success <;> simp

theorem eq_noneMatched_of_run_any {ps : List (Parser Id α)} (h : (any ps).run c = .error failure) :
    failure = .noneMatched c := by
  induction ps with
  | nil =>
    cases h
    rfl
  | cons p ps ih =>
    rw [run_any_cons] at h
    rcases hp : p.run c with failure' | success
    · rw [hp] at h
      exact ih h
    · rw [hp] at h
      cases h

/-- What a choice reads is read by one of its alternatives. -/
theorem exists_of_run_any {ps : List (Parser Id α)} (h : (any ps).run c = .ok (a, next)) :
    ∃ p ∈ ps, p.run c = .ok (a, next) := by
  induction ps with
  | nil => cases h
  | cons p ps ih =>
    rcases run_any_cons_eq_ok_iff.1 h with h | ⟨-, h⟩
    · exact ⟨p, List.mem_cons_self, h⟩
    · obtain ⟨q, hq, hrun⟩ := ih h
      exact ⟨q, List.mem_cons_of_mem p hq, hrun⟩

/-- Where a choice fails, so do all its alternatives. -/
theorem forall_of_run_any {ps : List (Parser Id α)} (h : (any ps).run c = .error failure) :
    ∀ p ∈ ps, ∃ failure', p.run c = .error failure' := by
  induction ps with
  | nil => exact fun p hp => nomatch hp
  | cons p ps ih =>
    rw [run_any_cons] at h
    rcases hp : p.run c with failure' | success
    · rw [hp] at h
      exact List.forall_mem_cons.2 ⟨⟨failure', hp⟩, ih h⟩
    · rw [hp] at h
      cases h

theorem run_optional_eq_ok_iff {o : Option α} :
    p.optional.run c = .ok (o, next) ↔
      (∃ a, o = some a ∧ p.run c = .ok (a, next)) ∨
        (∃ failure, p.run c = .error failure) ∧ o = none ∧ next = c := by
  rw [run_optional]
  constructor
  · intro h
    rcases hp : p.run c with failure | ⟨a, next'⟩
    · rw [hp] at h
      cases h
      exact .inr ⟨⟨failure, rfl⟩, rfl, rfl⟩
    · rw [hp] at h
      cases h
      exact .inl ⟨a, rfl, rfl⟩
  · rintro (⟨a, rfl, hp⟩ | ⟨⟨failure, hp⟩, rfl, rfl⟩)
    · rw [hp]
    · rw [hp]

theorem run_optional_ne_error : p.optional.run c ≠ .error failure := by
  rw [run_optional]
  rcases p.run c with failure' | ⟨a, next'⟩ <;> simp

/-! ## Moving forward -/

/-- Wherever the parser stops or fails, it has come there by reading. -/
structure Forward (p : Parser Id α) : Prop where
  spans_of_ok : ∀ {c next a}, p.run c = .ok (a, next) → ∃ w, c.Spans w next
  spans_of_error : ∀ {c failure}, p.run c = .error failure → ∃ w, c.Spans w failure.cursor

theorem Forward.length_rest_le (h : Forward p) (hrun : p.run c = .ok (a, next)) :
    next.rest.length ≤ c.rest.length := by
  obtain ⟨w, hs⟩ := h.spans_of_ok hrun
  have := hs.length_rest
  omega

/-- A parser that reads a language moves forward, if its failures do. -/
theorem Reads.forward {L : Language α} (h : ∀ n, Reads n p L)
    (herror : ∀ {c failure}, p.run c = .error failure → ∃ w, c.Spans w failure.cursor) :
    Forward p where
  spans_of_ok {c _ _} hrun := by
    obtain ⟨w, hs, -⟩ := (h _ (Nat.lt_succ_self c.rest.length)).1 hrun
    exact ⟨w, hs⟩
  spans_of_error := herror

/-- A parser that moves forward and reads something is further on after each success. -/
theorem Forward.position_lt (hp : Forward p) (h : p.Advances) (hrun : p.run c = .ok (a, next)) :
    next.source = c.source ∧ c.position < next.position := by
  obtain ⟨w, hw⟩ := hp.spans_of_ok hrun
  have hless := h hrun
  have hlength := hw.length_rest
  have hbytes := length_le_byteLength w
  have hposition := hw.position_eq
  exact ⟨hw.source_eq, by omega⟩

theorem forward_pure (a : α) : Forward (pure a : Parser Id α) where
  spans_of_ok {c _ _} h := by
    cases h
    exact ⟨[], c.spans_refl⟩
  spans_of_error h := by cases h

theorem forward_literal (text : String) : Forward (literal text) := by
  refine Reads.forward (fun _ => reads_literal text) fun {c failure} h => ?_
  by_cases hp : text.toList <+: c.rest
  · obtain ⟨r, hr⟩ := hp
    obtain ⟨b, t⟩ := c
    obtain rfl : text.toList ++ r = t := hr
    rw [run_literal] at h
    cases h
  · rw [run_literal_of_not_isPrefix hp] at h
    cases h
    exact ⟨[], c.spans_refl⟩

theorem forward_pattern (q : Pattern) : Forward (pattern q) := by
  refine Reads.forward (fun _ => reads_pattern q) fun {c failure} h => ?_
  obtain ⟨b, t⟩ := c
  obtain ⟨w, r, rfl, hrun⟩ := exists_isRun q.accepts.contains t
  rw [run_pattern q hrun] at h
  split at h
  · cases h
    exact ⟨[], Cursor.spans_refl _⟩
  · cases h

theorem Forward.bind (hp : Forward p) (hf : ∀ a, Forward (f a)) : Forward (p >>= f) where
  spans_of_ok h := by
    obtain ⟨a, next, ha, hb⟩ := run_bind_eq_ok_iff.1 h
    obtain ⟨u, hu⟩ := hp.spans_of_ok ha
    obtain ⟨v, hv⟩ := (hf a).spans_of_ok hb
    exact ⟨u ++ v, hu.trans hv⟩
  spans_of_error h := by
    rcases run_bind_eq_error_iff.1 h with h | ⟨a, next, ha, hb⟩
    · exact hp.spans_of_error h
    · obtain ⟨u, hu⟩ := hp.spans_of_ok ha
      obtain ⟨v, hv⟩ := (hf a).spans_of_error hb
      exact ⟨u ++ v, hu.trans hv⟩

theorem Forward.map (hp : Forward p) (g : α → β) : Forward (g <$> p) :=
  hp.bind fun a => forward_pure (g a)

theorem Forward.any {ps : List (Parser Id α)} (h : ∀ p ∈ ps, Forward p) : Forward (any ps) where
  spans_of_ok {c next a} hrun := by
    induction ps with
    | nil => cases hrun
    | cons p ps ih =>
      rw [List.forall_mem_cons] at h
      rcases run_any_cons_eq_ok_iff.1 hrun with hrun | ⟨-, hrun⟩
      · exact h.1.spans_of_ok hrun
      · exact ih h.2 hrun
  spans_of_error {c failure} hrun := by
    obtain rfl := eq_noneMatched_of_run_any hrun
    exact ⟨[], c.spans_refl⟩

theorem Forward.optional (hp : Forward p) : Forward p.optional where
  spans_of_ok {c next o} hrun := by
    rcases run_optional_eq_ok_iff.1 hrun with ⟨a, -, hrun⟩ | ⟨-, -, rfl⟩
    · exact hp.spans_of_ok hrun
    · exact ⟨[], next.spans_refl⟩
  spans_of_error hrun := absurd hrun run_optional_ne_error

theorem Forward.sequence {ps : List (Parser Id α)} (h : ∀ p ∈ ps, Forward p) :
    Forward (sequence ps) := by
  induction ps with
  | nil => exact forward_pure []
  | cons p ps ih =>
    rw [List.forall_mem_cons] at h
    exact h.1.bind fun a => (ih h.2).map (a :: ·)

theorem Forward.manyUpTo (hp : Forward p) (n : Nat) : Forward (manyUpTo p n) := by
  induction n with
  | zero => exact forward_pure []
  | succ n ih =>
    refine hp.optional.bind fun o => ?_
    cases o with
    | none => exact forward_pure []
    | some a => exact ih.map (a :: ·)

theorem Forward.many (hp : Forward p) : Forward (many p) where
  spans_of_ok {c _ _} h := (hp.manyUpTo (c.rest.length + 1)).spans_of_ok h
  spans_of_error {c _} h := (hp.manyUpTo (c.rest.length + 1)).spans_of_error h

/-! ## Reading something -/

/-- A parser whose words are not empty reads something whenever it succeeds. -/
theorem Reads.advances {L : Language α} (h : ∀ n, Reads n p L) (hL : L.Proper) : p.Advances := by
  intro c a next hrun
  obtain ⟨w, hs, hw⟩ := (h _ (Nat.lt_succ_self c.rest.length)).1 hrun
  have hlength := hs.length_rest
  have hpos := List.length_pos_iff.2 (hL hw)
  omega

theorem advances_literal {text : String} (h : text ≠ "") : (literal text).Advances := by
  refine Reads.advances (fun _ => reads_literal text) ?_
  rintro w a r ⟨rfl, -⟩ hempty
  exact h (String.toList_eq_nil_iff.1 hempty)

theorem advances_pattern {q : Pattern} (hq : q.quantifier = .oneOrMore) : (pattern q).Advances := by
  refine Reads.advances (fun _ => reads_pattern q) ?_
  rintro w a r ⟨-, -, hleast⟩ rfl
  rw [hq] at hleast
  exact absurd hleast (by decide)

theorem Advances.bind (hp : p.Advances) (hf : ∀ a, Forward (f a)) : (p >>= f).Advances := by
  intro c b last h
  obtain ⟨a, next, ha, hb⟩ := run_bind_eq_ok_iff.1 h
  exact Nat.lt_of_le_of_lt ((hf a).length_rest_le hb) (hp ha)

theorem Forward.bind_advances (hp : Forward p) (hf : ∀ a, (f a).Advances) : (p >>= f).Advances := by
  intro c b last h
  obtain ⟨a, next, ha, hb⟩ := run_bind_eq_ok_iff.1 h
  exact Nat.lt_of_lt_of_le (hf a hb) (hp.length_rest_le ha)

theorem Advances.map (hp : p.Advances) (g : α → β) : (g <$> p).Advances :=
  hp.bind fun a => forward_pure (g a)

theorem Advances.any {ps : List (Parser Id α)} (h : ∀ p ∈ ps, p.Advances) : (any ps).Advances := by
  intro c a next hrun
  induction ps with
  | nil => cases hrun
  | cons p ps ih =>
    rw [List.forall_mem_cons] at h
    rcases run_any_cons_eq_ok_iff.1 hrun with hrun | ⟨-, hrun⟩
    · exact h.1 hrun
    · exact ih h.2 hrun

/-- A sequence reads something as soon as one of its steps does. -/
theorem Advances.sequence {ps : List (Parser Id α)} (h : ∀ p ∈ ps, Forward p)
    (hp : ∃ p ∈ ps, p.Advances) : (sequence ps).Advances := by
  induction ps with
  | nil =>
    obtain ⟨p, hp, -⟩ := hp
    cases hp
  | cons p ps ih =>
    rw [List.forall_mem_cons] at h
    obtain ⟨q, hq, hadvances⟩ := hp
    rcases List.mem_cons.1 hq with rfl | hq
    · exact hadvances.bind fun a => (Forward.sequence h.2).map (a :: ·)
    · exact h.1.bind_advances fun a => Advances.map (ih h.2 ⟨q, hq, hadvances⟩) (a :: ·)

end Descent.Parser
