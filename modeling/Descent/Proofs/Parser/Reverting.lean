import Descent.Proofs.Parser.Forward

/-!
# Parsers that fail where they started

Most parsers report a failure at the cursor they started from, so that a failed attempt leaves no
trace.  A sequence does not: its failure is the one of its first failing step, from wherever the
earlier steps stopped.  It still fails where it started if its first step does and no other step
ever fails.
-/

namespace Descent.Parser

variable {α β : Type} {p : Parser Id α} {ps : List (Parser Id α)} {c last : Cursor} {as : List α}
  {failure : Failure}

/-- Every failure points to where the parser started. -/
def Reverts (p : Parser Id α) : Prop :=
  ∀ ⦃c : Cursor⦄ ⦃failure : Failure⦄, p.run c = .error failure → failure.cursor = c

/-- The parser has no failures. -/
def NeverFails (p : Parser Id α) : Prop :=
  ∀ (c : Cursor) (failure : Failure), p.run c ≠ .error failure

/-- The parsers succeed one after the other, each from where the one before it stopped, with the
given values. -/
inductive Steps : List (Parser Id α) → Cursor → List α → Cursor → Prop where
  | nil {c : Cursor} : Steps [] c [] c
  | cons {p : Parser Id α} {ps : List (Parser Id α)} {c next last : Cursor} {a : α} {as : List α} :
      p.run c = .ok (a, next) → Steps ps next as last → Steps (p :: ps) c (a :: as) last

/-! ## Single steps -/

theorem run_literal_eq_error_iff {text : String} :
    (literal text).run c = .error failure ↔
      ¬ text.toList <+: c.rest ∧ failure = .expected (quoted text) c := by
  by_cases hp : text.toList <+: c.rest
  · obtain ⟨r, hr⟩ := hp
    obtain ⟨b, t⟩ := c
    obtain rfl : text.toList ++ r = t := hr
    simp [run_literal]
  · simp [run_literal_of_not_isPrefix hp, hp, eq_comm]

theorem reverts_literal (text : String) : Reverts (literal text) := by
  intro c failure h
  obtain ⟨-, rfl⟩ := run_literal_eq_error_iff.1 h
  rfl

theorem run_pattern_eq_error_iff {q : Pattern} :
    (pattern q).run c = .error failure ↔
      (q.matched c).length < q.quantifier.least ∧ failure = .expected q.what c := by
  simp only [Parser.run, Id.run, pattern]
  split
  · next hshort => simp [hshort, eq_comm]
  · next hlong => simp [hlong]

theorem reverts_pattern (q : Pattern) : Reverts (pattern q) := by
  intro c failure h
  obtain ⟨-, rfl⟩ := run_pattern_eq_error_iff.1 h
  rfl

/-- A run that may be empty is always there. -/
theorem neverFails_pattern {q : Pattern} (hq : q.quantifier = .zeroOrMore) :
    NeverFails (pattern q) := by
  intro c failure h
  have hshort := (run_pattern_eq_error_iff.1 h).1
  rw [hq] at hshort
  exact absurd hshort (Nat.not_lt_zero _)

/-! ## Combinators -/

theorem run_map_eq_error_iff {f : α → β} :
    (f <$> p).run c = .error failure ↔ p.run c = .error failure := by
  rw [run_map]
  rcases p.run c with failure' | ⟨a, next⟩ <;> simp

theorem run_map_eq_ok_iff {f : α → β} {b : β} :
    (f <$> p).run c = .ok (b, last) ↔ ∃ a, p.run c = .ok (a, last) ∧ b = f a := by
  rw [run_map]
  rcases p.run c with failure | ⟨a, next⟩
  · simp
  · simp only [Except.ok.injEq, Prod.mk.injEq]
    constructor
    · rintro ⟨rfl, rfl⟩
      exact ⟨a, ⟨rfl, rfl⟩, rfl⟩
    · rintro ⟨_, ⟨rfl, rfl⟩, rfl⟩
      exact ⟨rfl, rfl⟩

theorem Reverts.map (h : Reverts p) (f : α → β) : Reverts (f <$> p) :=
  fun _ _ hrun => h (run_map_eq_error_iff.1 hrun)

theorem NeverFails.map (h : NeverFails p) (f : α → β) : NeverFails (f <$> p) :=
  fun _ _ hrun => h _ _ (run_map_eq_error_iff.1 hrun)

theorem reverts_any (ps : List (Parser Id α)) : Reverts (any ps) := by
  intro c failure h
  obtain rfl := eq_noneMatched_of_run_any h
  rfl

theorem neverFails_optional (p : Parser Id α) : NeverFails p.optional :=
  fun _ _ => run_optional_ne_error

theorem neverFails_manyUpTo (p : Parser Id α) (n : Nat) : NeverFails (manyUpTo p n) := by
  intro c failure
  induction n generalizing c with
  | zero => exact fun h => by cases h
  | succ n ih =>
    intro h
    rcases run_bind_eq_error_iff.1 h with h | ⟨o, next, -, h⟩
    · exact run_optional_ne_error h
    · cases o with
      | none => cases h
      | some a => exact ih next (run_map_eq_error_iff.1 h)

theorem neverFails_many (p : Parser Id α) : NeverFails (many p) :=
  fun c failure => neverFails_manyUpTo p (c.rest.length + 1) c failure

/-! ## Sequences -/

theorem run_sequence_cons_eq_ok_iff :
    (sequence (p :: ps)).run c = .ok (as, last) ↔
      ∃ a next as', p.run c = .ok (a, next) ∧ (sequence ps).run next = .ok (as', last) ∧
        as = a :: as' := by
  refine (run_bind_eq_ok_iff (f := fun a => (a :: ·) <$> sequence ps)).trans ?_
  simp only [run_map_eq_ok_iff, exists_and_left]

theorem run_sequence_cons_eq_error_iff :
    (sequence (p :: ps)).run c = .error failure ↔
      p.run c = .error failure ∨
        ∃ a next, p.run c = .ok (a, next) ∧ (sequence ps).run next = .error failure := by
  refine (run_bind_eq_error_iff (f := fun a => (a :: ·) <$> sequence ps)).trans ?_
  simp only [run_map_eq_error_iff]

/-- A sequence succeeds where all its steps do. -/
theorem run_sequence_eq_ok_iff :
    (sequence ps).run c = .ok (as, last) ↔ Steps ps c as last := by
  induction ps generalizing c as with
  | nil =>
    constructor
    · intro h
      cases h
      exact .nil
    · intro h
      cases h
      rfl
  | cons p ps ih =>
    rw [run_sequence_cons_eq_ok_iff]
    constructor
    · rintro ⟨a, next, as, hp, hps, rfl⟩
      exact .cons hp (ih.1 hps)
    · intro h
      cases h with
      | cons hp hps => exact ⟨_, _, _, hp, ih.2 hps, rfl⟩

/-- The failure of a sequence is the failure of its first failing step, from the cursor that the
steps before it reached. -/
theorem run_sequence_eq_error_iff :
    (sequence ps).run c = .error failure ↔
      ∃ done p later as place, ps = done ++ p :: later ∧ Steps done c as place ∧
        p.run place = .error failure := by
  induction ps generalizing c with
  | nil => simp
  | cons p ps ih =>
    rw [run_sequence_cons_eq_error_iff]
    constructor
    · rintro (hp | ⟨a, next, hp, hps⟩)
      · exact ⟨[], p, ps, [], c, rfl, .nil, hp⟩
      · obtain ⟨done, q, later, as, place, rfl, hdone, hq⟩ := ih.1 hps
        exact ⟨p :: done, q, later, a :: as, place, rfl, .cons hp hdone, hq⟩
    · rintro ⟨done, q, later, as, place, he, hdone, hq⟩
      cases hdone with
      | nil =>
        cases he
        exact .inl hq
      | cons hp hdone =>
        cases he
        exact .inr ⟨_, _, hp, ih.2 ⟨_, q, later, _, place, rfl, hdone, hq⟩⟩

/-- With no failures behind its first step, a sequence fails where that step fails. -/
theorem Reverts.sequence_cons (hp : Reverts p) (hps : ∀ q ∈ ps, NeverFails q) :
    Reverts (sequence (p :: ps)) := by
  intro c failure h
  obtain ⟨done, q, later, as, place, he, hdone, hq⟩ := run_sequence_eq_error_iff.1 h
  cases hdone with
  | nil =>
    cases he
    exact hp hq
  | cons _ _ =>
    cases he
    exact absurd hq (hps q (by simp) place failure)

end Descent.Parser
