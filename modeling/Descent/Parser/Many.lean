import Descent.Parser.Choice

/-!
# Repetition

`many` runs a parser again and again, each time from where it stopped, until it fails.  It never
fails itself: the attempt that ends it is given up, wherever that attempt reports its failure.

A parser that reads something whenever it succeeds cannot succeed more often than there are
characters left, so the number of characters bounds the repetition.
-/

namespace Descent.Parser

variable {m : Type → Type} [Monad m] {α : Type}

/-- Repeats the parser until it fails, at most `n` times. -/
def manyUpTo (p : Parser m α) : Nat → Parser m (List α)
  | 0 => pure []
  | n + 1 => do
    match ← p.optional with
    | none => pure []
    | some a =>
      let as ← manyUpTo p n
      pure (a :: as)

/-- Repeats the parser until it fails and collects what it read.  The parser has to read something
whenever it succeeds. -/
def many (p : Parser m α) : Parser m (List α) := fun c => manyUpTo p (c.rest.length + 1) c

/-! ## Runs of parsers that only read -/

section Run

variable {α : Type}

/-- The parser reads something whenever it succeeds. -/
def Advances (p : Parser Id α) : Prop :=
  ∀ {c a next}, p.run c = .ok (a, next) → next.rest.length < c.rest.length

theorem run_manyUpTo_succ (p : Parser Id α) (n : Nat) (c : Cursor) :
    run (manyUpTo p (n + 1)) c =
      match p.run c with
      | .error _ => .ok ([], c)
      | .ok (a, next) =>
        match (manyUpTo p n).run next with
        | .error failure => .error failure
        | .ok (as, last) => .ok (a :: as, last) := by
  rw [manyUpTo, run_bind, run_optional]
  rcases p.run c with failure | ⟨a, next⟩
  · rfl
  · simp only [run_bind, run_pure]
    rcases (manyUpTo p n).run next with failure | ⟨as, last⟩ <;> rfl

/-- A bound above the number of characters left is no bound. -/
theorem run_manyUpTo_eq {p : Parser Id α} (hp : p.Advances) {n k : Nat} {c : Cursor}
    (hn : c.rest.length < n) (hk : c.rest.length < k) :
    run (manyUpTo p n) c = run (manyUpTo p k) c := by
  induction n generalizing k c with
  | zero => omega
  | succ n ih =>
    obtain ⟨k, rfl⟩ : ∃ j, k = j + 1 := ⟨k - 1, by omega⟩
    rw [run_manyUpTo_succ, run_manyUpTo_succ]
    rcases h : p.run c with failure | ⟨a, next⟩
    · rfl
    · have := hp h
      simp only [ih (k := k) (c := next) (by omega) (by omega)]

/-- A repetition is empty where the parser fails, and goes on from where it stopped otherwise. -/
theorem run_many {p : Parser Id α} (hp : p.Advances) (c : Cursor) :
    run (many p) c =
      match p.run c with
      | .error _ => .ok ([], c)
      | .ok (a, next) =>
        match (many p).run next with
        | .error failure => .error failure
        | .ok (as, last) => .ok (a :: as, last) := by
  change run (manyUpTo p (c.rest.length + 1)) c = _
  rw [run_manyUpTo_succ]
  rcases h : p.run c with failure | ⟨a, next⟩
  · rfl
  · have := hp h
    simp only
    rw [run_manyUpTo_eq hp (k := next.rest.length + 1) this (by omega)]
    rfl

end Run

end Descent.Parser
