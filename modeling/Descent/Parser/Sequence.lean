import Descent.Parser.Basic

/-!
# Sequences

`sequence` runs parsers one after the other, each from where the one before it stopped, and
collects their values.  The first failure is the failure of the sequence, unchanged: it may lie
further on than the start of the sequence.
-/

namespace Descent.Parser

variable {m : Type → Type} [Monad m] {α : Type}

/-- All the parsers in order, with the list of their values. -/
def sequence : List (Parser m α) → Parser m (List α)
  | [] => pure []
  | p :: ps => do
    let a ← p
    let as ← sequence ps
    pure (a :: as)

/-! ## Runs of parsers that only read -/

section Run

variable {α : Type}

@[simp] theorem run_sequence_nil (c : Cursor) :
    run (sequence ([] : List (Parser Id α))) c = .ok ([], c) := rfl

theorem run_sequence_cons (p : Parser Id α) (ps : List (Parser Id α)) (c : Cursor) :
    run (sequence (p :: ps)) c =
      match p.run c with
      | .error failure => .error failure
      | .ok (a, next) =>
        match (sequence ps).run next with
        | .error failure => .error failure
        | .ok (as, last) => .ok (a :: as, last) := by
  change run (p >>= fun a => sequence ps >>= fun as => pure (a :: as)) c = _
  rw [run_bind]
  rcases p.run c with failure | ⟨a, next⟩
  · rfl
  · simp only [run_bind, run_pure]
    rcases (sequence ps).run next with failure | ⟨as, last⟩ <;> rfl

end Run

end Descent.Parser
