import Descent.Parser.Literal
import Descent.Parser.Pattern
import Descent.Proofs.Parser.Forward

/-!
# Repetition

A repetition follows the successes of its parser, each from where the one before it stopped, up to
the first failure.  There is one such chain from each cursor, and it ends, as long as the parser
reads something whenever it succeeds.  Where the chain is entered further on, the rest of it is
followed.
-/

namespace Descent.Parser

open Text

variable {α : Type} {p : Parser Id α} {c d last last' : Cursor} {as bs : List α}
  {stops stops' : List Cursor}

/-! ## Chains of successes -/

/-- Successes of the parser from the first cursor to the last one, with their values and the cursors
behind them. -/
inductive Successes (p : Parser Id α) : Cursor → List α → List Cursor → Cursor → Prop where
  | nil {c : Cursor} : Successes p c [] [] c
  | cons {c next last : Cursor} {a : α} {as : List α} {stops : List Cursor} :
      p.run c = .ok (a, next) → Successes p next as stops last →
      Successes p c (a :: as) (next :: stops) last

/-- A chain of successes that the parser cannot continue. -/
structure Maximal (p : Parser Id α) (c : Cursor) (as : List α) (stops : List Cursor)
    (last : Cursor) : Prop where
  successes : Successes p c as stops last
  fails : ∃ failure, p.run last = .error failure

theorem Successes.length_add_le (hp : p.Advances) (h : Successes p c as stops last) :
    as.length + last.rest.length ≤ c.rest.length := by
  induction h with
  | nil => simp
  | cons hrun _ ih =>
    have hless := hp hrun
    rw [List.length_cons]
    omega

/-- A chain goes on from each of its cursors with the values that are left. -/
theorem Successes.drop (h : Successes p c as stops last) {i : Nat}
    (hi : (c :: stops)[i]? = some d) : Successes p d (as.drop i) (stops.drop i) last := by
  induction h generalizing i with
  | nil =>
    cases i with
    | zero =>
      cases hi
      exact .nil
    | succ i => cases hi
  | cons hrun hsuccesses ih =>
    cases i with
    | zero =>
      cases hi
      exact .cons hrun hsuccesses
    | succ i => exact ih hi

theorem Maximal.drop (h : Maximal p c as stops last) {i : Nat}
    (hi : (c :: stops)[i]? = some d) : Maximal p d (as.drop i) (stops.drop i) last :=
  ⟨h.successes.drop hi, h.fails⟩

/-- Only one chain of successes from a cursor ends in a failure. -/
theorem Maximal.unique (h : Maximal p c as stops last) (h' : Maximal p c bs stops' last') :
    as = bs ∧ stops = stops' ∧ last = last' := by
  obtain ⟨hsuccesses, failure, hfails⟩ := h
  obtain ⟨hsuccesses', failure', hfails'⟩ := h'
  induction hsuccesses generalizing bs stops' with
  | nil =>
    cases hsuccesses' with
    | nil => exact ⟨rfl, rfl, rfl⟩
    | cons hrun _ =>
      rw [hfails] at hrun
      cases hrun
  | cons hrun _ ih =>
    cases hsuccesses' with
    | nil =>
      rw [hfails'] at hrun
      cases hrun
    | cons hrun' hsuccesses' =>
      rw [hrun] at hrun'
      cases hrun'
      obtain ⟨rfl, rfl, rfl⟩ := ih hfails hsuccesses'
      exact ⟨rfl, rfl, rfl⟩

/-! ## Repetition -/

/-- Since less is left after each success, the chain comes to a failure. -/
theorem exists_maximal (hp : p.Advances) (c : Cursor) :
    ∃ as stops last, Maximal p c as stops last := by
  generalize hn : c.rest.length = n
  induction n using Nat.strongRecOn generalizing c with
  | ind n ih =>
    rcases hrun : p.run c with failure | ⟨a, next⟩
    · exact ⟨[], [], c, .nil, failure, hrun⟩
    · obtain ⟨as, stops, last, hsuccesses, hfails⟩ := ih _ (hn ▸ hp hrun) next rfl
      exact ⟨a :: as, next :: stops, last, .cons hrun hsuccesses, hfails⟩

/-- A repetition gives the values of the chain and stops where the parser fails. -/
theorem Maximal.run_many (hp : p.Advances) (h : Maximal p c as stops last) :
    (many p).run c = .ok (as, last) := by
  obtain ⟨hsuccesses, failure, hfails⟩ := h
  induction hsuccesses with
  | nil => rw [Parser.run_many hp, hfails]
  | cons hrun _ ih =>
    rw [Parser.run_many hp, hrun]
    simp only [ih hfails]

theorem not_endless (hp : p.Advances) (path : Nat → Cursor) :
    ¬ ∀ i, ∃ a, p.run (path i) = .ok (a, path (i + 1)) := by
  intro hpath
  have hless : ∀ i, i + (path i).rest.length ≤ (path 0).rest.length := by
    intro i
    induction i with
    | zero => simp
    | succ i ih =>
      obtain ⟨a, ha⟩ := hpath i
      have := hp ha
      omega
  have := hless ((path 0).rest.length + 1)
  omega

/-- A parser that reads something whenever it succeeds does not succeed for ever: from each cursor
exactly one chain of successes ends in a failure.  A repetition follows that chain and takes
nothing over from the failure.  Started from a later cursor of the chain, it follows the rest, and
from the last one it reads nothing. -/
theorem many_maximal (hp : p.Advances) (c : Cursor) :
    (∀ path : Nat → Cursor, path 0 = c → ¬ ∀ i, ∃ a, p.run (path i) = .ok (a, path (i + 1))) ∧
    ∃ as stops last, Maximal p c as stops last ∧ (many p).run c = .ok (as, last) ∧
      as.length ≤ byteLength c.rest ∧
      (∀ bs stops' last', Maximal p c bs stops' last' → bs = as ∧ stops' = stops ∧ last' = last) ∧
      (many p).run last = .ok ([], last) ∧
      ∀ i d, (c :: stops)[i]? = some d → (many p).run d = .ok (as.drop i, last) := by
  obtain ⟨as, stops, last, h⟩ := exists_maximal hp c
  have hend : Maximal p last [] [] last := ⟨.nil, h.fails⟩
  refine ⟨fun path _ => not_endless hp path, as, stops, last, h, h.run_many hp, ?_,
    fun bs stops' last' h' => h'.unique h, hend.run_many hp, fun i d hi => (h.drop hi).run_many hp⟩
  have hlength := h.successes.length_add_le hp
  have hbytes := length_le_byteLength c.rest
  omega

/-- Digits with a semicolon behind them: the attempt that ends the repetition fails behind its
digit, which is left to be read. -/
theorem many_maximal_partial_attempt :
    (sequence [pattern .digits, literal ";"]).Advances ∧
      (sequence [pattern .digits, literal ";"]).run ⟨";2;1".toList, ['3']⟩ =
        .error (.expected "`;`" ⟨"3;2;1".toList, []⟩) ∧
      (many (sequence [pattern .digits, literal ";"])).run (.start "1;2;3".toList) =
        .ok ([[['1'], [';']], [['2'], [';']]], ⟨";2;1".toList, ['3']⟩) ∧
      Maximal (sequence [pattern .digits, literal ";"]) (.start "1;2;3".toList)
        [[['1'], [';']], [['2'], [';']]]
        [⟨";1".toList, "2;3".toList⟩, ⟨";2;1".toList, ['3']⟩] ⟨";2;1".toList, ['3']⟩ := by
  have hadvances : (sequence [pattern .digits, literal ";"]).Advances :=
    Advances.sequence (by simp [forward_pattern, forward_literal])
      ⟨_, List.mem_cons_self, advances_pattern rfl⟩
  have hchain : Maximal (sequence [pattern .digits, literal ";"]) (.start "1;2;3".toList)
      [[['1'], [';']], [['2'], [';']]]
      [⟨";1".toList, "2;3".toList⟩, ⟨";2;1".toList, ['3']⟩] ⟨";2;1".toList, ['3']⟩ :=
    ⟨.cons rfl (.cons rfl .nil), _, rfl⟩
  obtain ⟨-, as, stops, last, -, hmany, -, hunique, -⟩ :=
    many_maximal hadvances (.start "1;2;3".toList)
  obtain ⟨rfl, rfl, rfl⟩ := hunique _ _ _ hchain
  exact ⟨hadvances, rfl, hmany, hchain⟩

end Descent.Parser
