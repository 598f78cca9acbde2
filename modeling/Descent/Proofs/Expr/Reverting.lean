import Descent.Proofs.Expr.Built
import Descent.Proofs.Json.Forward
import Descent.Proofs.Parser.Reverting

/-!
# Expressions that fail where they started

`Reverting` describes the expressions whose failures point to where they started, and `Unfailing`
those that have no failures.  A choice has only one failure, which says that nothing matched, and
so have the rules that are choices.  What can fail further on is a sequence, with the failure of one
of its steps, and a string literal without its closing quote.
-/

namespace Descent

open Descent.Parser

namespace Json

/-! ## Rules -/

theorem reverts_converted (q : Pattern) (what : String) : Reverts (converted q what) := by
  intro c failure h
  rcases run_converted_eq_error_iff.1 h with h | ⟨-, -, -, -, rfl⟩
  · exact reverts_pattern q h
  · rfl

theorem reverts_number : Reverts number := by
  intro c failure h
  rcases hfloat : float.run c with failure' | ⟨x, next⟩
  · rw [run_number_of_error hfloat] at h
    split at h
    · cases h
      exact reverts_converted _ _ hfloat
    · exact (reverts_converted _ _).map _ h
  · rw [run_number_of_ok hfloat] at h
    cases h

theorem reverts_null : Reverts null := (reverts_literal "null").map _

/-- The rule is a choice between others. -/
def Rule.IsChoice : Rule → Prop
  | boolean | primitive | value => True
  | number | string | null | array | object => False

theorem Rule.IsChoice.eq_noneMatched {rule : Rule} (h : rule.IsChoice) {c : Cursor}
    {failure : Failure} (hrun : rule.parser.run c = .error failure) : failure = .noneMatched c := by
  cases rule with
  | boolean => exact eq_noneMatched_of_run_any (run_map_eq_error_iff.1 hrun)
  | primitive => exact eq_noneMatched_of_run_any hrun
  | value => exact eq_noneMatched_of_run_value hrun
  | _ => exact h.elim

/-- The rule fails where it started: it is a choice, or all that it reads is one run or word. -/
def Rule.Reverting (rule : Rule) : Prop := rule = number ∨ rule = null ∨ rule.IsChoice

theorem Rule.Reverting.reverts {rule : Rule} (h : rule.Reverting) : Reverts rule.parser := by
  rcases h with rfl | rfl | h
  · exact reverts_number
  · exact reverts_null
  · intro c failure hrun
    obtain rfl := h.eq_noneMatched hrun
    rfl

end Json

/-! ## Expressions -/

namespace Expr

variable {refs : String → Parser Id Datum} {e : Expr} {es : List Expr} {c : Cursor}
  {failure : Failure}

/-- The expression is an option, a repetition or a run that may be empty, with its value changed or
not. -/
inductive Unfailing : Expr → Prop where
  | optional (e : Expr) : Unfailing (.optional e)
  | many (e : Expr) : Unfailing (.many e)
  | pattern {q : Pattern} : q.quantifier = .zeroOrMore → Unfailing (.pattern q)
  | map {e : Expr} (f : Datum → Datum) : Unfailing e → Unfailing (.map f e)

theorem Unfailing.neverFails (h : Unfailing e) : NeverFails (e.parser refs) := by
  induction h with
  | optional e => exact (neverFails_optional _).map _
  | many e => exact (neverFails_many _).map _
  | pattern hq => exact (neverFails_pattern hq).map _
  | map f _ ih => exact ih.map f

/-- The expression is a choice between any others, or a rule that is one. -/
def IsChoice : Expr → Prop
  | any _ => True
  | json rule => rule.IsChoice
  | _ => False

theorem IsChoice.eq_noneMatched (h : e.IsChoice) (hrun : (e.parser refs).run c = .error failure) :
    failure = .noneMatched c := by
  cases e with
  | any es => exact eq_noneMatched_of_run_any hrun
  | json rule => exact Json.Rule.IsChoice.eq_noneMatched h (run_map_eq_error_iff.1 hrun)
  | _ => exact h.elim

/-- The expression fails where it started: it is a scanner that looks at one run or word, a choice,
or a sequence that can only fail in its first step. -/
inductive Reverting (refs : String → Parser Id Datum) : Expr → Prop where
  | literal (text : String) : Reverting refs (.literal text)
  | pattern (q : Pattern) : Reverting refs (.pattern q)
  | float : Reverting refs .float
  | integer : Reverting refs .integer
  | json {rule : Json.Rule} : rule.Reverting → Reverting refs (.json rule)
  | any (es : List Expr) : Reverting refs (.any es)
  | map {e : Expr} (f : Datum → Datum) : Reverting refs e → Reverting refs (.map f e)
  | sequence {e : Expr} {es : List Expr} : Reverting refs e →
      (∀ e' ∈ es, NeverFails (e'.parser refs)) → Reverting refs (.sequence (e :: es))

theorem Reverting.reverts (h : Reverting refs e) : Reverts (e.parser refs) := by
  induction h with
  | literal text => exact (reverts_literal text).map _
  | pattern q => exact (reverts_pattern q).map _
  | float => exact (Json.reverts_converted _ _).map _
  | integer => exact (Json.reverts_converted _ _).map _
  | json hrule => exact hrule.reverts.map _
  | any es => exact reverts_any _
  | map f _ ih => exact ih.map f
  | sequence _ hes ih =>
    refine (ih.sequence_cons fun q hq => ?_).map _
    rw [parsers_eq_map] at hq
    obtain ⟨e', he', rfl⟩ := List.mem_map.1 hq
    exact hes e' he'

theorem run_sequence_eq_error_iff :
    ((Expr.sequence es).parser refs).run c = .error failure ↔
      ∃ done e later values place, es = done ++ e :: later ∧
        Steps (done.map (parser refs)) c values place ∧
          (e.parser refs).run place = .error failure := by
  refine run_map_eq_error_iff.trans (Parser.run_sequence_eq_error_iff.trans ?_)
  rw [parsers_eq_map]
  constructor
  · rintro ⟨done, p, later, values, place, he, hdone, hp⟩
    obtain ⟨done, es', rfl, rfl, hes'⟩ := List.map_eq_append_iff.1 he
    obtain ⟨e, later, rfl, rfl, rfl⟩ := List.map_eq_cons_iff.1 hes'
    exact ⟨done, e, later, values, place, rfl, hdone, hp⟩
  · rintro ⟨done, e, later, values, place, rfl, hdone, he⟩
    exact ⟨_, _, _, values, place, List.map_append, hdone, he⟩

/-- Failures point to where an expression started, unless it is a string literal or a sequence with
steps that can fail behind the first one, or is made from these.  Choices fail in one way only, at
their start, whatever their alternatives are, and options and repetitions never fail, whatever is
inside them.  A failure of any sequence is that of its first failing step from the cursor reached
by the steps before it. -/
theorem failures_revert (refs : String → Parser Id Datum) :
    (∀ e, Reverting refs e → ∀ c failure, (e.parser refs).run c = .error failure →
      failure.cursor = c) ∧
    (∀ e, IsChoice e → ∀ c failure, (e.parser refs).run c = .error failure →
      failure = .noneMatched c) ∧
    (∀ e, Unfailing e → ∀ c failure, (e.parser refs).run c ≠ .error failure) ∧
    (∀ es c failure, ((Expr.sequence es).parser refs).run c = .error failure ↔
      ∃ done e later values place, es = done ++ e :: later ∧
        Steps (done.map (parser refs)) c values place ∧
          (e.parser refs).run place = .error failure) :=
  ⟨fun _ h _ _ hrun => h.reverts hrun, fun _ h _ _ hrun => h.eq_noneMatched hrun,
    fun _ h => h.neverFails, fun _ _ _ => run_sequence_eq_error_iff⟩

/-- Digits with an optional comma fail where they started, in the middle of a text as well, and a
choice of them says that nothing matched.  Two words one after the other fail behind the first. -/
theorem failures_revert_items :
    (∃ failure, ((Expr.sequence [.pattern .digits, .optional (.literal ",")]).parser
        fun _ => Parser.fail "a rule").run ⟨['a'], ['x']⟩ = .error failure ∧
      failure.cursor = ⟨['a'], ['x']⟩) ∧
    (∃ failure, ((Expr.any [.sequence [.literal "A", .literal "5"]]).parser
        fun _ => Parser.fail "a rule").run (.ofString "Axyz") = .error failure ∧
      failure = .noneMatched (.ofString "Axyz")) ∧
    (∀ failure, ((Expr.optional (.literal "A")).parser
        fun _ => Parser.fail "a rule").run (.ofString "x") ≠ .error failure) ∧
    ((Expr.sequence [.literal "A", .literal "5"]).parser
        fun _ => Parser.fail "a rule").run (.ofString "Axyz") =
      .error (.expected "`5`" ⟨['A'], "xyz".toList⟩) := by
  obtain ⟨hreverting, hchoice, hunfailing, hsequence⟩ :=
    failures_revert fun _ => Parser.fail "a rule"
  have hitem : Reverting (fun _ => Parser.fail "a rule")
      (.sequence [.pattern .digits, .optional (.literal ",")]) :=
    .sequence (.pattern _) (by simpa using (Unfailing.optional (.literal ",")).neverFails)
  have hwords : IsChoice (.any [.sequence [.literal "A", .literal "5"]]) := trivial
  refine ⟨⟨_, rfl, hreverting _ hitem _ _ rfl⟩, ⟨_, rfl, hchoice _ hwords _ _ rfl⟩,
    hunfailing _ (.optional _) _, ?_⟩
  exact (hsequence _ _ _).2
    ⟨[.literal "A"], .literal "5", [], [.text ['A']], _, rfl, .cons rfl .nil, rfl⟩

end Expr

end Descent
