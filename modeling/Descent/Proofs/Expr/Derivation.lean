import Descent.Proofs.Expr.Nullable

/-!
# Derivations

What a parsing expression matches, said by rules of derivation and without cursors: choice is
ordered and made once, repetition and option are greedy, and a failure is derived like a match.  The
main statement is `run_iff_derives`: an expression built from literals and patterns does at every
cursor what is derived for the text to come, and for every text exactly one verdict is derived.
-/

namespace Descent

open Descent.Text Descent.Parser

/-- What is derived about an expression at a text: it matches a word at its start, with a value, or
it fails. -/
inductive Verdict where
  | matched (word : List Char) (v : Datum)
  | failed

/-- The derivations of parsing expressions. -/
inductive Derives : Expr → List Char → Verdict → Prop where
  | literal {text : String} {t : List Char} : text.toList <+: t →
      Derives (.literal text) t (.matched text.toList (.text text.toList))
  | noLiteral {text : String} {t : List Char} : ¬ text.toList <+: t →
      Derives (.literal text) t .failed
  | pattern {q : Pattern} {t w r : List Char} : t = w ++ r → IsRun q.accepts.contains w r →
      q.quantifier.least ≤ w.length → Derives (.pattern q) t (.matched w (.text w))
  | noPattern {q : Pattern} {t : List Char} : Stops q.accepts.contains t →
      q.quantifier = .oneOrMore → Derives (.pattern q) t .failed
  | anyNil {t : List Char} : Derives (.any []) t .failed
  | anyFirst {e : Expr} {es : List Expr} {t w : List Char} {v : Datum} :
      Derives e t (.matched w v) → Derives (.any (e :: es)) t (.matched w v)
  | anyNext {e : Expr} {es : List Expr} {t : List Char} {x : Verdict} :
      Derives e t .failed → Derives (.any es) t x → Derives (.any (e :: es)) t x
  | sequenceNil {t : List Char} : Derives (.sequence []) t (.matched [] (.list []))
  | sequenceStop {e : Expr} {es : List Expr} {t : List Char} :
      Derives e t .failed → Derives (.sequence (e :: es)) t .failed
  | sequenceLater {e : Expr} {es : List Expr} {t u r : List Char} {v : Datum} :
      t = u ++ r → Derives e t (.matched u v) → Derives (.sequence es) r .failed →
      Derives (.sequence (e :: es)) t .failed
  | sequenceCons {e : Expr} {es : List Expr} {t u r w : List Char} {v : Datum} {vs : List Datum} :
      t = u ++ r → Derives e t (.matched u v) →
      Derives (.sequence es) r (.matched w (.list vs)) →
      Derives (.sequence (e :: es)) t (.matched (u ++ w) (.list (v :: vs)))
  | manyDone {e : Expr} {t : List Char} :
      Derives e t .failed → Derives (.many e) t (.matched [] (.list []))
  | manyCons {e : Expr} {t u r w : List Char} {v : Datum} {vs : List Datum} :
      t = u ++ r → Derives e t (.matched u v) → Derives (.many e) r (.matched w (.list vs)) →
      Derives (.many e) t (.matched (u ++ w) (.list (v :: vs)))
  | present {e : Expr} {t w : List Char} {v : Datum} :
      Derives e t (.matched w v) → Derives (.optional e) t (.matched w (.present v))
  | absent {e : Expr} {t : List Char} :
      Derives e t .failed → Derives (.optional e) t (.matched [] .absent)
  | map {f : Datum → Datum} {e : Expr} {t w : List Char} {v : Datum} :
      Derives e t (.matched w v) → Derives (.map f e) t (.matched w (f v))
  | mapStop {f : Datum → Datum} {e : Expr} {t : List Char} :
      Derives e t .failed → Derives (.map f e) t .failed

/-! ## One verdict -/

/-- Where a run stops at once, it is empty. -/
theorem length_lt_one_of_stops {p : Char → Bool} {w r : List Char} (hw : IsRun p w r)
    (h : Stops p (w ++ r)) : w.length < 1 := by
  obtain ⟨rfl, -⟩ := hw.unique ⟨all_nil p, h⟩ rfl
  exact Nat.one_pos

/-- At most one verdict is derived for an expression and a text. -/
theorem Derives.unique {e : Expr} {t : List Char} {x y : Verdict} (h : Derives e t x)
    (h' : Derives e t y) : x = y := by
  -- At each rule of the first derivation, the verdicts on its parts leave one rule for the second.
  induction h generalizing y with
  | literal hp =>
    cases h' with
    | literal _ => rfl
    | noLiteral hn => exact absurd hp hn
  | noLiteral hn =>
    cases h' with
    | literal hp => exact absurd hp hn
    | noLiteral _ => rfl
  | pattern e hrun hleast =>
    subst e
    cases h' with
    | pattern e hrun' _ =>
      obtain ⟨rfl, -⟩ := hrun.unique hrun' e
      rfl
    | noPattern hstop hq =>
      have hshort := length_lt_one_of_stops hrun hstop
      rw [hq] at hleast
      exact absurd hleast (Nat.not_le.2 hshort)
  | noPattern hstop hq =>
    cases h' with
    | pattern e hrun hleast =>
      have hshort := length_lt_one_of_stops hrun (e ▸ hstop)
      rw [hq] at hleast
      exact absurd hleast (Nat.not_le.2 hshort)
    | noPattern _ _ => rfl
  | anyNil =>
    cases h'
    rfl
  | anyFirst _ ih =>
    cases h' with
    | anyFirst h => exact ih h
    | anyNext h _ => cases ih h
  | anyNext _ _ ih ihs =>
    cases h' with
    | anyFirst h => cases ih h
    | anyNext _ h => exact ihs h
  | sequenceNil =>
    cases h'
    rfl
  | sequenceStop _ ih =>
    cases h' with
    | sequenceStop _ => rfl
    | sequenceLater _ h _ => cases ih h
    | sequenceCons _ h _ => cases ih h
  | sequenceLater e _ _ ih ihs =>
    subst e
    cases h' with
    | sequenceStop _ => rfl
    | sequenceLater _ _ _ => rfl
    | sequenceCons e h hs =>
      cases ih h
      cases List.append_cancel_left e
      cases ihs hs
  | sequenceCons e _ _ ih ihs =>
    subst e
    cases h' with
    | sequenceStop h => cases ih h
    | sequenceLater e h hs =>
      cases ih h
      cases List.append_cancel_left e
      cases ihs hs
    | sequenceCons e h hs =>
      cases ih h
      cases List.append_cancel_left e
      cases ihs hs
      rfl
  | manyDone _ ih =>
    cases h' with
    | manyDone _ => rfl
    | manyCons _ h _ => cases ih h
  | manyCons e _ _ ih ihs =>
    subst e
    cases h' with
    | manyDone h => cases ih h
    | manyCons e h hs =>
      cases ih h
      cases List.append_cancel_left e
      cases ihs hs
      rfl
  | present _ ih =>
    cases h' with
    | present h =>
      cases ih h
      rfl
    | absent h => cases ih h
  | absent _ ih =>
    cases h' with
    | present h => cases ih h
    | absent _ => rfl
  | map _ ih =>
    cases h' with
    | map h =>
      cases ih h
      rfl
    | mapStop h => cases ih h
  | mapStop _ ih =>
    cases h' with
    | map h => cases ih h
    | mapStop _ => rfl

/-! ## Runs are derived -/

/-- What comes out of a run at a cursor is derived for the text to come: with the word that was
read, if it is a value, and as a failure otherwise, wherever that was found out. -/
def Derived {α : Type} (f : α → Datum) (e : Expr) (c : Cursor) : Outcome α → Prop
  | .ok (a, next) => ∃ w, c.Spans w next ∧ Derives e c.rest (.matched w (f a))
  | .error _ => Derives e c.rest .failed

variable {refs : String → Parser Id Datum} {e : Expr} {es : List Expr} {c : Cursor}

theorem derived_run_map {α : Type} {f : α → Datum} {p : Parser Id α}
    (h : Derived f e c (p.run c)) : Derived id e c ((f <$> p).run c) := by
  rw [run_map]
  rcases hp : p.run c with failure | ⟨a, next⟩
  · rw [hp] at h
    exact h
  · rw [hp] at h
    exact h

theorem derived_literal (text : String) (c : Cursor) :
    Derived .text (.literal text) c ((literal text).run c) := by
  by_cases h : text.toList <+: c.rest
  · obtain ⟨r, hr⟩ := h
    obtain ⟨next, hs, rfl⟩ := Cursor.exists_spans hr.symm
    rw [(reads_literal text (Nat.lt_succ_self _)).2 ⟨_, hs, rfl, rfl⟩]
    exact ⟨_, hs, .literal ⟨_, hr⟩⟩
  · rw [run_literal_of_not_isPrefix h]
    exact .noLiteral h

theorem derived_pattern (q : Pattern) (c : Cursor) :
    Derived .text (.pattern q) c ((pattern q).run c) := by
  obtain ⟨b, t⟩ := c
  obtain ⟨w, r, rfl, hrun⟩ := exists_isRun q.accepts.contains t
  rw [run_pattern q hrun]
  split
  · next hshort =>
    -- Only a run that may not be empty is ever too short.
    cases hq : q.quantifier with
    | zeroOrMore =>
      rw [hq] at hshort
      exact absurd hshort (Nat.not_lt_zero _)
    | oneOrMore =>
      rw [hq] at hshort
      obtain rfl : w = [] := List.length_eq_zero_iff.1 (Nat.lt_one_iff.1 hshort)
      exact .noPattern hrun.2 hq
  · next hlong =>
    exact ⟨w, Cursor.spans_append b w r, .pattern rfl hrun (Nat.not_lt.1 hlong)⟩

theorem derived_any (h : ∀ e ∈ es, ∀ c, Derived id e c ((e.parser refs).run c)) (c : Cursor) :
    Derived id (.any es) c ((any (es.map (Expr.parser refs))).run c) := by
  induction es with
  | nil => exact .anyNil
  | cons e es ih =>
    rw [List.forall_mem_cons] at h
    have hfirst := h.1 c
    rw [List.map_cons, run_any_cons]
    rcases hrun : (e.parser refs).run c with failure | ⟨v, next⟩
    · rw [hrun] at hfirst
      have hnext := ih h.2
      rcases hrest : (any (es.map (Expr.parser refs))).run c with failure' | ⟨v, next⟩
      · rw [hrest] at hnext
        exact .anyNext hfirst hnext
      · rw [hrest] at hnext
        obtain ⟨w, hs, hw⟩ := hnext
        exact ⟨w, hs, .anyNext hfirst hw⟩
    · rw [hrun] at hfirst
      obtain ⟨w, hs, hw⟩ := hfirst
      exact ⟨w, hs, .anyFirst hw⟩

theorem derived_sequence (h : ∀ e ∈ es, ∀ c, Derived id e c ((e.parser refs).run c)) (c : Cursor) :
    Derived .list (.sequence es) c ((Parser.sequence (es.map (Expr.parser refs))).run c) := by
  induction es generalizing c with
  | nil => exact ⟨[], c.spans_refl, .sequenceNil⟩
  | cons e es ih =>
    rw [List.forall_mem_cons] at h
    have hfirst := h.1 c
    rw [List.map_cons, run_sequence_cons]
    rcases hrun : (e.parser refs).run c with failure | ⟨v, next⟩
    · rw [hrun] at hfirst
      exact .sequenceStop hfirst
    · rw [hrun] at hfirst
      obtain ⟨u, hu, hfirst⟩ := hfirst
      have hnext := ih h.2 next
      dsimp only
      rcases hrest : (Parser.sequence (es.map (Expr.parser refs))).run next with
        failure | ⟨vs, last⟩
      · rw [hrest] at hnext
        exact .sequenceLater hu.rest_eq hfirst hnext
      · rw [hrest] at hnext
        obtain ⟨w, hw, hnext⟩ := hnext
        exact ⟨u ++ w, hu.trans hw, .sequenceCons hu.rest_eq hfirst hnext⟩

/-- A repetition of what reads something ends, since less is left after each round. -/
theorem derived_many {p : Parser Id Datum} (hp : p.Advances) (h : ∀ c, Derived id e c (p.run c))
    (c : Cursor) : Derived .list (.many e) c ((many p).run c) := by
  induction hn : c.rest.length using Nat.strongRecOn generalizing c with
  | ind n ih =>
    subst hn
    have hfirst := h c
    rw [run_many hp]
    rcases hrun : p.run c with failure | ⟨v, next⟩
    · rw [hrun] at hfirst
      exact ⟨[], c.spans_refl, .manyDone hfirst⟩
    · rw [hrun] at hfirst
      obtain ⟨u, hu, hfirst⟩ := hfirst
      have hnext := ih _ (hp hrun) next rfl
      dsimp only
      rcases hrest : (many p).run next with failure | ⟨vs, last⟩
      · rw [hrest] at hnext
        cases hnext
      · rw [hrest] at hnext
        obtain ⟨w, hw, hnext⟩ := hnext
        exact ⟨u ++ w, hu.trans hw, .manyCons hu.rest_eq hfirst hnext⟩

theorem derived_optional {p : Parser Id Datum} (h : Derived id e c (p.run c)) :
    Derived .ofOption (.optional e) c (p.optional.run c) := by
  rw [run_optional]
  rcases hrun : p.run c with failure | ⟨v, next⟩
  · rw [hrun] at h
    exact ⟨[], c.spans_refl, .absent h⟩
  · rw [hrun] at h
    obtain ⟨w, hs, hw⟩ := h
    exact ⟨w, hs, .present hw⟩

/-- Every run is derived. -/
theorem derived_run (he : Expr.Built Expr.IsTerminal (Expr.Progresses refs) e) (c : Cursor) :
    Derived id e c ((e.parser refs).run c) := by
  induction he generalizing c with
  | @leaf e h =>
    cases e with
    | literal text => exact derived_run_map (derived_literal text c)
    | pattern q => exact derived_run_map (derived_pattern q c)
    | _ => exact h.elim
  | any _ ih =>
    rw [Expr.parser, Expr.parsers_eq_map]
    exact derived_any ih c
  | sequence _ ih =>
    rw [Expr.parser, Expr.parsers_eq_map]
    exact derived_run_map (derived_sequence ih c)
  | many _ hprogress ih =>
    rw [Expr.parser]
    exact derived_run_map (derived_many hprogress ih c)
  | optional _ ih =>
    rw [Expr.parser]
    exact derived_run_map (derived_optional (ih c))
  | map f _ ih =>
    have h := ih c
    rw [Expr.parser, run_map]
    rcases hrun : ((Expr.parser refs _).run c) with failure | ⟨v, next⟩
    · rw [hrun] at h
      exact .mapStop h
    · rw [hrun] at h
      obtain ⟨w, hs, hw⟩ := h
      exact ⟨w, hs, .map hw⟩

/-- An expression built from literals and patterns, with repetitions only of what reads something
whenever it succeeds, succeeds at a cursor exactly if a match is derived for the text to come, with
the derived value and behind the derived word, and fails exactly if failure is derived.  For every
text one verdict is derived and no other. -/
theorem run_iff_derives (he : Expr.Built Expr.IsTerminal (Expr.Progresses refs) e) (c : Cursor) :
    (∀ v next, (e.parser refs).run c = .ok (v, next) ↔
      c.Spans (c.sliceTo next) next ∧ Derives e c.rest (.matched (c.sliceTo next) v)) ∧
    ((∃ failure, (e.parser refs).run c = .error failure) ↔ Derives e c.rest .failed) ∧
    ∃ verdict, Derives e c.rest verdict ∧ ∀ verdict', Derives e c.rest verdict' →
      verdict' = verdict := by
  have h := derived_run he c
  rcases hrun : (e.parser refs).run c with failure | ⟨v, next⟩
  · rw [hrun] at h
    refine ⟨fun v next => iff_of_false (by simp) ?_, iff_of_true ⟨failure, rfl⟩ h,
      .failed, h, fun verdict h' => h'.unique h⟩
    rintro ⟨-, h'⟩
    cases h.unique h'
  · rw [hrun] at h
    obtain ⟨w, hs, hw⟩ := h
    refine ⟨fun v' next' => ⟨?_, ?_⟩, iff_of_false (by simp) ?_,
      .matched w v, hw, fun verdict h' => h'.unique hw⟩
    · intro heq
      cases heq
      rw [hs.sliceTo_eq]
      exact ⟨hs, hw⟩
    · rintro ⟨hs', h'⟩
      obtain ⟨hword, hv⟩ := Verdict.matched.inj (hw.unique h')
      rw [← hword] at hs'
      rw [hs.unique hs', show v = v' from hv]
    · intro h'
      cases hw.unique h'

theorem Expr.isLeaf_of_isTerminal {e : Expr} (h : e.IsTerminal) : e.IsLeaf := by
  cases e with
  | literal _ => trivial
  | pattern _ => trivial
  | _ => exact h.elim

/-- Numbers, each with a comma behind it or none: of `1,2;` the derivation matches all but the
semicolon. -/
theorem run_iff_derives_items :
    Expr.Built Expr.IsTerminal (Expr.Progresses fun _ => Parser.fail "a rule")
      (.many (.sequence [.pattern .digits, .optional (.literal ",")])) ∧
    Derives (.many (.sequence [.pattern .digits, .optional (.literal ",")])) "1,2;".toList
      (.matched "1,2".toList (.list [
        .list [.text ['1'], .present (.text [','])], .list [.text ['2'], .absent]])) := by
  have hbody : ∀ body, Expr.Built Expr.IsTerminal body
      (.sequence [.pattern .digits, .optional (.literal ",")]) := by
    intro body
    refine .sequence fun e he => ?_
    rcases List.mem_pair.1 he with rfl | rfl
    · exact .leaf trivial
    · exact .optional (.leaf trivial)
  have hbuilt : Expr.Built Expr.IsTerminal (Expr.Progresses fun _ => Parser.fail "a rule")
      (.many (.sequence [.pattern .digits, .optional (.literal ",")])) :=
    .many (hbody _) (((hbody fun _ => True).mono (fun _ => Expr.isLeaf_of_isTerminal)
      fun _ h => h).progresses rfl)
  have h := run_iff_derives hbuilt (.ofString "1,2;")
  exact ⟨hbuilt, ((h.1 _ ⟨"1,2".toList.reverse, [';']⟩).1 rfl).2⟩

end Descent
