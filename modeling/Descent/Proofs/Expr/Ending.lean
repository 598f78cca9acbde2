import Descent.Proofs.Expr.Machine

/-!
# Runs that end

A machine whose scanners do what parsers do runs every expression to an end, and the end is what the
parser gives, as long as repetitions are of what reads something whenever it succeeds.  The main
statement is `Machine.View.endsAt`.
-/

namespace Descent.Machine

open Descent.Parser

variable {M : Machine} {e : Expr}

/-! ## Machines that do what parsers do -/

/-- What comes out of a run at a cursor, over other places. -/
def outcome (place : Cursor → M.Place) (fault : Failure → M.Fault) :
    Outcome Datum → Except M.Fault (Datum × M.Place)
  | .ok (v, next) => .ok (v, place next)
  | .error failure => .error (fault failure)

/-- A way to see the cursors of a text as places of the machine, so that it scans as parsers do. -/
structure View (M : Machine) (text : List Char) where
  place : Cursor → M.Place
  fault : Failure → M.Fault
  fault_noneMatched : ∀ c, fault (.noneMatched c) = M.noneMatched (place c)
  scan_eq : ∀ s c, c.source = text →
    M.scan s (place c) = some (outcome place fault (s.parser.run c))

namespace View

variable {text : List Char} (V : M.View text) (refs : String → Parser Id Datum)

/-- The run of the expression at the place of the cursor ends with what the parser gives there. -/
def EndsAt (e : Expr) (c : Cursor) : Prop :=
  ∃ calls, M.Ends e (V.place c) calls (outcome V.place V.fault ((e.parser refs).run c))

variable {V refs} {es : List Expr} {c : Cursor}

theorem endsAt_scanner {s : Scanner} (hs : e.scanner? = some s) (hc : c.source = text) :
    V.EndsAt refs e c := by
  refine ⟨[], .scanned hs ?_⟩
  rw [Expr.parser_eq_of_scanner? hs]
  exact V.scan_eq s c hc

theorem endsAt_called {rule : Json.Rule} (hb : rule.body? = some e) (h : V.EndsAt refs e c) :
    V.EndsAt refs (.json rule) c := by
  obtain ⟨calls, h⟩ := h
  rw [Json.parser_body hb] at h
  exact ⟨_, .called hb h⟩

theorem endsAt_any (h : ∀ e ∈ es, V.EndsAt refs e c) : V.EndsAt refs (.any es) c := by
  unfold EndsAt
  rw [Expr.parser, Expr.parsers_eq_map]
  induction es with
  | nil =>
    rw [List.map_nil, run_any_nil, outcome, V.fault_noneMatched]
    exact ⟨[], .anyNil⟩
  | cons e es ih =>
    rw [List.forall_mem_cons] at h
    obtain ⟨⟨calls, hfirst⟩, hrest⟩ := h
    rw [List.map_cons, run_any_cons]
    rcases hrun : (e.parser refs).run c with failure | ⟨v, next⟩
    · rw [hrun] at hfirst
      obtain ⟨calls', hrest⟩ := ih hrest
      exact ⟨calls ++ calls', .anyNext hfirst hrest⟩
    · rw [hrun] at hfirst
      exact ⟨calls, .anyFirst hfirst⟩

theorem endsAt_sequence_cons (h : V.EndsAt refs e c)
    (hrest : ∀ v next, (e.parser refs).run c = .ok (v, next) → V.EndsAt refs (.sequence es) next) :
    V.EndsAt refs (.sequence (e :: es)) c := by
  obtain ⟨calls, hfirst⟩ := h
  unfold EndsAt
  rw [Expr.parser, run_map, Expr.parsers, run_sequence_cons]
  rcases hrun : (e.parser refs).run c with failure | ⟨v, next⟩
  · rw [hrun] at hfirst
    exact ⟨calls, .sequenceStop hfirst⟩
  · rw [hrun] at hfirst
    obtain ⟨calls', hlater⟩ := hrest v next hrun
    rw [Expr.parser, run_map] at hlater
    dsimp only
    rcases hes : (Parser.sequence (Expr.parsers refs es)).run next with failure | ⟨vs, last⟩
    · rw [hes] at hlater
      exact ⟨calls ++ calls', .sequenceLater hfirst hlater⟩
    · rw [hes] at hlater
      exact ⟨calls ++ calls', .sequenceCons hfirst hlater⟩

theorem endsAt_optional (h : V.EndsAt refs e c) : V.EndsAt refs (.optional e) c := by
  obtain ⟨calls, h⟩ := h
  refine ⟨calls, ?_⟩
  rw [Expr.parser, run_map, run_optional]
  rcases hrun : (e.parser refs).run c with failure | ⟨v, next⟩
  · rw [hrun] at h
    exact .absent h
  · rw [hrun] at h
    exact .present h

theorem endsAt_map (f : Datum → Datum) (h : V.EndsAt refs e c) : V.EndsAt refs (.map f e) c := by
  obtain ⟨calls, h⟩ := h
  refine ⟨calls, ?_⟩
  rw [Expr.parser, run_map]
  rcases hrun : (e.parser refs).run c with failure | ⟨v, next⟩
  · rw [hrun] at h
    exact .mapStop h
  · rw [hrun] at h
    exact .map h

/-- The run of the expression ends at every cursor of the text with fewer than `n` characters
left. -/
def EndsBelow (V : M.View text) (refs : String → Parser Id Datum) (n : Nat) (e : Expr) : Prop :=
  ∀ c : Cursor, c.source = text → c.rest.length < n → V.EndsAt refs e c

variable {n : Nat}

theorem endsBelow_sequence (hes : ∀ e ∈ es, Forward (e.parser refs))
    (h : ∀ e ∈ es, V.EndsBelow refs n e) : V.EndsBelow refs n (.sequence es) := by
  intro c hc hn
  induction es generalizing c with
  | nil => exact ⟨[], .sequenceNil⟩
  | cons e es ih =>
    rw [List.forall_mem_cons] at hes h
    refine endsAt_sequence_cons (h.1 c hc hn) fun v next hrun => ?_
    obtain ⟨w, hw⟩ := hes.1.spans_of_ok hrun
    have hlength := hw.length_rest
    exact ih hes.2 h.2 next (hw.source_eq.trans hc) (by omega)

/-- A repetition of what reads something ends, since less is left after each round. -/
theorem endsBelow_many (hp : e.Progresses refs) (hf : Forward (e.parser refs))
    (h : V.EndsBelow refs n e) : V.EndsBelow refs n (.many e) := by
  intro c hc hn
  induction hk : c.rest.length using Nat.strongRecOn generalizing c with
  | ind k ih =>
    subst hk
    obtain ⟨calls, hfirst⟩ := h c hc hn
    unfold EndsAt
    rw [Expr.parser, run_map, run_many hp]
    rcases hrun : (e.parser refs).run c with failure | ⟨v, next⟩
    · rw [hrun] at hfirst
      exact ⟨calls, .manyDone hfirst⟩
    · rw [hrun] at hfirst
      have hless := hp hrun
      obtain ⟨w, hw⟩ := hf.spans_of_ok hrun
      obtain ⟨calls', hlater⟩ := ih _ hless next (hw.source_eq.trans hc) (by omega) rfl
      rw [Expr.parser, run_map] at hlater
      dsimp only
      rcases hmany : (many (e.parser refs)).run next with failure | ⟨vs, last⟩
      · rw [hmany] at hlater
        cases hlater with
        | scanned hs _ => cases hs
      · rw [hmany] at hlater
        exact ⟨calls ++ calls', .manyCons hfirst hlater⟩

/-- What combinators build ends, if its leaves end. -/
theorem endsBelow_of_built (hleaf : ∀ e, e.IsLeaf → V.EndsBelow refs n e)
    (he : Expr.Built Expr.IsLeaf (Expr.Progresses refs) e) : V.EndsBelow refs n e := by
  induction he with
  | leaf h => exact hleaf _ h
  | any _ ih => exact fun c hc hn => endsAt_any fun e he => ih e he c hc hn
  | sequence hes ih => exact endsBelow_sequence (fun e he => (hes e he).forward) ih
  | many he hp ih => exact endsBelow_many hp he.forward ih
  | optional _ ih => exact fun c hc hn => endsAt_optional (ih c hc hn)
  | map f _ ih => exact fun c hc hn => endsAt_map f (ih c hc hn)

/-! ## The rules of the grammar -/

theorem endsAt_string (hc : c.source = text) : V.EndsAt refs (.json .string) c :=
  endsAt_called rfl (endsAt_map _ (endsAt_scanner rfl hc))

theorem endsAt_boolean (hc : c.source = text) : V.EndsAt refs (.json .boolean) c := by
  refine endsAt_called rfl (endsAt_map _ (endsAt_any fun e he => ?_))
  rcases List.mem_pair.1 he with rfl | rfl
  · exact endsAt_scanner rfl hc
  · exact endsAt_scanner rfl hc

theorem endsAt_null (hc : c.source = text) : V.EndsAt refs (.json .null) c :=
  endsAt_called rfl (endsAt_map _ (endsAt_scanner rfl hc))

theorem endsAt_primitive (hc : c.source = text) : V.EndsAt refs (.json .primitive) c := by
  refine endsAt_called rfl (endsAt_any fun e he => ?_)
  simp only [List.mem_cons, List.not_mem_nil, or_false] at he
  rcases he with rfl | rfl | rfl | rfl
  · exact endsAt_scanner rfl hc
  · exact endsAt_boolean hc
  · exact endsAt_string hc
  · exact endsAt_null hc

/-- What stands between two literals is run further on. -/
theorem endsAt_enclosed {opener closer : String} (hopener : opener ≠ "") (hc : c.source = text)
    (he : Expr.Built Expr.IsLeaf (·.nullable = false) e) (hn : e.nullable = false)
    (hlater : ∀ e, e.IsLeaf → V.EndsBelow refs c.rest.length e) :
    V.EndsAt refs (.sequence [.literal opener, .many e, .literal closer]) c := by
  refine endsAt_sequence_cons (endsAt_scanner rfl hc) fun v next hrun => ?_
  obtain ⟨w, hw⟩ := ((forward_literal opener).map Datum.text).spans_of_ok hrun
  have hless := Advances.map (advances_literal hopener) _ hrun
  refine endsBelow_of_built hlater (.sequence fun e' he' => ?_) next (hw.source_eq.trans hc) hless
  rcases List.mem_pair.1 he' with rfl | rfl
  · exact .many he.of_nullable (he.progresses hn)
  · exact .leaf trivial

/-- Every rule ends everywhere.  The values inside an array or an object are further on, so the
induction is on what is left of the text. -/
theorem endsAt_json (rule : Json.Rule) (hc : c.source = text) : V.EndsAt refs (.json rule) c := by
  induction hn : c.rest.length using Nat.strongRecOn generalizing rule c with
  | ind n ih =>
    subst hn
    -- Scanners end anywhere, and rules end where less is left.
    have hlater : ∀ e, e.IsLeaf → V.EndsBelow refs c.rest.length e := by
      intro e he c' hc' hn
      rcases he.cases with ⟨s, hs⟩ | ⟨rule, rfl⟩
      · exact endsAt_scanner hs hc'
      · exact ih _ hn rule hc' rfl
    have harray : V.EndsAt refs (.json .array) c :=
      endsAt_called rfl (endsAt_map _ (endsAt_enclosed (by decide) hc Json.built_member rfl hlater))
    have hobject : V.EndsAt refs (.json .object) c :=
      endsAt_called rfl (endsAt_map _ (endsAt_enclosed (by decide) hc Json.built_pair rfl hlater))
    cases rule with
    | number => exact endsAt_scanner rfl hc
    | string => exact endsAt_string hc
    | boolean => exact endsAt_boolean hc
    | null => exact endsAt_null hc
    | primitive => exact endsAt_primitive hc
    | array => exact harray
    | object => exact hobject
    | value =>
      refine endsAt_called rfl (endsAt_any fun e he => ?_)
      simp only [List.mem_cons, List.not_mem_nil, or_false] at he
      rcases he with rfl | rfl | rfl
      · exact hobject
      · exact harray
      · exact endsAt_primitive hc

/-- Where repetitions are of what reads something whenever it succeeds, every run ends with what the
parser gives. -/
theorem endsAt (he : Expr.Built Expr.IsLeaf (Expr.Progresses refs) e) (hc : c.source = text) :
    V.EndsAt refs e c := by
  refine endsBelow_of_built (fun e he c hc _ => ?_) he c hc (Nat.lt_succ_self _)
  rcases he.cases with ⟨s, hs⟩ | ⟨rule, rfl⟩
  · exact endsAt_scanner hs hc
  · exact endsAt_json rule hc

end View

end Descent.Machine
