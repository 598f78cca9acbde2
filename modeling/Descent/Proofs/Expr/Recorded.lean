import Mathlib.Data.List.Forall2
import Descent.Expr.Basic
import Descent.Proofs.Parser.Recorded

/-!
# The record of an expression

The run of an expression makes runs of its parts, which make runs of theirs.  `Logged` puts the
record of a whole run together from these, depth first and from left to right: a part that was run
and given up has its place in it like any other.  The main statement, `runs_are_recorded`, says for
each combinator which parsers it runs and from where, and that `Logged` gives what an expression
records.
-/

namespace Descent

open Descent.Parser

namespace Expr

variable {refs : String → Parser (Recording Visit) Datum} {e : Expr} {es : List Expr} {c : Cursor}
  {calls : List (Expr × Cursor)} {visits : List Visit}

/-! ## Runs of parts -/

/-- The expression has no parts, refers to nothing and records nothing. -/
def IsSilent : Expr → Prop
  | literal _ | pattern _ | stringLiteral | float | integer | json _ => True
  | fail _ | pass | position | skip _ => True
  | _ => False

/-- Every repetition in the expression is of a body that reads something whenever it succeeds. -/
inductive Steady (refs : String → Parser (Recording Visit) Datum) : Expr → Prop where
  | silent {e : Expr} : e.IsSilent → Steady refs e
  | ref (name : String) : Steady refs (.ref name)
  | traced {e : Expr} (tag : String) : Steady refs e → Steady refs (.traced tag e)
  | any {es : List Expr} : (∀ e ∈ es, Steady refs e) → Steady refs (.any es)
  | sequence {es : List Expr} : (∀ e ∈ es, Steady refs e) → Steady refs (.sequence es)
  | many {e : Expr} : Steady refs e → (e.parser refs).quiet.Advances → Steady refs (.many e)
  | optional {e : Expr} : Steady refs e → Steady refs (.optional e)
  | map {e : Expr} (f : Datum → Datum) : Steady refs e → Steady refs (.map f e)

/-- The runs of its parts that a run of the expression makes. -/
inductive Calls (refs : String → Parser (Recording Visit) Datum) :
    Expr → Cursor → List (Expr × Cursor) → Prop where
  | any {es : List Expr} {c : Cursor} {calls : List (Expr × Cursor)} {o : Outcome Datum} :
      ChoiceCalls (parser refs) es c calls o → Calls refs (.any es) c calls
  | sequence {es : List Expr} {c : Cursor} {calls : List (Expr × Cursor)}
      {os : Outcome (List Datum)} :
      StepCalls (parser refs) es c calls os → Calls refs (.sequence es) c calls
  | many {e : Expr} {c last : Cursor} {as : List Datum} {stops : List Cursor} :
      Maximal (e.parser refs).quiet c as stops last →
      Calls refs (.many e) c ((c :: stops).map (e, ·))
  | optional {e : Expr} {c : Cursor} : Calls refs (.optional e) c [(e, c)]
  | map {f : Datum → Datum} {e : Expr} {c : Cursor} : Calls refs (.map f e) c [(e, c)]

/-- The expressions that this one is put together from. -/
def parts : Expr → List Expr
  | any es | sequence es => es
  | many e | optional e | map _ e | traced _ e => [e]
  | _ => []

/-- A run of the expression at the cursor records these visits. -/
inductive Logged (refs : String → Parser (Recording Visit) Datum) :
    Expr → Cursor → List Visit → Prop where
  | silent {e : Expr} {c : Cursor} : e.IsSilent → Logged refs e c []
  | ref {name : String} {c : Cursor} : Logged refs (.ref name) c ((refs name).log c)
  | traced {tag : String} {e : Expr} {c : Cursor} {visits : List Visit} : Logged refs e c visits →
      Logged refs (.traced tag e) c (visits ++ [Visit.of tag c ((e.parser refs).quiet.run c)])
  | parts {e : Expr} {c : Cursor} {calls : List (Expr × Cursor)} {logs : List (List Visit)} :
      Calls refs e c calls →
      List.Forall₂ (fun call visits => Logged refs call.1 call.2 visits) calls logs →
      Logged refs e c logs.flatten

theorem IsSilent.parts_eq (he : e.IsSilent) : e.parts = [] := by
  cases e with
  | any _ | sequence _ | many _ | optional _ | map _ _ | ref _ | traced _ _ => exact he.elim
  | _ => rfl

/-- What holds of an expression if it holds of its parts holds of every steady one. -/
theorem Steady.induction {motive : Expr → Prop} (he : Steady refs e)
    (step : ∀ e, Steady refs e → (∀ part ∈ e.parts, motive part) → motive e) : motive e := by
  induction he with
  | @silent e he =>
    refine step e (.silent he) ?_
    rw [he.parts_eq]
    exact fun _ hpart => nomatch hpart
  | ref name => exact step _ (.ref name) fun _ hpart => nomatch hpart
  | traced tag he ih => exact step _ (.traced tag he) (List.forall_mem_singleton.2 ih)
  | any he ih => exact step _ (.any he) ih
  | sequence he ih => exact step _ (.sequence he) ih
  | many he hadvances ih => exact step _ (.many he hadvances) (List.forall_mem_singleton.2 ih)
  | optional he ih => exact step _ (.optional he) (List.forall_mem_singleton.2 ih)
  | map f he ih => exact step _ (.map f he) (List.forall_mem_singleton.2 ih)

/-- Only parts are run. -/
theorem Calls.fst_mem (hcalls : Calls refs e c calls) {call : Expr × Cursor}
    (hcall : call ∈ calls) : call.1 ∈ e.parts := by
  cases hcalls with
  | any hchoice => exact hchoice.fst_mem hcall
  | sequence hsteps => exact hsteps.fst_mem hcall
  | many hchain =>
    obtain ⟨d, -, rfl⟩ := List.mem_map.1 hcall
    exact List.mem_singleton_self _
  | optional | map =>
    rw [List.mem_singleton.1 hcall]
    exact List.mem_singleton_self _

/-! ## Expressions only add to the record -/

mutual

/-- An expression reads the same with a record and without. -/
theorem parser_follows {refs' : String → Parser Id Datum}
    (h : ∀ name, (refs name).Follows (refs' name)) :
    ∀ e : Expr, (e.parser refs).Follows (e.parser refs')
  | literal _ | pattern _ | stringLiteral | float | integer | json _ => (follows_lift _).map _
  | fail _ | pass => fun _ => ⟨[], Recording.adds_pure _⟩
  | position => .map (fun _ => ⟨[], Recording.adds_pure _⟩) _
  | skip _ => .map (fun _ => ⟨[], Recording.adds_pure _⟩) _
  | any es => by
    rw [parser, parser, parsers_eq_map, parsers_eq_map]
    exact follows_any (parsers_follow h es)
  | sequence es => by
    rw [parser, parser, parsers_eq_map, parsers_eq_map]
    exact (follows_sequence (parsers_follow h es)).map _
  | many e => (parser_follows h e).many.map _
  | optional e => (parser_follows h e).optional.map _
  | map f e => (parser_follows h e).map f
  | ref name => h name
  | traced tag e => (parser_follows h e).traced tag

theorem parsers_follow {refs' : String → Parser Id Datum}
    (h : ∀ name, (refs name).Follows (refs' name)) :
    ∀ es : List Expr, ∀ e ∈ es, (e.parser refs).Follows (e.parser refs')
  | [] => fun _ he => nomatch he
  | e :: es => List.forall_mem_cons.2 ⟨parser_follows h e, parsers_follow h es⟩

end

theorem parser_appends (h : ∀ name, (refs name).Appends) (e : Expr) : (e.parser refs).Appends :=
  (parser_follows (fun name => (h name).follows) e).appends

theorem parser_quiet (h : ∀ name, (refs name).Appends) (e : Expr) :
    (e.parser refs).quiet = e.parser fun name => (refs name).quiet :=
  (parser_follows (fun name => (h name).follows) e).quiet_eq

/-! ## Records of whole runs -/

theorem IsSilent.log_eq (he : e.IsSilent) (refs : String → Parser (Recording Visit) Datum)
    (c : Cursor) : (e.parser refs).log c = [] := by
  cases e with
  | literal _ | pattern _ | stringLiteral | float | integer | json _ =>
    exact Parser.log_eq (adds_map (Recording.adds_pure _) _)
  | fail _ | pass => exact Parser.log_eq (Recording.adds_pure _)
  | position | skip _ => exact Parser.log_eq (adds_map (Recording.adds_pure _) _)
  | _ => exact he.elim

/-- What an expression records is what the runs of its parts do, in their order. -/
theorem Calls.log_eq (h : ∀ name, (refs name).Appends) (he : Steady refs e)
    (hcalls : Calls refs e c calls) : (e.parser refs).log c = logs (parser refs) calls := by
  have hparser := parser_appends h
  cases hcalls with
  | any hchoice =>
    rw [parser, parsers_eq_map]
    exact Parser.log_eq (hchoice.adds hparser)
  | sequence hsteps =>
    rw [parser, parsers_eq_map]
    exact Parser.log_eq (adds_map (hsteps.adds hparser) _)
  | many hchain =>
    cases he with
    | silent he => exact he.elim
    | many _ hadvances =>
      rw [logs_map]
      exact Parser.log_eq (adds_map (hchain.adds_many (hparser _) hadvances) _)
  | optional =>
    rw [logs_singleton]
    exact Parser.log_eq (adds_map (adds_optional (hparser _ c)) _)
  | map =>
    rw [logs_singleton]
    exact Parser.log_eq (adds_map (hparser _ c) _)

theorem forall₂_iff_eq_map {α β : Type} {R : α → β → Prop} {f : α → β} {as : List α}
    {bs : List β} (h : ∀ a ∈ as, ∀ b, R a b ↔ b = f a) : List.Forall₂ R as bs ↔ bs = as.map f := by
  induction as generalizing bs with
  | nil => exact List.forall₂_nil_left_iff
  | cons a as ih =>
    rw [List.forall₂_cons_left_iff, List.map_cons]
    constructor
    · rintro ⟨b, bs, hb, hbs, rfl⟩
      rw [(h a List.mem_cons_self b).1 hb,
        (ih fun a' ha' => h a' (List.mem_cons_of_mem a ha')).1 hbs]
    · intro hbs
      exact ⟨f a, as.map f, (h a List.mem_cons_self _).2 rfl,
        (ih fun a' ha' => h a' (List.mem_cons_of_mem a ha')).2 rfl, hbs⟩

/-- `Logged` gives what the expression records, and nothing else. -/
def Accounted (refs : String → Parser (Recording Visit) Datum) (e : Expr) : Prop :=
  ∀ c visits, Logged refs e c visits ↔ visits = (e.parser refs).log c

theorem Calls.forall₂_logged_iff (hparts : ∀ part ∈ e.parts, Accounted refs part)
    (hcalls : Calls refs e c calls) {logs : List (List Visit)} :
    List.Forall₂ (fun call visits => Logged refs call.1 call.2 visits) calls logs ↔
      logs = calls.map fun call => (call.1.parser refs).log call.2 :=
  forall₂_iff_eq_map fun call hcall => hparts call.1 (hcalls.fst_mem hcall) call.2

theorem log_traced (h : ∀ name, (refs name).Appends) (tag : String) (e : Expr) (c : Cursor) :
    ((Expr.traced tag e).parser refs).log c =
      (e.parser refs).log c ++ [Visit.of tag c ((e.parser refs).quiet.run c)] :=
  Parser.log_eq (adds_traced tag (parser_appends h e c))

theorem Logged.eq_log (h : ∀ name, (refs name).Appends) (he : Steady refs e)
    (hparts : ∀ part ∈ e.parts, Accounted refs part) (hlogged : Logged refs e c visits) :
    visits = (e.parser refs).log c := by
  cases hlogged with
  | silent hsilent => exact (hsilent.log_eq refs c).symm
  | ref => rfl
  | traced hbody =>
    rw [(hparts _ List.mem_cons_self c _).1 hbody]
    exact (log_traced h _ _ c).symm
  | parts hcalls hlogs =>
    rw [(hcalls.forall₂_logged_iff hparts).1 hlogs, hcalls.log_eq h he]
    rfl

theorem Steady.logged_log (h : ∀ name, (refs name).Appends) (he : Steady refs e)
    (hparts : ∀ part ∈ e.parts, Accounted refs part) (c : Cursor) :
    Logged refs e c ((e.parser refs).log c) := by
  have hlogged {calls : List (Expr × Cursor)} (hcalls : Calls refs e c calls) :
      Logged refs e c ((e.parser refs).log c) := by
    rw [hcalls.log_eq h he]
    exact .parts hcalls ((hcalls.forall₂_logged_iff hparts).2 rfl)
  cases he with
  | silent hsilent =>
    rw [hsilent.log_eq refs c]
    exact .silent hsilent
  | ref name => exact .ref
  | @traced body tag _ =>
    rw [log_traced h tag body c]
    exact .traced ((hparts body List.mem_cons_self c _).2 rfl)
  | @any es _ =>
    obtain ⟨calls, o, hcalls⟩ := exists_choiceCalls (parser refs) es c
    exact hlogged (.any hcalls)
  | @sequence es _ =>
    obtain ⟨calls, os, hcalls⟩ := exists_stepCalls (parser refs) es c
    exact hlogged (.sequence hcalls)
  | many _ hadvances =>
    obtain ⟨as, stops, last, hchain⟩ := exists_maximal hadvances c
    exact hlogged (.many hchain)
  | optional _ => exact hlogged .optional
  | map _ _ => exact hlogged .map

theorem Steady.accounted (h : ∀ name, (refs name).Appends) (he : Steady refs e) :
    Accounted refs e := by
  refine he.induction fun e he hparts c visits => ⟨fun hlogged => hlogged.eq_log h he hparts, ?_⟩
  rintro rfl
  exact he.logged_log h hparts c

end Expr

/-! ## Which parsers are run -/

/-- Which parsers are run, and from where, where runs only add to the record.
A sequence runs its steps in a relay up to the first one that fails, and a choice its alternatives,
all from one cursor, up to the first success.  An option or a change of values runs its parser once.
A repetition of what reads something whenever it succeeds runs it from each cursor of its chain,
once more than it succeeds.  Each of them adds to the record what these runs do, in this order, so
that an expression adds the visits of all the runs in it, depth first and from left to right. -/
theorem runs_are_recorded {κ ε α : Type} (parser : κ → Parser (Recording ε) α)
    (h : ∀ k, (parser k).Appends) (c : Cursor) :
    (∀ ks, ∃ calls os, StepCalls parser ks c calls os ∧
      Recording.Adds ((Parser.sequence (ks.map parser)).runIn c) os (logs parser calls)) ∧
    (∀ ks, ∃ calls o, ChoiceCalls parser ks c calls o ∧
      Recording.Adds ((any (ks.map parser)).runIn c) o (logs parser calls)) ∧
    (∀ k, Recording.Adds ((parser k).optional.runIn c) ((parser k).quiet.optional.run c)
      (logs parser [(k, c)])) ∧
    (∀ (β : Type) (f : α → β) k, Recording.Adds (runIn (f <$> parser k) c)
      (((parser k).quiet.run c).mapValue f) (logs parser [(k, c)])) ∧
    (∀ k, (parser k).quiet.Advances → ∃ as stops last, Maximal (parser k).quiet c as stops last ∧
      (c :: stops).length = as.length + 1 ∧
      Recording.Adds ((parser k).many.runIn c) (.ok (as, last))
        (logs parser ((c :: stops).map (k, ·)))) ∧
    ∀ refs : String → Parser (Recording Visit) Datum, (∀ name, (refs name).Appends) →
      ∀ e, Expr.Steady refs e → (e.parser refs).Appends ∧
        ∀ visits, Expr.Logged refs e c visits ↔ visits = (e.parser refs).log c := by
  refine ⟨fun ks => ?_, fun ks => ?_, fun k => ?_, fun β f k => ?_, fun k hadvances => ?_,
    fun refs hrefs e he => ⟨Expr.parser_appends hrefs e, he.accounted hrefs c⟩⟩
  · obtain ⟨calls, os, hcalls⟩ := exists_stepCalls parser ks c
    exact ⟨calls, os, hcalls, hcalls.adds h⟩
  · obtain ⟨calls, o, hcalls⟩ := exists_choiceCalls parser ks c
    exact ⟨calls, o, hcalls, hcalls.adds h⟩
  · rw [logs_singleton]
    exact adds_optional (h k c)
  · rw [logs_singleton]
    exact adds_map (h k c) f
  · obtain ⟨as, stops, last, hchain⟩ := exists_maximal hadvances c
    refine ⟨as, stops, last, hchain, ?_, ?_⟩
    · rw [List.length_cons, hchain.successes.length_stops]
    · rw [logs_map]
      exact hchain.adds_many (h k) hadvances

/-- A word with a record of its runs. -/
def recordedWord (word : String) : Parser (Recording Visit) Datum :=
  Parser.traced word (.text <$> (literal word).lift)

theorem follows_recordedWord (word : String) :
    (recordedWord word).Follows (.text <$> literal word) :=
  ((follows_lift (literal word)).map Datum.text).traced word

theorem advances_recordedWord {word : String} (h : word ≠ "") :
    (recordedWord word).quiet.Advances := by
  rw [(follows_recordedWord word).quiet_eq]
  exact Advances.map (advances_literal h) Datum.text

/-- Words are recorded by name: where `ax` is given up, the visits of its letters stay, and the
repetition that is read instead ends with a visit of each of its alternatives. -/
theorem runs_are_recorded_words :
    (∀ word, (recordedWord word).Appends) ∧
      Expr.Logged recordedWord
        (.any [.sequence [.ref "a", .ref "x"], .many (.any [.ref "a", .ref "b"])]) (.ofString "ab")
        [⟨"a", 0, true, 1⟩, ⟨"x", 1, false, 1⟩, ⟨"a", 0, true, 1⟩, ⟨"a", 1, false, 1⟩,
          ⟨"b", 1, true, 2⟩, ⟨"a", 2, false, 2⟩, ⟨"b", 2, false, 2⟩] := by
  have h : ∀ word, (recordedWord word).Appends := fun word => (follows_recordedWord word).appends
  have hwords : ∀ names : List String, ∀ e ∈ names.map Expr.ref, Expr.Steady recordedWord e := by
    intro names e he
    obtain ⟨name, -, rfl⟩ := List.mem_map.1 he
    exact .ref name
  have hadvances : ((Expr.any [.ref "a", .ref "b"]).parser recordedWord).quiet.Advances := by
    rw [Expr.parser_quiet h]
    apply Advances.any
    refine List.forall_mem_cons.2 ⟨?_, List.forall_mem_singleton.2 ?_⟩
    · exact @advances_recordedWord "a" (by decide)
    · exact @advances_recordedWord "b" (by decide)
  have hsteady : Expr.Steady recordedWord
      (.any [.sequence [.ref "a", .ref "x"], .many (.any [.ref "a", .ref "b"])]) :=
    .any (List.forall_mem_cons.2 ⟨.sequence (hwords ["a", "x"]),
      List.forall_mem_singleton.2 (.many (.any (hwords ["a", "b"])) hadvances)⟩)
  obtain ⟨-, -, -, -, -, hnested⟩ := runs_are_recorded recordedWord h (.ofString "ab")
  exact ⟨h, ((hnested recordedWord h _ hsteady).2 _).2 rfl⟩

end Descent
