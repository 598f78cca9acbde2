import Descent.Parser.Literal
import Descent.Parser.Many
import Descent.Parser.Pattern
import Descent.Proofs.Cursor.Span
import Descent.Proofs.Text.Run

/-!
# The languages of parsers

A language says which words stand for which values, and what may follow a word.  A parser reads a
language if its successes are exactly the words of the language, from every cursor.  One rule for
each combinator gives the language of what it builds.

Greedy steps look at what follows them, which is why the text behind a word is part of a language.
The bound `n` in `Reads n` restricts a statement to cursors with fewer than `n` characters to come,
so that the rule of a recursive parser can be derived by induction.
-/

namespace Descent

open Text

/-- Words with their values and the text behind them. -/
abbrev Language (α : Type) : Type := List Char → α → List Char → Prop

namespace Language

variable {α β : Type}

/-- A word of the language comes first in the text. -/
def Begins (L : Language α) (t : List Char) : Prop := ∃ w a r, t = w ++ r ∧ L w a r

/-- No word of the language is empty. -/
def Proper (L : Language α) : Prop := ∀ ⦃w a r⦄, L w a r → w ≠ []

/-- Every word of the language begins with one of the characters. -/
def BeginsIn (L : Language α) (cs : List Char) : Prop :=
  ∀ ⦃w a r⦄, L w a r → ∃ c ∈ cs, ∃ u, w = c :: u

/-- The empty word, with a given value. -/
def unit (b : α) : Language α := fun w a _ => w = [] ∧ a = b

/-- A given word, which is its own value. -/
def word (v : List Char) : Language (List Char) := fun w a _ => w = v ∧ a = v

/-- The longest run of characters of a kind, if it has a given length at least. -/
def run (p : Char → Bool) (least : Nat) : Language (List Char) := fun w a r =>
  a = w ∧ IsRun p w r ∧ least ≤ w.length

/-- A word of the first language and then one of the second language, which depends on the value of
the first word. -/
def bind (L : Language α) (M : α → Language β) : Language β := fun w b r =>
  ∃ u a v, w = u ++ v ∧ L u a (v ++ r) ∧ M a v b r

/-- The words of a language with other values. -/
def map (f : α → β) (L : Language α) : Language β := fun w b r => ∃ a, b = f a ∧ L w a r

/-- The words of two languages. -/
def union (L M : Language α) : Language α := fun w a r => L w a r ∨ M w a r

/-- A word of the language, or the empty word where no word of the language comes first. -/
def optional (L : Language α) : Language (Option α) := fun w o r =>
  (∃ a, o = some a ∧ L w a r) ∨ (o = none ∧ w = [] ∧ ¬ L.Begins r)

/-- As many words of the language as there are, one after the other. -/
inductive Many (L : Language α) : Language (List α) where
  | nil {r : List Char} : ¬ L.Begins r → Many L [] [] r
  | cons {w v r : List Char} {a : α} {as : List α} :
      L w a (v ++ r) → Many L v as r → Many L (w ++ v) (a :: as) r

/-! ## First characters -/

variable {L M : Language α} {cs ds : List Char}

theorem BeginsIn.proper (h : L.BeginsIn cs) : L.Proper := by
  intro w a r hw
  obtain ⟨c, -, u, rfl⟩ := h hw
  exact List.cons_ne_nil c u

theorem BeginsIn.exists_head (h : L.BeginsIn cs) {t : List Char} (ht : L.Begins t) :
    ∃ c ∈ cs, ∃ u, t = c :: u := by
  obtain ⟨w, a, r, rfl, hw⟩ := ht
  obtain ⟨c, hc, u, rfl⟩ := h hw
  exact ⟨c, hc, u ++ r, rfl⟩

/-- Languages with different first characters exclude each other. -/
theorem BeginsIn.not_begins (hL : L.BeginsIn cs) (hM : M.BeginsIn ds)
    (h : All (fun c => !ds.contains c) cs) {t : List Char} (ht : L.Begins t) : ¬ M.Begins t := by
  intro ht'
  obtain ⟨c, hc, u, rfl⟩ := hL.exists_head ht
  obtain ⟨d, hd, v, e⟩ := hM.exists_head ht'
  have hne : c ∉ ds := by simpa using h c hc
  exact hne ((List.cons.inj e).1 ▸ hd)

theorem BeginsIn.union (hL : L.BeginsIn cs) (hM : M.BeginsIn ds) :
    (L.union M).BeginsIn (cs ++ ds) := by
  rintro w a r (hw | hw)
  · obtain ⟨c, hc, u, rfl⟩ := hL hw
    exact ⟨c, List.mem_append_left ds hc, u, rfl⟩
  · obtain ⟨c, hc, u, rfl⟩ := hM hw
    exact ⟨c, List.mem_append_right cs hc, u, rfl⟩

theorem BeginsIn.map (hL : L.BeginsIn cs) (f : α → β) : (L.map f).BeginsIn cs := by
  rintro w b r ⟨a, -, hw⟩
  exact hL hw

theorem begins_word_singleton_iff {c : Char} {t : List Char} :
    (word [c]).Begins t ↔ ∃ u, t = c :: u := by
  constructor
  · rintro ⟨w, a, r, rfl, rfl, -⟩
    exact ⟨r, rfl⟩
  · rintro ⟨u, rfl⟩
    exact ⟨[c], [c], u, rfl, rfl, rfl⟩

theorem beginsIn_word (c : Char) (v : List Char) : (word (c :: v)).BeginsIn [c] := by
  rintro w a r ⟨rfl, -⟩
  exact ⟨c, List.mem_singleton_self c, v, rfl⟩

end Language

namespace Parser

variable {α β : Type} {n m : Nat}

/-- At cursors with fewer than `n` characters to come, the parser succeeds exactly where a word of
the language comes next, and then reads that word. -/
def Reads (n : Nat) (p : Parser Id α) (L : Language α) : Prop :=
  ∀ ⦃c : Cursor⦄, c.rest.length < n → ∀ ⦃a : α⦄ ⦃next : Cursor⦄,
    p.run c = .ok (a, next) ↔ ∃ w, c.Spans w next ∧ L w a next.rest

variable {p : Parser Id α} {f : α → Parser Id β} {L : Language α} {M : α → Language β}

theorem Reads.congr {N : Language α} (h : Reads n p L) (e : ∀ {w a r}, L w a r ↔ N w a r) :
    Reads n p N := by
  intro c hc a next
  refine (h hc).trans ⟨?_, ?_⟩
  · rintro ⟨w, hs, hw⟩
    exact ⟨w, hs, e.1 hw⟩
  · rintro ⟨w, hs, hw⟩
    exact ⟨w, hs, e.2 hw⟩

/-- Where a word of the language comes first, the parser reads it. -/
theorem Reads.run_eq (h : Reads n p L) {b w r : List Char} {a : α} (hn : (w ++ r).length < n)
    (hw : L w a r) : p.run ⟨b, w ++ r⟩ = .ok (a, ⟨w.reverse ++ b, r⟩) :=
  (h hn).2 ⟨w, Cursor.spans_append b w r, hw⟩

/-- A text begins with at most one word of a language that is read, with one value. -/
theorem Reads.unique (h : Reads n p L) {w w' r r' : List Char} {a a' : α}
    (hn : (w ++ r).length < n) (hw : L w a r) (hw' : L w' a' r') (e : w ++ r = w' ++ r') :
    w = w' ∧ a = a' := by
  have hrun := h.run_eq (b := []) hn hw
  rw [e, h.run_eq (e ▸ hn) hw', Except.ok.injEq, Prod.mk.injEq, Cursor.mk.injEq] at hrun
  obtain ⟨rfl, -, rfl⟩ := hrun
  exact ⟨List.append_cancel_right e, rfl⟩

/-- The parser fails where no word of its language comes first, and nowhere else. -/
theorem Reads.exists_error_iff (h : Reads n p L) {c : Cursor} (hc : c.rest.length < n) :
    (∃ failure, p.run c = .error failure) ↔ ¬ L.Begins c.rest := by
  constructor
  · rintro ⟨failure, hf⟩ ⟨w, a, r, hr, hw⟩
    obtain ⟨d, hd, rfl⟩ := Cursor.exists_spans hr
    rw [(h hc).2 ⟨w, hd, hw⟩] at hf
    cases hf
  · intro hL
    rcases hp : p.run c with failure | ⟨a, next⟩
    · exact ⟨failure, rfl⟩
    · obtain ⟨w, hs, hw⟩ := (h hc).1 hp
      exact absurd ⟨w, a, next.rest, hs.rest_eq, hw⟩ hL

/-! ## Rules -/

theorem reads_pure (b : α) : Reads n (pure b : Parser Id α) (Language.unit b) := by
  intro c _ a next
  simp only [run_pure, Except.ok.injEq, Prod.mk.injEq]
  constructor
  · rintro ⟨rfl, rfl⟩
    exact ⟨[], c.spans_refl, rfl, rfl⟩
  · rintro ⟨w, hs, rfl, rfl⟩
    exact ⟨rfl, (Cursor.spans_nil_iff.1 hs).symm⟩

theorem reads_literal (text : String) : Reads n (literal text) (Language.word text.toList) := by
  intro c _ a next
  by_cases h : text.toList <+: c.rest
  · obtain ⟨r, hr⟩ := h
    obtain ⟨b, t⟩ := c
    obtain rfl : text.toList ++ r = t := hr
    rw [run_literal]
    simp only [Except.ok.injEq, Prod.mk.injEq]
    constructor
    · rintro ⟨rfl, rfl⟩
      exact ⟨_, Cursor.spans_append _ _ _, rfl, rfl⟩
    · rintro ⟨w, hs, rfl, rfl⟩
      exact ⟨rfl, (Cursor.spans_append _ _ _).unique hs⟩
  · rw [run_literal_of_not_isPrefix h]
    simp only [reduceCtorEq, false_iff]
    rintro ⟨w, hs, rfl, -⟩
    exact h ⟨next.rest, hs.rest_eq.symm⟩

theorem run_pattern (q : Pattern) {b w r : List Char} (h : IsRun q.accepts.contains w r) :
    (pattern q).run ⟨b, w ++ r⟩ =
      if w.length < q.quantifier.least then .error (.expected q.what ⟨b, w ++ r⟩)
      else .ok (w, ⟨w.reverse ++ b, r⟩) := by
  have hmatched : q.matched ⟨b, w ++ r⟩ = w := takeWhile_append_of_isRun h
  simp only [Parser.run, Id.run, pattern, hmatched, Cursor.advance_byteLength]

/-- A pattern reads the longest run, if that is long enough. -/
theorem reads_pattern (q : Pattern) :
    Reads n (pattern q) (Language.run q.accepts.contains q.quantifier.least) := by
  intro c _ a next
  obtain ⟨b, t⟩ := c
  obtain ⟨w, r, rfl, hrun⟩ := exists_isRun q.accepts.contains t
  rw [run_pattern q hrun]
  split
  · next hlen =>
    simp only [reduceCtorEq, false_iff]
    rintro ⟨w', hs, -, hrun', hleast⟩
    obtain ⟨rfl, -⟩ := hrun.unique hrun' hs.rest_eq
    omega
  · next hlen =>
    simp only [Except.ok.injEq, Prod.mk.injEq]
    constructor
    · rintro ⟨rfl, rfl⟩
      exact ⟨_, Cursor.spans_append _ _ _, rfl, hrun, by omega⟩
    · rintro ⟨w', hs, rfl, hrun', -⟩
      obtain ⟨rfl, -⟩ := hrun.unique hrun' hs.rest_eq
      exact ⟨rfl, (Cursor.spans_append _ _ _).unique hs⟩

/-- A parser and then another one, at cursors from which the first one leaves fewer than `m`
characters. -/
theorem Reads.bind_of_lt (hp : Reads n p L)
    (hm : ∀ {u a r}, (u ++ r).length < n → L u a r → r.length < m)
    (hf : ∀ a, Reads m (f a) (M a)) : Reads n (p >>= f) (L.bind M) := by
  intro c hc b next
  rw [run_bind]
  constructor
  · intro h
    rcases hpc : p.run c with failure | ⟨a, middle⟩
    · rw [hpc] at h
      cases h
    · rw [hpc] at h
      obtain ⟨u, hu, hL⟩ := (hp hc).1 hpc
      have hlt : middle.rest.length < m := hm (hu.rest_eq ▸ hc) hL
      obtain ⟨v, hv, hM⟩ := (hf a hlt).1 h
      exact ⟨u ++ v, hu.trans hv, u, a, v, rfl, hv.rest_eq ▸ hL, hM⟩
  · rintro ⟨w, hs, u, a, v, rfl, hL, hM⟩
    obtain ⟨middle, hu, hv⟩ := hs.split
    rw [← hv.rest_eq] at hL
    have hlt : middle.rest.length < m := hm (hu.rest_eq ▸ hc) hL
    rw [(hp hc).2 ⟨u, hu, hL⟩]
    exact (hf a hlt).2 ⟨v, hv, hM⟩

theorem Reads.bind (hp : Reads n p L) (hf : ∀ a, Reads n (f a) (M a)) :
    Reads n (p >>= f) (L.bind M) :=
  hp.bind_of_lt (fun h _ => by rw [List.length_append] at h; omega) hf

/-- What comes behind a word that is not empty is needed for shorter texts only. -/
theorem Reads.bind_of_proper (hp : Reads (n + 1) p L) (hL : L.Proper)
    (hf : ∀ a, Reads n (f a) (M a)) : Reads (n + 1) (p >>= f) (L.bind M) := by
  refine hp.bind_of_lt (fun {u a r} h hu => ?_) hf
  have := List.length_pos_iff.2 (hL hu)
  rw [List.length_append] at h
  omega

theorem Reads.map (hp : Reads n p L) (g : α → β) : Reads n (g <$> p) (L.map g) := by
  intro c hc b next
  rw [run_map]
  constructor
  · intro h
    rcases hpc : p.run c with failure | ⟨a, middle⟩
    · rw [hpc] at h
      cases h
    · rw [hpc] at h
      cases h
      obtain ⟨w, hs, hw⟩ := (hp hc).1 hpc
      exact ⟨w, hs, a, rfl, hw⟩
  · rintro ⟨w, hs, a, rfl, hw⟩
    rw [(hp hc).2 ⟨w, hs, hw⟩]

theorem Reads.any_singleton (hp : Reads n p L) : Reads n (any [p]) L := by
  intro c hc a next
  rw [run_any_cons, ← hp hc]
  rcases p.run c with failure | success
  · simp [run_any_nil]
  · rfl

/-- An alternative in front of others, where the words of the others never come first together with
its own. -/
theorem Reads.any_cons {ps : List (Parser Id α)} {N : Language α} (hp : Reads n p L)
    (hps : Reads n (any ps) N) (hLN : ∀ {t}, L.Begins t → ¬ N.Begins t) :
    Reads n (any (p :: ps)) (L.union N) := by
  intro c hc a next
  rw [run_any_cons]
  rcases hpc : p.run c with failure | success
  · have hL : ¬ L.Begins c.rest := (hp.exists_error_iff hc).1 ⟨failure, hpc⟩
    refine (hps hc).trans ⟨?_, ?_⟩
    · rintro ⟨w, hs, hw⟩
      exact ⟨w, hs, Or.inr hw⟩
    · rintro ⟨w, hs, hw | hw⟩
      · exact absurd ⟨w, a, next.rest, hs.rest_eq, hw⟩ hL
      · exact ⟨w, hs, hw⟩
  · obtain ⟨a', next'⟩ := success
    have hpc' := @hp c hc a next
    rw [hpc] at hpc'
    refine hpc'.trans ⟨?_, ?_⟩
    · rintro ⟨w, hs, hw⟩
      exact ⟨w, hs, Or.inl hw⟩
    · rintro ⟨w, hs, hw | hw⟩
      · exact ⟨w, hs, hw⟩
      · obtain ⟨w', hs', hw'⟩ := (hp hc).1 hpc
        exact absurd ⟨w, a, next.rest, hs.rest_eq, hw⟩
          (hLN ⟨w', a', next'.rest, hs'.rest_eq, hw'⟩)

theorem Reads.any_cons_of_beginsIn {ps : List (Parser Id α)} {N : Language α} {cs ds : List Char}
    (hp : Reads n p L) (hps : Reads n (any ps) N) (hL : L.BeginsIn cs) (hN : N.BeginsIn ds)
    (h : All (fun c => !ds.contains c) cs) : Reads n (any (p :: ps)) (L.union N) :=
  hp.any_cons hps fun ht => hL.not_begins hN h ht

theorem Reads.optional (hp : Reads n p L) : Reads n p.optional L.optional := by
  intro c hc o next
  rw [run_optional]
  rcases hpc : p.run c with failure | ⟨a, middle⟩
  · have hL : ¬ L.Begins c.rest := (hp.exists_error_iff hc).1 ⟨failure, hpc⟩
    simp only [Except.ok.injEq, Prod.mk.injEq]
    constructor
    · rintro ⟨rfl, rfl⟩
      exact ⟨[], c.spans_refl, Or.inr ⟨rfl, rfl, hL⟩⟩
    · rintro ⟨w, hs, ⟨a, rfl, hw⟩ | ⟨rfl, rfl, -⟩⟩
      · exact absurd ⟨w, a, next.rest, hs.rest_eq, hw⟩ hL
      · exact ⟨rfl, (Cursor.spans_nil_iff.1 hs).symm⟩
  · obtain ⟨w, hs, hw⟩ := (hp hc).1 hpc
    simp only [Except.ok.injEq, Prod.mk.injEq]
    constructor
    · rintro ⟨rfl, rfl⟩
      exact ⟨w, hs, Or.inl ⟨a, rfl, hw⟩⟩
    · rintro ⟨w', hs', ⟨a', rfl, hw'⟩ | ⟨rfl, rfl, hL⟩⟩
      · have hpc' := (hp hc).2 ⟨w', hs', hw'⟩
        rw [hpc] at hpc'
        cases hpc'
        exact ⟨rfl, rfl⟩
      · obtain rfl := Cursor.spans_nil_iff.1 hs'
        exact absurd ⟨w, a, middle.rest, hs.rest_eq, hw⟩ hL

/-- A repetition with enough fuel for the characters left. -/
theorem Reads.manyUpTo (hp : Reads n p L) (hL : L.Proper) {k : Nat} {c : Cursor}
    (hc : c.rest.length < n) (hk : c.rest.length < k) {as : List α} {next : Cursor} :
    (manyUpTo p k).run c = .ok (as, next) ↔ ∃ w, c.Spans w next ∧ L.Many w as next.rest := by
  induction k generalizing c as next with
  | zero => omega
  | succ k ih =>
    rw [run_manyUpTo_succ]
    rcases hpc : p.run c with failure | ⟨a, middle⟩
    · have hb : ¬ L.Begins c.rest := (hp.exists_error_iff hc).1 ⟨failure, hpc⟩
      simp only [Except.ok.injEq, Prod.mk.injEq]
      constructor
      · rintro ⟨rfl, rfl⟩
        exact ⟨[], c.spans_refl, .nil hb⟩
      · rintro ⟨w, hs, hm⟩
        cases hm with
        | nil => exact ⟨rfl, (Cursor.spans_nil_iff.1 hs).symm⟩
        | cons hw _ =>
          refine absurd ⟨_, _, _, ?_, hw⟩ hb
          rw [hs.rest_eq, List.append_assoc]
    · obtain ⟨u, hu, hw⟩ := (hp hc).1 hpc
      have hpos := List.length_pos_iff.2 (hL hw)
      have hlen := hu.length_rest
      have ih' := fun as next => @ih middle (by omega) (by omega) as next
      dsimp only
      constructor
      · intro h
        rcases hrest : (Parser.manyUpTo p k).run middle with failure | ⟨as', last⟩
        · rw [hrest] at h
          cases h
        · rw [hrest] at h
          cases h
          obtain ⟨v, hv, hm⟩ := (ih' _ _).1 hrest
          exact ⟨u ++ v, hu.trans hv, .cons (hv.rest_eq ▸ hw) hm⟩
      · rintro ⟨w, hs, hm⟩
        cases hm with
        | nil hb =>
          obtain rfl := Cursor.spans_nil_iff.1 hs
          exact absurd ⟨u, a, middle.rest, hu.rest_eq, hw⟩ hb
        | cons hw' hm =>
          rename_i u' v a' as'
          obtain ⟨middle', hu', hv⟩ := hs.split
          have hpc' := (hp hc).2 ⟨u', hu', hv.rest_eq ▸ hw'⟩
          rw [hpc] at hpc'
          cases hpc'
          rw [(ih' _ _).2 ⟨v, hv, hm⟩]

theorem Reads.many (hp : Reads n p L) (hL : L.Proper) : Reads n (many p) L.Many :=
  fun _ hc _ _ => hp.manyUpTo hL hc (Nat.lt_succ_self _)

end Parser

end Descent
