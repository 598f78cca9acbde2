import Descent.Proofs.Json.Body

/-!
# Runs, step by step

How an expression is run over any kind of places: a scanner scans, a rule runs its body, a
repetition goes on for as long as its body succeeds.  Nothing bounds a run.  One that would go on
forever, and one that comes to a step which cannot be taken, has no end; `Machine.Ends.unique` says
that a run has one end at most.
-/

namespace Descent

open Descent.Parser

/-- A rule with a body is no scanner. -/
theorem Expr.scanner?_of_body? {rule : Json.Rule} {e : Expr} (h : rule.body? = some e) :
    (Expr.json rule).scanner? = none := by
  cases rule with
  | number => cases h
  | _ => rfl

/-! ## Machines -/

/-- What runs expressions: its places in texts, and how it scans from a place.  Where a scan comes
to a step that cannot be taken, it gives nothing. -/
structure Machine where
  Place : Type
  Fault : Type
  noneMatched : Place → Fault
  scan : Scanner → Place → Option (Except Fault (Datum × Place))

namespace Machine

/-- The machine whose places are cursors. -/
abbrev cursors : Machine := ⟨Cursor, Failure, .noneMatched, fun s c => some (s.parser.run c)⟩

variable (M : Machine)

/-- A rule with the place at which it was called. -/
abbrev Call : Type := Json.Rule × M.Place

/-- The run of an expression at a place makes these calls and ends like this. -/
inductive Ends : Expr → M.Place → List M.Call → Except M.Fault (Datum × M.Place) → Prop where
  | scanned {e : Expr} {s : Scanner} {p o} : e.scanner? = some s → M.scan s p = some o →
      Ends e p [] o
  | called {rule : Json.Rule} {e : Expr} {p calls o} : rule.body? = some e → Ends e p calls o →
      Ends (.json rule) p ((rule, p) :: calls) o
  | anyNil {p} : Ends (.any []) p [] (.error (M.noneMatched p))
  | anyFirst {e : Expr} {es : List Expr} {p calls v next} : Ends e p calls (.ok (v, next)) →
      Ends (.any (e :: es)) p calls (.ok (v, next))
  | anyNext {e : Expr} {es : List Expr} {p calls calls' fault o} : Ends e p calls (.error fault) →
      Ends (.any es) p calls' o → Ends (.any (e :: es)) p (calls ++ calls') o
  | sequenceNil {p} : Ends (.sequence []) p [] (.ok (.list [], p))
  | sequenceStop {e : Expr} {es : List Expr} {p calls fault} : Ends e p calls (.error fault) →
      Ends (.sequence (e :: es)) p calls (.error fault)
  | sequenceLater {e : Expr} {es : List Expr} {p calls calls' v next fault} :
      Ends e p calls (.ok (v, next)) → Ends (.sequence es) next calls' (.error fault) →
      Ends (.sequence (e :: es)) p (calls ++ calls') (.error fault)
  | sequenceCons {e : Expr} {es : List Expr} {p calls calls' v vs next last} :
      Ends e p calls (.ok (v, next)) → Ends (.sequence es) next calls' (.ok (.list vs, last)) →
      Ends (.sequence (e :: es)) p (calls ++ calls') (.ok (.list (v :: vs), last))
  | manyDone {e : Expr} {p calls fault} : Ends e p calls (.error fault) →
      Ends (.many e) p calls (.ok (.list [], p))
  | manyCons {e : Expr} {p calls calls' v vs next last} : Ends e p calls (.ok (v, next)) →
      Ends (.many e) next calls' (.ok (.list vs, last)) →
      Ends (.many e) p (calls ++ calls') (.ok (.list (v :: vs), last))
  | present {e : Expr} {p calls v next} : Ends e p calls (.ok (v, next)) →
      Ends (.optional e) p calls (.ok (.present v, next))
  | absent {e : Expr} {p calls fault} : Ends e p calls (.error fault) →
      Ends (.optional e) p calls (.ok (.absent, p))
  | map {f : Datum → Datum} {e : Expr} {p calls v next} : Ends e p calls (.ok (v, next)) →
      Ends (.map f e) p calls (.ok (f v, next))
  | mapStop {f : Datum → Datum} {e : Expr} {p calls fault} : Ends e p calls (.error fault) →
      Ends (.map f e) p calls (.error fault)

variable {M} {e : Expr} {p : M.Place} {calls calls' : List M.Call}
  {o o' : Except M.Fault (Datum × M.Place)}

/-- A run has one end at most. -/
theorem Ends.unique (h : M.Ends e p calls o) (h' : M.Ends e p calls' o') :
    calls = calls' ∧ o = o' := by
  -- At each rule of the first run, the ends of its parts leave one rule for the second run.
  induction h generalizing calls' o' with
  | scanned hs ho =>
    cases h' with
    | scanned hs' ho' =>
      cases hs.symm.trans hs'
      exact ⟨rfl, Option.some.inj (ho.symm.trans ho')⟩
    | called hb _ => cases hs.symm.trans (Expr.scanner?_of_body? hb)
    | _ => cases hs
  | called hb _ ih =>
    cases h' with
    | scanned hs _ => cases hs.symm.trans (Expr.scanner?_of_body? hb)
    | called hb' h =>
      cases hb.symm.trans hb'
      obtain ⟨rfl, heq⟩ := ih h
      exact ⟨rfl, heq⟩
  | anyNil =>
    cases h' with
    | scanned hs _ => cases hs
    | anyNil => exact ⟨rfl, rfl⟩
  | anyFirst _ ih =>
    cases h' with
    | scanned hs _ => cases hs
    | anyFirst h => exact ih h
    | anyNext h _ => cases (ih h).2
  | anyNext _ _ ih ihs =>
    cases h' with
    | scanned hs _ => cases hs
    | anyFirst h => cases (ih h).2
    | anyNext h hs =>
      obtain ⟨rfl, -⟩ := ih h
      obtain ⟨rfl, heq⟩ := ihs hs
      exact ⟨rfl, heq⟩
  | sequenceNil =>
    cases h' with
    | scanned hs _ => cases hs
    | sequenceNil => exact ⟨rfl, rfl⟩
  | sequenceStop _ ih =>
    cases h' with
    | scanned hs _ => cases hs
    | sequenceStop h => exact ih h
    | sequenceLater h _ => cases (ih h).2
    | sequenceCons h _ => cases (ih h).2
  | sequenceLater _ _ ih ihs =>
    cases h' with
    | scanned hs _ => cases hs
    | sequenceStop h => cases (ih h).2
    | sequenceLater h hs =>
      obtain ⟨rfl, heq⟩ := ih h
      cases heq
      obtain ⟨rfl, heq⟩ := ihs hs
      exact ⟨rfl, heq⟩
    | sequenceCons h hs =>
      obtain ⟨-, heq⟩ := ih h
      cases heq
      cases (ihs hs).2
  | sequenceCons _ _ ih ihs =>
    cases h' with
    | scanned hs _ => cases hs
    | sequenceStop h => cases (ih h).2
    | sequenceLater h hs =>
      obtain ⟨-, heq⟩ := ih h
      cases heq
      cases (ihs hs).2
    | sequenceCons h hs =>
      obtain ⟨rfl, heq⟩ := ih h
      cases heq
      obtain ⟨rfl, heq⟩ := ihs hs
      cases heq
      exact ⟨rfl, rfl⟩
  | manyDone _ ih =>
    cases h' with
    | scanned hs _ => cases hs
    | manyDone h => exact ⟨(ih h).1, rfl⟩
    | manyCons h _ => cases (ih h).2
  | manyCons _ _ ih ihs =>
    cases h' with
    | scanned hs _ => cases hs
    | manyDone h => cases (ih h).2
    | manyCons h hs =>
      obtain ⟨rfl, heq⟩ := ih h
      cases heq
      obtain ⟨rfl, heq⟩ := ihs hs
      cases heq
      exact ⟨rfl, rfl⟩
  | present _ ih =>
    cases h' with
    | scanned hs _ => cases hs
    | present h =>
      obtain ⟨rfl, heq⟩ := ih h
      cases heq
      exact ⟨rfl, rfl⟩
    | absent h => cases (ih h).2
  | absent _ ih =>
    cases h' with
    | scanned hs _ => cases hs
    | present h => cases (ih h).2
    | absent h => exact ⟨(ih h).1, rfl⟩
  | map _ ih =>
    cases h' with
    | scanned hs _ => cases hs
    | map h =>
      obtain ⟨rfl, heq⟩ := ih h
      cases heq
      exact ⟨rfl, rfl⟩
    | mapStop h => cases (ih h).2
  | mapStop _ ih =>
    cases h' with
    | scanned hs _ => cases hs
    | map h => cases (ih h).2
    | mapStop h => exact ⟨(ih h).1, Except.error.inj (ih h).2 ▸ rfl⟩

/-! ## What a run has come through -/

theorem Ends.of_scanner {s : Scanner} (hs : e.scanner? = some s) (h : M.Ends e p calls o) :
    calls = [] ∧ M.scan s p = some o := by
  cases h with
  | scanned hs' ho =>
    cases hs.symm.trans hs'
    exact ⟨rfl, ho⟩
  | called hb _ => cases hs.symm.trans (Expr.scanner?_of_body? hb)
  | _ => cases hs

theorem Ends.of_body {rule : Json.Rule} (hb : rule.body? = some e)
    (h : M.Ends (.json rule) p calls o) :
    ∃ calls', calls = (rule, p) :: calls' ∧ M.Ends e p calls' o := by
  cases h with
  | scanned hs _ => cases hs.symm.trans (Expr.scanner?_of_body? hb)
  | called hb' h =>
    cases hb.symm.trans hb'
    exact ⟨_, rfl, h⟩

theorem Ends.of_map {f : Datum → Datum} (h : M.Ends (.map f e) p calls o) :
    ∃ o', M.Ends e p calls o' := by
  cases h with
  | scanned hs _ => cases hs
  | map h => exact ⟨_, h⟩
  | mapStop h => exact ⟨_, h⟩

theorem Ends.of_sequence_cons {es : List Expr} (h : M.Ends (.sequence (e :: es)) p calls o) :
    (∃ fault, M.Ends e p calls (.error fault)) ∨
      ∃ v next calls₁ calls₂ o', calls = calls₁ ++ calls₂ ∧ M.Ends e p calls₁ (.ok (v, next)) ∧
        M.Ends (.sequence es) next calls₂ o' := by
  cases h with
  | scanned hs _ => cases hs
  | sequenceStop h => exact .inl ⟨_, h⟩
  | sequenceLater h hs => exact .inr ⟨_, _, _, _, _, rfl, h, hs⟩
  | sequenceCons h hs => exact .inr ⟨_, _, _, _, _, rfl, h, hs⟩

/-! ## Moving forward -/

/-- No call was made before the place, and no success lies before it. -/
structure Onward (le : M.Place → M.Place → Prop) (p : M.Place) (calls : List M.Call)
    (o : Except M.Fault (Datum × M.Place)) : Prop where
  calls_le : ∀ call ∈ calls, le p call.2
  next_le : ∀ {v next}, o = .ok (v, next) → le p next

section Onward

variable {le : M.Place → M.Place → Prop} {next : M.Place} {v : Datum}

theorem Onward.ok (hcalls : ∀ call ∈ calls, le p call.2) (hnext : le p next) :
    Onward le p calls (.ok (v, next)) where
  calls_le := hcalls
  next_le h := by
    cases h
    exact hnext

theorem Onward.error {fault : M.Fault} (hcalls : ∀ call ∈ calls, le p call.2) :
    Onward le p calls (.error fault) where
  calls_le := hcalls
  next_le h := by cases h

theorem Onward.append (h : Onward le p calls (.ok (v, next))) (h' : Onward le next calls' o)
    (htrans : ∀ {p q r}, le p q → le q r → le p r) : Onward le p (calls ++ calls') o where
  calls_le := List.forall_mem_append.2
    ⟨h.calls_le, fun call hcall => htrans (h.next_le rfl) (h'.calls_le call hcall)⟩
  next_le hok := htrans (h.next_le rfl) (h'.next_le hok)

/-- Where every scan goes forward, every run does. -/
theorem Ends.onward (h : M.Ends e p calls o) (hrefl : ∀ p, le p p)
    (htrans : ∀ {p q r}, le p q → le q r → le p r)
    (hscan : ∀ {s p v next}, M.scan s p = some (.ok (v, next)) → le p next) :
    Onward le p calls o := by
  induction h with
  | scanned _ ho => exact ⟨List.forall_mem_nil _, fun hok => hscan (hok ▸ ho)⟩
  | called _ _ ih => exact ⟨List.forall_mem_cons.2 ⟨hrefl _, ih.calls_le⟩, ih.next_le⟩
  | anyNil => exact .error (List.forall_mem_nil _)
  | anyFirst _ ih => exact ih
  | anyNext _ _ ih ihs =>
    exact ⟨List.forall_mem_append.2 ⟨ih.calls_le, ihs.calls_le⟩, ihs.next_le⟩
  | sequenceNil => exact .ok (List.forall_mem_nil _) (hrefl _)
  | sequenceStop _ ih => exact ih
  | sequenceLater _ _ ih ihs => exact ih.append ihs htrans
  | sequenceCons _ _ ih ihs =>
    have hboth := ih.append ihs htrans
    exact .ok hboth.calls_le (hboth.next_le rfl)
  | manyDone _ ih => exact .ok ih.calls_le (hrefl _)
  | manyCons _ _ ih ihs =>
    have hboth := ih.append ihs htrans
    exact .ok hboth.calls_le (hboth.next_le rfl)
  | present _ ih => exact .ok ih.calls_le (ih.next_le rfl)
  | absent _ ih => exact .ok ih.calls_le (hrefl _)
  | map _ ih => exact .ok ih.calls_le (ih.next_le rfl)
  | mapStop _ ih => exact .error ih.calls_le

end Onward

/-! ## Runs without an end -/

/-- A repetition has no end where its body succeeds without moving, as the empty literal does
everywhere. -/
theorem Ends.not_many {v : Datum} (h : M.Ends e p calls (.ok (v, p))) :
    ¬ M.Ends (.many e) p calls' o := by
  intro hmany
  generalize hexpr : Expr.many e = e' at hmany
  induction hmany with
  | scanned hs _ =>
    subst hexpr
    cases hs
  | manyDone hbody _ =>
    cases hexpr
    cases (h.unique hbody).2
  | manyCons hbody _ _ ih =>
    cases hexpr
    cases (h.unique hbody).2
    exact ih h rfl
  | _ => cases hexpr

end Machine

end Descent
