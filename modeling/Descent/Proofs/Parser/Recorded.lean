import Descent.Parser.Visit
import Descent.Proofs.Parser.Map
import Descent.Proofs.Parser.Repetition

/-!
# Which parsers are run, and from where

A parser that acts in `Recording` keeps a record of what happens while it runs.  `Appends` says that
its runs only ever add to the record, and that what they read and add does not depend on what was
recorded before.  The combinators keep this property, and with a record they read what they read
without one, which is `Follows`.  What a run of a combinator adds is put together from the runs that
it makes: `Relay`, `StepCalls` and `ChoiceCalls` say which parsers these are and where they start,
and a repetition follows the chain of `Maximal`.
-/

namespace Descent

namespace Recording

variable {ε α β : Type} {act : Recording ε α} {f : α → Recording ε β} {a : α} {b : β}
  {events events' : List ε}

/-- From any record, the computation gives the value and adds the events to the record. -/
def Adds (act : Recording ε α) (a : α) (events : List ε) : Prop :=
  ∀ record : Array ε, StateT.run act record = (a, record ++ events.toArray)

theorem adds_pure (a : α) : Adds (pure a : Recording ε α) a [] := by
  intro record
  show _ = (a, record ++ #[])
  rw [Array.append_empty]
  rfl

theorem adds_record (event : ε) : Adds (Record.record event : Recording ε Unit) () [event] :=
  fun _ => rfl

theorem Adds.bind (h : Adds act a events) (hf : Adds (f a) b events') :
    Adds (act >>= f) b (events ++ events') := by
  intro record
  rw [StateT.run_bind, h record, ← List.append_toArray, ← Array.append_assoc]
  exact hf _

theorem Adds.map (h : Adds act a events) (g : α → β) : Adds (g <$> act) (g a) events := by
  intro record
  rw [StateT.run_map, h record]
  rfl

theorem Adds.collect_eq (h : Adds act a events) : act.collect = (a, events.toArray) := by
  rw [collect, h, Array.empty_append]

end Recording

namespace Parser

open Recording

section Runs

variable {ε α β κ : Type} {p : Parser (Recording ε) α} {ps : List (Parser (Recording ε) α)}
  {q : Parser Id α} {f : α → Parser (Recording ε) β} {g : α → Parser Id β} {c next : Cursor} {a : α}
  {o : Outcome α} {o' : Outcome β} {failure : Failure} {events events' : List ε}

/-! ## Parsers that only add to the record -/

/-- What a parser reads, with no record before and no look at the record in the end. -/
def quiet (p : Parser (Recording ε) α) : Parser Id α := fun c => (p.runIn c).collect.1

/-- What a run of the parser records. -/
def log (p : Parser (Recording ε) α) (c : Cursor) : List ε := (p.runIn c).collect.2.toList

/-- The runs of the parser only add to the record, and the record has no say in them. -/
def Appends (p : Parser (Recording ε) α) : Prop := ∀ c, Adds (p.runIn c) (p.quiet.run c) (p.log c)

/-- The runs of the first parser read what those of the second one do, and add to the record. -/
def Follows (p : Parser (Recording ε) α) (q : Parser Id α) : Prop :=
  ∀ c, ∃ events, Adds (p.runIn c) (q.run c) events

theorem run_quiet (h : Adds (p.runIn c) o events) : p.quiet.run c = o :=
  congrArg Prod.fst h.collect_eq

theorem log_eq (h : Adds (p.runIn c) o events) : p.log c = events :=
  congrArg (fun r => r.2.toList) h.collect_eq

theorem Follows.quiet_eq (h : p.Follows q) : p.quiet = q := by
  apply ext_run
  intro c
  obtain ⟨events, hp⟩ := h c
  exact run_quiet hp

theorem Follows.appends (h : p.Follows q) : p.Appends := by
  intro c
  obtain ⟨events, hp⟩ := h c
  rw [run_quiet hp, log_eq hp]
  exact hp

theorem Appends.follows (h : p.Appends) : p.Follows p.quiet := fun c => ⟨p.log c, h c⟩

theorem Appends.adds_of_run (h : p.Appends) (hrun : p.quiet.run c = o) :
    Adds (p.runIn c) o (p.log c) :=
  hrun ▸ h c

/-! ## What a run adds -/

theorem adds_bind_ok (h : Adds (p.runIn c) (.ok (a, next)) events)
    (hf : Adds ((f a).runIn next) o' events') :
    Adds ((p >>= f).runIn c) o' (events ++ events') := by
  rw [runIn_bind]
  exact h.bind hf

theorem adds_bind_error (h : Adds (p.runIn c) (.error failure) events) :
    Adds ((p >>= f).runIn c) (.error failure) events := by
  rw [runIn_bind, ← List.append_nil events]
  exact h.bind (adds_pure _)

theorem adds_map (h : Adds (p.runIn c) o events) (g : α → β) :
    Adds ((g <$> p).runIn c) (o.mapValue g) events := by
  rw [runIn_map]
  exact h.map _

/-- An option adds what its parser does, whether that is read or given up. -/
theorem adds_optional (h : Adds (p.runIn c) (q.run c) events) :
    Adds (p.optional.runIn c) (q.optional.run c) events := by
  rw [runIn_optional, run_optional, ← List.append_nil events]
  refine h.bind ?_
  rcases q.run c with failure | ⟨a, next⟩ <;> exact adds_pure _

theorem adds_any_nil (c : Cursor) :
    Adds ((any ([] : List (Parser (Recording ε) α))).runIn c) (.error (.noneMatched c)) [] :=
  adds_pure _

theorem adds_any_first {success : α × Cursor} (h : Adds (p.runIn c) (.ok success) events) :
    Adds ((any (p :: ps)).runIn c) (.ok success) events := by
  rw [runIn_any_cons, ← List.append_nil events]
  exact h.bind (adds_pure _)

theorem adds_any_next (h : Adds (p.runIn c) (.error failure) events)
    (hps : Adds ((any ps).runIn c) o events') :
    Adds ((any (p :: ps)).runIn c) o (events ++ events') := by
  rw [runIn_any_cons]
  exact h.bind hps

theorem adds_sequence_nil (c : Cursor) :
    Adds ((sequence ([] : List (Parser (Recording ε) α))).runIn c) (.ok ([], c)) [] :=
  adds_pure _

theorem adds_sequence_stop (h : Adds (p.runIn c) (.error failure) events) :
    Adds ((sequence (p :: ps)).runIn c) (.error failure) events :=
  adds_bind_error h

theorem adds_sequence_next {os : Outcome (List α)} (h : Adds (p.runIn c) (.ok (a, next)) events)
    (hps : Adds ((sequence ps).runIn next) os events') :
    Adds ((sequence (p :: ps)).runIn c) (os.mapValue (a :: ·)) (events ++ events') := by
  rw [sequence]
  refine adds_bind_ok h ?_
  rw [bind_pure_comp]
  exact adds_map hps _

theorem adds_traced {p : Parser (Recording Visit) α} {events : List Visit} (tag : String)
    (h : Adds (p.runIn c) o events) :
    Adds ((p.traced tag).runIn c) o (events ++ [Visit.of tag c o]) := by
  have hrecord : Adds (do Record.record (Visit.of tag c o); pure o : Recording Visit (Outcome α)) o
      ([Visit.of tag c o] ++ []) :=
    (adds_record (Visit.of tag c o)).bind (adds_pure o)
  exact h.bind hrecord

/-! ## Combinators only add to the record -/

theorem follows_lift (q : Parser Id α) : (q.lift : Parser (Recording ε) α).Follows q :=
  fun _ => ⟨[], adds_pure _⟩

theorem follows_pure (a : α) : (pure a : Parser (Recording ε) α).Follows (pure a) :=
  fun _ => ⟨[], adds_pure _⟩

theorem Follows.bind (h : p.Follows q) (hf : ∀ a, (f a).Follows (g a)) :
    (p >>= f).Follows (q >>= g) := by
  intro c
  obtain ⟨events, hp⟩ := h c
  rw [run_bind]
  rcases hrun : q.run c with failure | ⟨a, next⟩
  · rw [hrun] at hp
    exact ⟨events, adds_bind_error hp⟩
  · rw [hrun] at hp
    obtain ⟨events', ha⟩ := hf a next
    exact ⟨events ++ events', adds_bind_ok hp ha⟩

theorem Follows.map (h : p.Follows q) (g : α → β) : (g <$> p).Follows (g <$> q) := by
  rw [map_eq_pure_bind, map_eq_pure_bind]
  exact h.bind fun a => follows_pure (g a)

theorem Follows.optional (h : p.Follows q) : p.optional.Follows q.optional :=
  fun c => (h c).imp fun _ hp => adds_optional hp

theorem Follows.manyUpTo (h : p.Follows q) (n : Nat) : (p.manyUpTo n).Follows (q.manyUpTo n) := by
  induction n with
  | zero => exact follows_pure []
  | succ n ih =>
    refine h.optional.bind fun o => ?_
    cases o with
    | none => exact follows_pure []
    | some a => exact ih.bind fun as => follows_pure (a :: as)

theorem Follows.many (h : p.Follows q) : p.many.Follows q.many :=
  fun c => h.manyUpTo (c.rest.length + 1) c

theorem follows_any {P : κ → Parser (Recording ε) α} {Q : κ → Parser Id α} {ks : List κ}
    (h : ∀ k ∈ ks, (P k).Follows (Q k)) : (any (ks.map P)).Follows (any (ks.map Q)) := by
  induction ks with
  | nil => exact fun c => ⟨[], adds_any_nil c⟩
  | cons k ks ih =>
    obtain ⟨hk, hks⟩ := List.forall_mem_cons.1 h
    intro c
    obtain ⟨events, hp⟩ := hk c
    rw [List.map_cons, List.map_cons, run_any_cons]
    rcases hrun : (Q k).run c with failure | success
    · rw [hrun] at hp
      obtain ⟨events', hps⟩ := ih hks c
      exact ⟨events ++ events', adds_any_next hp hps⟩
    · rw [hrun] at hp
      exact ⟨events, adds_any_first hp⟩

theorem follows_sequence {P : κ → Parser (Recording ε) α} {Q : κ → Parser Id α} {ks : List κ}
    (h : ∀ k ∈ ks, (P k).Follows (Q k)) :
    (sequence (ks.map P)).Follows (sequence (ks.map Q)) := by
  induction ks with
  | nil => exact follows_pure []
  | cons k ks ih =>
    obtain ⟨hk, hks⟩ := List.forall_mem_cons.1 h
    exact hk.bind fun a => (ih hks).bind fun as => follows_pure (a :: as)

theorem Follows.traced {p : Parser (Recording Visit) α} (h : p.Follows q) (tag : String) :
    (p.traced tag).Follows (q.traced tag) :=
  fun c => (h c).elim fun _ hp => ⟨_, adds_traced tag hp⟩

end Runs

/-! ## The runs that a combinator makes -/

section Calls

variable {κ ε α : Type} {parser : κ → Parser (Recording ε) α} {k : κ} {ks : List κ}
  {c last : Cursor} {calls : List (κ × Cursor)} {as : List α} {stops : List Cursor}
  {p : Parser (Recording ε) α} {ps : List (Parser (Recording ε) α)} {o : Outcome α}
  {os : Outcome (List α)} {failure : Failure} {events : List ε}

/-- What the called parsers record, one after the other. -/
def logs (parser : κ → Parser (Recording ε) α) (calls : List (κ × Cursor)) : List ε :=
  calls.flatMap fun call => (parser call.1).log call.2

theorem logs_append (calls calls' : List (κ × Cursor)) :
    logs parser (calls ++ calls') = logs parser calls ++ logs parser calls' :=
  List.flatMap_append

theorem logs_singleton (k : κ) (c : Cursor) : logs parser [(k, c)] = (parser k).log c :=
  List.flatMap_singleton _ _

theorem logs_map (k : κ) (cs : List Cursor) :
    logs parser (cs.map (k, ·)) = cs.flatMap (parser k).log :=
  List.flatMap_map _ _ _

/-- The called parsers succeed, each from where the one before it stopped. -/
inductive Relay (parser : κ → Parser (Recording ε) α) :
    Cursor → List (κ × Cursor) → List α → Cursor → Prop where
  | nil {c : Cursor} : Relay parser c [] [] c
  | cons {k : κ} {c next last : Cursor} {calls : List (κ × Cursor)} {a : α} {as : List α} :
      (parser k).quiet.run c = .ok (a, next) → Relay parser next calls as last →
      Relay parser c ((k, c) :: calls) (a :: as) last

/-- The runs that a sequence makes, with its outcome: all the steps in a relay, or those of a relay
and the first one that fails. -/
inductive StepCalls (parser : κ → Parser (Recording ε) α) :
    List κ → Cursor → List (κ × Cursor) → Outcome (List α) → Prop where
  | all {c last : Cursor} {calls : List (κ × Cursor)} {as : List α} :
      Relay parser c calls as last →
      StepCalls parser (calls.map Prod.fst) c calls (.ok (as, last))
  | stopped {k : κ} {later : List κ} {c last : Cursor} {calls : List (κ × Cursor)} {as : List α}
      {failure : Failure} : Relay parser c calls as last →
      (parser k).quiet.run last = .error failure →
      StepCalls parser (calls.map Prod.fst ++ k :: later) c (calls ++ [(k, last)]) (.error failure)

/-- The runs that a choice makes, with its outcome: all from the same cursor, up to the first
success if there is one. -/
inductive ChoiceCalls (parser : κ → Parser (Recording ε) α) :
    List κ → Cursor → List (κ × Cursor) → Outcome α → Prop where
  | first {k : κ} {before later : List κ} {c : Cursor} {success : α × Cursor} :
      (∀ k ∈ before, ∃ failure, (parser k).quiet.run c = .error failure) →
      (parser k).quiet.run c = .ok success →
      ChoiceCalls parser (before ++ k :: later) c ((before ++ [k]).map (·, c)) (.ok success)
  | none {ks : List κ} {c : Cursor} :
      (∀ k ∈ ks, ∃ failure, (parser k).quiet.run c = .error failure) →
      ChoiceCalls parser ks c (ks.map (·, c)) (.error (.noneMatched c))

/-! ### Sequences -/

/-- A sequence that starts with a relay adds what the relay does, and then what its later steps
do. -/
theorem Relay.adds_sequence (h : ∀ k, (parser k).Appends) (hrelay : Relay parser c calls as last)
    (hps : Adds ((sequence ps).runIn last) os events) :
    Adds ((sequence ((calls.map Prod.fst).map parser ++ ps)).runIn c) (os.mapValue (as ++ ·))
      (logs parser calls ++ events) := by
  induction hrelay generalizing os with
  | nil => rcases os with failure | ⟨as, last⟩ <;> exact hps
  | cons hrun _ ih =>
    have hcons := adds_sequence_next ((h _).adds_of_run hrun) (ih hps)
    rw [← List.append_assoc] at hcons
    rcases os with failure | ⟨as, last⟩ <;> exact hcons

theorem StepCalls.adds (h : ∀ k, (parser k).Appends) (hcalls : StepCalls parser ks c calls os) :
    Adds ((sequence (ks.map parser)).runIn c) os (logs parser calls) := by
  cases hcalls with
  | all hrelay =>
    have hadds := hrelay.adds_sequence h (adds_sequence_nil _)
    rwa [List.append_nil, List.append_nil, Outcome.mapValue, List.append_nil] at hadds
  | stopped hrelay hrun =>
    rw [List.map_append, List.map_cons, logs_append, logs_singleton]
    exact hrelay.adds_sequence h (adds_sequence_stop ((h _).adds_of_run hrun))

theorem exists_stepCalls (parser : κ → Parser (Recording ε) α) (ks : List κ) (c : Cursor) :
    ∃ calls os, StepCalls parser ks c calls os := by
  induction ks generalizing c with
  | nil => exact ⟨[], _, .all .nil⟩
  | cons k ks ih =>
    rcases hrun : (parser k).quiet.run c with failure | ⟨a, next⟩
    · exact ⟨_, _, .stopped .nil hrun⟩
    · obtain ⟨calls, os, hcalls⟩ := ih next
      cases hcalls with
      | all hrelay => exact ⟨_, _, .all (.cons hrun hrelay)⟩
      | stopped hrelay hfails => exact ⟨_, _, .stopped (.cons hrun hrelay) hfails⟩

theorem StepCalls.fst_mem (hcalls : StepCalls parser ks c calls os) {call : κ × Cursor}
    (hcall : call ∈ calls) : call.1 ∈ ks := by
  cases hcalls with
  | all _ => exact List.mem_map_of_mem hcall
  | stopped _ _ =>
    rcases List.mem_append.1 hcall with hcall | hcall
    · exact List.mem_append_left _ (List.mem_map_of_mem hcall)
    · rw [List.mem_singleton.1 hcall]
      exact List.mem_append_right _ List.mem_cons_self

/-! ### Choices -/

theorem adds_any_append (h : ∀ k, (parser k).Appends)
    (hfails : ∀ k ∈ ks, ∃ failure, (parser k).quiet.run c = .error failure)
    (hps : Adds ((any ps).runIn c) o events) :
    Adds ((any (ks.map parser ++ ps)).runIn c) o (logs parser (ks.map (·, c)) ++ events) := by
  induction ks with
  | nil => exact hps
  | cons k ks ih =>
    obtain ⟨failure, hrun⟩ := hfails k List.mem_cons_self
    have hnext := adds_any_next ((h k).adds_of_run hrun)
      (ih fun k' hk' => hfails k' (List.mem_cons_of_mem k hk'))
    rwa [← List.append_assoc] at hnext

theorem ChoiceCalls.adds (h : ∀ k, (parser k).Appends) (hcalls : ChoiceCalls parser ks c calls o) :
    Adds ((any (ks.map parser)).runIn c) o (logs parser calls) := by
  cases hcalls with
  | first hfails hrun =>
    rw [List.map_append, List.map_cons, List.map_append, List.map_singleton, logs_append,
      logs_singleton]
    exact adds_any_append h hfails (adds_any_first ((h _).adds_of_run hrun))
  | none hfails =>
    have hadds := adds_any_append h hfails (adds_any_nil c)
    rwa [List.append_nil, List.append_nil] at hadds

theorem ChoiceCalls.head {success : α × Cursor} (hrun : (parser k).quiet.run c = .ok success) :
    ChoiceCalls parser (k :: ks) c [(k, c)] (.ok success) := by
  show ChoiceCalls parser ([] ++ k :: ks) c (([] ++ [k]).map (·, c)) (.ok success)
  exact .first (fun _ hk => nomatch hk) hrun

theorem ChoiceCalls.next (hrun : (parser k).quiet.run c = .error failure)
    (hcalls : ChoiceCalls parser ks c calls o) :
    ChoiceCalls parser (k :: ks) c ((k, c) :: calls) o := by
  cases hcalls with
  | @first k' before later _ success hfails hk' =>
    show ChoiceCalls parser (k :: before ++ k' :: later) c ((k :: before ++ [k']).map (·, c)) _
    exact .first (List.forall_mem_cons.2 ⟨⟨failure, hrun⟩, hfails⟩) hk'
  | none hfails => exact .none (List.forall_mem_cons.2 ⟨⟨failure, hrun⟩, hfails⟩)

theorem exists_choiceCalls (parser : κ → Parser (Recording ε) α) (ks : List κ) (c : Cursor) :
    ∃ calls o, ChoiceCalls parser ks c calls o := by
  induction ks with
  | nil => exact ⟨[], _, .none fun _ hk => nomatch hk⟩
  | cons k ks ih =>
    rcases hrun : (parser k).quiet.run c with failure | success
    · obtain ⟨calls, o, hcalls⟩ := ih
      exact ⟨_, _, hcalls.next hrun⟩
    · exact ⟨_, _, .head hrun⟩

theorem ChoiceCalls.fst_mem (hcalls : ChoiceCalls parser ks c calls o) {call : κ × Cursor}
    (hcall : call ∈ calls) : call.1 ∈ ks := by
  cases hcalls with
  | first _ _ =>
    obtain ⟨k', hk', rfl⟩ := List.mem_map.1 hcall
    rw [List.append_cons]
    exact List.mem_append_left _ hk'
  | none _ =>
    obtain ⟨k', hk', rfl⟩ := List.mem_map.1 hcall
    exact hk'

/-! ### Repetitions -/

/-- A repetition with enough attempts left adds what the attempts of the chain do, and then what
the failing one does. -/
theorem Successes.adds_manyUpTo (h : p.Appends) (hchain : Successes p.quiet c as stops last)
    (hfails : p.quiet.run last = .error failure) {n : Nat} (hn : as.length < n) :
    Adds ((p.manyUpTo n).runIn c) (.ok (as, last)) ((c :: stops).flatMap p.log) := by
  induction hchain generalizing n with
  | @nil c =>
    obtain ⟨n, rfl⟩ : ∃ i, n = i + 1 := ⟨n - 1, by omega⟩
    have hstop := adds_optional (h c)
    rw [run_optional, hfails] at hstop
    exact adds_bind_ok hstop (adds_pure _)
  | @cons c next last a as stops hrun _ ih =>
    rw [List.length_cons] at hn
    obtain ⟨n, rfl⟩ : ∃ i, n = i + 1 := ⟨n - 1, by omega⟩
    have hmore := ih hfails (n := n) (by omega)
    have hfirst := adds_optional (h c)
    rw [run_optional, hrun] at hfirst
    refine adds_bind_ok hfirst ?_
    dsimp only
    rw [bind_pure_comp]
    exact adds_map hmore _

theorem Maximal.adds_many (h : p.Appends) (hp : p.quiet.Advances)
    (hchain : Maximal p.quiet c as stops last) :
    Adds (p.many.runIn c) (.ok (as, last)) ((c :: stops).flatMap p.log) := by
  -- What is left at the end of the chain bounds the number of its successes.
  obtain ⟨hsuccesses, failure, hfails⟩ := hchain
  have hlength := hsuccesses.length_add_le hp
  exact hsuccesses.adds_manyUpTo h hfails (by omega)

theorem Successes.length_stops {q : Parser Id α} (h : Successes q c as stops last) :
    stops.length = as.length := by
  induction h with
  | nil => rfl
  | cons _ _ ih => rw [List.length_cons, List.length_cons, ih]

end Calls

end Parser

end Descent
