import Descent.Parser.Visit
import Descent.Parser.Literal
import Descent.Proofs.Parser.Map

/-!
# Regrouping

Steps of a sequence can be put into a sequence of their own, and alternatives of a choice into a
choice of their own: what is read stays the same, and so does what fails and where.  Changing values
can be moved from the parts of a combinator to the whole.  All of these are equations between
parsers, in every monad that the parsers act in.
-/

namespace Descent.Parser

variable {m : Type → Type} [Monad m] [LawfulMonad m] {α β : Type}

/-- The values with `k` of them, those behind the first `n`, put together as one. -/
def regroup (wrap : List α → α) (n k : Nat) (as : List α) : List α :=
  as.take n ++ wrap ((as.drop n).take k) :: as.drop (n + k)

theorem regroup_append (wrap : List α → α) (as bs cs : List α) :
    regroup wrap as.length bs.length (as ++ (bs ++ cs)) = as ++ wrap bs :: cs := by
  simp [regroup, ← List.drop_drop]

theorem modify_append_cons (f : α → α) (as : List α) (a : α) (bs : List α) :
    (as ++ a :: bs).modify as.length f = as ++ f a :: bs := by
  induction as with
  | nil => rfl
  | cons b as ih => exact congrArg (b :: ·) ih

/-! ## Sequences -/

theorem sequence_append (ps qs : List (Parser m α)) :
    sequence (ps ++ qs) = sequence ps >>= fun as => (as ++ ·) <$> sequence qs := by
  induction ps with
  | nil => simp [sequence]
  | cons p ps ih => simp [sequence, ih, bind_assoc]

/-- A sequence gives one value for each step, so that nothing but its values of that length
matters to what follows it. -/
theorem sequence_bind_congr {ps : List (Parser m α)} {f g : List α → Parser m β}
    (h : ∀ as, as.length = ps.length → f as = g as) : sequence ps >>= f = sequence ps >>= g := by
  induction ps generalizing f g with
  | nil => simpa [sequence] using h [] rfl
  | cons p ps ih =>
    simp only [sequence, bind_assoc, pure_bind]
    refine bind_congr fun a => ih fun as has => h (a :: as) ?_
    rw [List.length_cons, has, List.length_cons]

theorem sequence_group (wrap : List α → α) (before middle after : List (Parser m α)) :
    sequence (before ++ wrap <$> sequence middle :: after) =
      regroup wrap before.length middle.length <$> sequence (before ++ (middle ++ after)) := by
  rw [sequence_append, sequence_append, map_bind]
  refine sequence_bind_congr fun as has => ?_
  rw [sequence_append, sequence, bind_map_left, map_bind, map_bind, map_bind]
  refine sequence_bind_congr fun bs hbs => ?_
  simp only [← bind_pure_comp, bind_assoc, pure_bind]
  refine bind_congr fun cs => ?_
  rw [← has, ← hbs, regroup_append]

/-- Changing the value of one step changes one value. -/
theorem sequence_map_step (f : α → α) (before : List (Parser m α)) (p : Parser m α)
    (after : List (Parser m α)) :
    sequence (before ++ f <$> p :: after) =
      (List.modify · before.length f) <$> sequence (before ++ p :: after) := by
  rw [sequence_append, sequence_append, map_bind]
  refine sequence_bind_congr fun as has => ?_
  simp only [sequence, ← bind_pure_comp, bind_assoc, pure_bind]
  refine bind_congr fun a => bind_congr fun bs => ?_
  rw [← has, modify_append_cons]

/-- Each value is changed by the function of its own step. -/
theorem sequence_map_each (steps : List ((α → β) × Parser m α)) :
    sequence (steps.map fun step => step.1 <$> step.2) =
      List.zipWith (fun step a => step.1 a) steps <$> sequence (steps.map Prod.snd) := by
  induction steps with
  | nil => simp only [List.map_nil, sequence, map_pure, List.zipWith_nil_left]
  | cons step steps ih =>
    simp only [List.map_cons, sequence, ih, bind_map_left, map_bind, map_pure,
      List.zipWith_cons_cons]

/-! ## Choices -/

theorem runIn_any_append (ps qs : List (Parser m α)) (c : Cursor) :
    (any (ps ++ qs)).runIn c =
      (any ps).runIn c >>= fun
        | .ok success => pure (.ok success)
        | .error _ => (any qs).runIn c := by
  induction ps with
  | nil => rw [List.nil_append, runIn_any_nil, pure_bind]
  | cons p ps ih =>
    rw [List.cons_append, runIn_any_cons, runIn_any_cons, bind_assoc]
    refine bind_congr fun outcome => ?_
    rcases outcome with failure | success
    · exact ih
    · dsimp only
      rw [pure_bind]

theorem any_group (before middle after : List (Parser m α)) :
    any (before ++ any middle :: after) = any (before ++ (middle ++ after)) := by
  apply ext_runIn
  intro c
  rw [runIn_any_append before, runIn_any_append before]
  refine bind_congr fun outcome => ?_
  rcases outcome with failure | success
  · exact (runIn_any_append middle after c).symm
  · rfl

/-! ## The laws -/

/-- Consecutive steps of a sequence can be grouped into an inner sequence, up to where their values
stand, and consecutive alternatives of a choice into an inner choice.  Changing values commutes with
choice, repetition and option, and with one step or all the steps of a sequence.  As equations
between parsers, these say that values, cursors, failures and effects are the same. -/
theorem combinators_regroup_and_map :
    (∀ (wrap : List α → α) (before middle after : List (Parser m α)),
      sequence (before ++ wrap <$> sequence middle :: after) =
        regroup wrap before.length middle.length <$> sequence (before ++ (middle ++ after))) ∧
    (∀ before middle after : List (Parser m α),
      any (before ++ any middle :: after) = any (before ++ (middle ++ after))) ∧
    (∀ (f : α → β) (ps : List (Parser m α)), any (ps.map (f <$> ·)) = f <$> any ps) ∧
    (∀ (f : α → β) (p : Parser m α), many (f <$> p) = List.map f <$> many p) ∧
    (∀ (f : α → β) (p : Parser m α), optional (f <$> p) = Option.map f <$> p.optional) ∧
    (∀ (f : α → α) (before : List (Parser m α)) (p : Parser m α) (after : List (Parser m α)),
      sequence (before ++ f <$> p :: after) =
        (List.modify · before.length f) <$> sequence (before ++ p :: after)) ∧
    ∀ steps : List ((α → β) × Parser m α),
      sequence (steps.map fun step => step.1 <$> step.2) =
        List.zipWith (fun step a => step.1 a) steps <$> sequence (steps.map Prod.snd) :=
  ⟨sequence_group, any_group, any_map, many_map, optional_map, sequence_map_step,
    sequence_map_each⟩

/-- A literal with a record of its runs. -/
def tracedLiteral (text : String) : Parser (Recording Visit) (List Char) :=
  traced text (literal text).lift

/-- Four letters, the middle ones as one word: of `abcx` the last letter is missing, which is
noticed at the same place and after the same visits if the letters are not grouped. -/
theorem combinators_regroup_and_map_letters :
    sequence ([tracedLiteral "a"] ++
        List.flatten <$> sequence [tracedLiteral "b", tracedLiteral "c"] :: [tracedLiteral "d"]) =
      regroup List.flatten 1 2 <$>
        sequence (["a", "b", "c", "d"].map tracedLiteral) ∧
    Recording.collect (runIn (sequence ([tracedLiteral "a"] ++
        List.flatten <$> sequence [tracedLiteral "b", tracedLiteral "c"] :: [tracedLiteral "d"]))
        (.ofString "abcx")) =
      (.error (.expected "`d`" ⟨"cba".toList, ['x']⟩),
        #[⟨"a", 0, true, 1⟩, ⟨"b", 1, true, 2⟩, ⟨"c", 2, true, 3⟩, ⟨"d", 3, false, 3⟩]) := by
  obtain ⟨hgroup, -⟩ := @combinators_regroup_and_map (Recording Visit) _ _ (List Char) (List Char)
  exact ⟨hgroup List.flatten [tracedLiteral "a"] [tracedLiteral "b", tracedLiteral "c"]
    [tracedLiteral "d"], rfl⟩

end Descent.Parser
