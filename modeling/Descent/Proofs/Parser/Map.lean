import Descent.Parser.Many
import Descent.Parser.Sequence

/-!
# Values changed on the way

It makes no difference whether the values of a choice, an option or a repetition are changed as they
are read or all together in the end.  This holds in every monad that the parsers act in, so that
what is done there on the way is the same too.
-/

namespace Descent

/-- The outcome with another value. -/
def Outcome.mapValue {α β : Type} (f : α → β) : Outcome α → Outcome β
  | .ok (a, next) => .ok (f a, next)
  | .error failure => .error failure

namespace Parser

/-- Parsers that only read are equal if they do the same at every cursor. -/
theorem ext_run {α : Type} {p q : Parser Id α} (h : ∀ c, p.run c = q.run c) : p = q := funext h

/-- Where nothing but reading is done, lifting changes nothing. -/
theorem lift_eq {α : Type} (p : Parser Id α) : (p.lift : Parser Id α) = p := rfl

/-! ## Runs in a monad -/

section Run

variable {m : Type → Type} {α β : Type}

/-- Runs a parser in the monad that it acts in. -/
def runIn (p : Parser m α) (c : Cursor) : m (Outcome α) := p c

theorem ext_runIn {p q : Parser m α} (h : ∀ c, p.runIn c = q.runIn c) : p = q := funext h

variable [Monad m]

theorem runIn_bind (p : Parser m α) (f : α → Parser m β) (c : Cursor) :
    runIn (p >>= f) c =
      p.runIn c >>= fun
        | .ok (a, next) => (f a).runIn next
        | .error failure => pure (.error failure) := rfl

theorem runIn_map [LawfulMonad m] (f : α → β) (p : Parser m α) (c : Cursor) :
    runIn (f <$> p) c = Outcome.mapValue f <$> p.runIn c := by
  rw [map_eq_pure_bind, map_eq_pure_bind, runIn_bind]
  refine bind_congr fun outcome => ?_
  rcases outcome with failure | ⟨a, next⟩ <;> rfl

theorem runIn_any_nil (c : Cursor) :
    runIn (any ([] : List (Parser m α))) c = pure (.error (.noneMatched c)) := rfl

theorem runIn_any_cons (p : Parser m α) (ps : List (Parser m α)) (c : Cursor) :
    runIn (any (p :: ps)) c =
      p.runIn c >>= fun
        | .ok success => pure (.ok success)
        | .error _ => (any ps).runIn c := rfl

theorem runIn_optional (p : Parser m α) (c : Cursor) :
    runIn p.optional c =
      p.runIn c >>= fun
        | .ok (a, next) => pure (.ok (some a, next))
        | .error _ => pure (.ok (none, c)) := rfl

end Run

/-! ## Changing values -/

section Map

variable {m : Type → Type} [Monad m] [LawfulMonad m] {α β : Type} (f : α → β)

theorem any_map (ps : List (Parser m α)) : any (ps.map (f <$> ·)) = f <$> any ps := by
  apply ext_runIn
  intro c
  rw [runIn_map]
  induction ps with
  | nil => exact (map_pure (f := m) (Outcome.mapValue f) (.error (.noneMatched c))).symm
  | cons p ps ih =>
    rw [List.map_cons, runIn_any_cons, runIn_any_cons, runIn_map, bind_map_left, map_bind]
    refine bind_congr fun outcome => ?_
    rcases outcome with failure | ⟨a, next⟩
    · exact ih
    · exact (map_pure (f := m) (Outcome.mapValue f) (.ok (a, next))).symm

theorem optional_map (p : Parser m α) : optional (f <$> p) = Option.map f <$> p.optional := by
  apply ext_runIn
  intro c
  rw [runIn_map, runIn_optional, runIn_optional, runIn_map, bind_map_left, map_bind]
  refine bind_congr fun outcome => ?_
  rcases outcome with failure | ⟨a, next⟩
  · exact (map_pure (f := m) (Outcome.mapValue (Option.map f)) (.ok (none, c))).symm
  · exact (map_pure (f := m) (Outcome.mapValue (Option.map f)) (.ok (some a, next))).symm

theorem manyUpTo_map (p : Parser m α) (n : Nat) :
    manyUpTo (f <$> p) n = List.map f <$> manyUpTo p n := by
  induction n with
  | zero => exact (map_pure (List.map f) []).symm
  | succ n ih =>
    rw [manyUpTo, manyUpTo, optional_map, ih, bind_map_left, map_bind]
    refine bind_congr fun o => ?_
    cases o with
    | none => exact (map_pure (List.map f) []).symm
    | some a => simp only [Option.map_some, map_bind, bind_map_left, map_pure, List.map_cons]

theorem many_map (p : Parser m α) : many (f <$> p) = List.map f <$> many p :=
  funext fun c => congrFun (manyUpTo_map f p (c.rest.length + 1)) c

end Map

end Parser

end Descent
