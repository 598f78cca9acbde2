import Descent.Number.Decimal
import Descent.Proofs.Text.Run

/-!
# The texts of decimals

A numeral has an optional sign, digits with an optional point among or around them, at least one
digit on one side of the point, and an optional exponent with at least one digit.  The main
statement is `ofChars?_eq_some_iff`: reading accepts the numerals and nothing else, and gives the
decimal that the numeral stands for.
-/

namespace Descent

open Text

namespace Decimal

/-- An optional sign, and whether it is a minus. -/
inductive Sign : List Char → Bool → Prop where
  | none : Sign [] false
  | plus : Sign ['+'] false
  | minus : Sign ['-'] true

/-- An optional point with the digits after it. -/
inductive Fraction : List Char → List Char → Prop where
  | none : Fraction [] []
  | point {ds : List Char} : All Char.isDigit ds → Fraction ('.' :: ds) ds

/-- An optional exponent, and its value. -/
inductive Exponent : List Char → Int → Prop where
  | none : Exponent [] 0
  | power {c : Char} {s ds : List Char} {negative : Bool} : c = 'e' ∨ c = 'E' → Sign s negative →
      ds ≠ [] → All Char.isDigit ds →
      Exponent (c :: (s ++ ds)) (if negative then -(digitsValue ds : Int) else digitsValue ds)

/-- The text of a decimal. -/
inductive Numeral : List Char → Decimal → Prop where
  | intro {s whole f fraction x : List Char} {negative : Bool} {e : Int} :
      Sign s negative → All Char.isDigit whole → Fraction f fraction →
      ¬ (whole = [] ∧ fraction = []) → Exponent x e →
      Numeral (s ++ (whole ++ (f ++ x)))
        ⟨negative, digitsValue (whole ++ fraction), e - fraction.length⟩

/-! ## The parts -/

/-- The signs. -/
def isSign (c : Char) : Bool := c = '+' ∨ c = '-'

theorem not_isSign_of_isDigit {c : Char} (h : c.isDigit = true) : isSign c = false := by
  rw [isSign, decide_eq_false_iff_not]
  rintro (rfl | rfl) <;> exact absurd h (by decide)

theorem splitSign_of_stops {r : List Char} (h : Stops isSign r) : splitSign r = (false, r) := by
  cases r with
  | nil => rfl
  | cons c r =>
    have hc := stops_cons_iff.1 h
    rw [isSign, decide_eq_false_iff_not, not_or] at hc
    rw [splitSign]
    · exact fun r' e => hc.1 (List.cons.inj e).1
    · exact fun r' e => hc.2 (List.cons.inj e).1

theorem splitSign_append {s r : List Char} {negative : Bool} (hs : Sign s negative)
    (hr : Stops isSign r) : splitSign (s ++ r) = (negative, r) := by
  cases hs with
  | none => exact splitSign_of_stops hr
  | plus => rfl
  | minus => rfl

theorem exists_sign {cs r : List Char} {negative : Bool} (h : splitSign cs = (negative, r)) :
    ∃ s, Sign s negative ∧ cs = s ++ r := by
  fun_cases splitSign cs with
  | case1 cs =>
    cases h
    exact ⟨_, .plus, rfl⟩
  | case2 cs =>
    cases h
    exact ⟨_, .minus, rfl⟩
  | case3 =>
    cases h.symm.trans (splitSign.eq_3 _ ‹_› ‹_›)
    exact ⟨_, .none, rfl⟩

theorem splitDigits_append {ds r : List Char} (h : IsRun Char.isDigit ds r) :
    splitDigits (ds ++ r) = (ds, r) :=
  Prod.ext (takeWhile_append_of_isRun h) (dropWhile_append_of_isRun h)

theorem all_digits {cs ds r : List Char} (h : splitDigits cs = (ds, r)) :
    All Char.isDigit ds ∧ cs = ds ++ r := by
  cases h
  exact ⟨(isRun_takeWhile_dropWhile Char.isDigit cs).1, List.takeWhile_append_dropWhile.symm⟩

/-- The characters that begin a point or continue the digits before it. -/
def isPointOrDigit (c : Char) : Bool := c = '.' ∨ c.isDigit

theorem splitFraction_append {f fraction r : List Char} (hf : Fraction f fraction)
    (hr : Stops isPointOrDigit r) : splitFraction (f ++ r) = (fraction, r) := by
  cases hf with
  | none =>
    cases r with
    | nil => rfl
    | cons c r =>
      have hc := stops_cons_iff.1 hr
      rw [isPointOrDigit, decide_eq_false_iff_not, not_or] at hc
      rw [List.nil_append, splitFraction]
      exact fun r' e => hc.1 (List.cons.inj e).1
  | point hds =>
    refine splitDigits_append ⟨hds, fun c hc => ?_⟩
    have := hr c hc
    rw [isPointOrDigit, decide_eq_false_iff_not, not_or] at this
    simpa using this.2

theorem exists_fraction {cs ds r : List Char} (h : splitFraction cs = (ds, r)) :
    ∃ f, Fraction f ds ∧ cs = f ++ r := by
  fun_cases splitFraction cs with
  | case1 cs =>
    obtain ⟨hds, hcs⟩ := all_digits h
    exact ⟨_, .point hds, congrArg ('.' :: ·) hcs⟩
  | case2 =>
    cases h.symm.trans (splitFraction.eq_2 _ ‹_›)
    exact ⟨_, .none, rfl⟩

theorem exponent?_eq_some_iff {cs : List Char} {e : Int} :
    exponent? cs = some e ↔ Exponent cs e := by
  constructor
  · intro h
    cases cs with
    | nil =>
      cases h
      exact .none
    | cons c cs =>
      rcases hcs : splitSign cs with ⟨negative, ds⟩
      simp only [exponent?, hcs, Option.ite_none_right_eq_some, Option.some.injEq] at h
      obtain ⟨⟨hc, hne, hds⟩, rfl⟩ := h
      obtain ⟨s, hs, rfl⟩ := exists_sign hcs
      exact .power hc hs hne (List.all_eq_true.1 hds)
  · intro h
    cases h with
    | none => rfl
    | power hc hs hne hds =>
      rename_i c s ds negative
      have hstop : Stops isSign ds := by
        cases ds with
        | nil => exact absurd rfl hne
        | cons d ds => exact stops_cons_iff.2 (not_isSign_of_isDigit (all_cons_iff.1 hds).1)
      simp only [exponent?, splitSign_append hs hstop]
      rw [if_pos ⟨hc, hne, List.all_eq_true.2 hds⟩]

theorem Exponent.stops {x : List Char} {e : Int} (h : Exponent x e) : Stops isPointOrDigit x := by
  cases h with
  | none => exact stops_nil _
  | power hc => exact stops_cons_iff.2 (by rcases hc with rfl | rfl <;> decide)

/-! ## Reading -/

theorem ofChars?_of_parts {cs unsigned tail x whole fraction : List Char} {negative : Bool}
    (hs : splitSign cs = (negative, unsigned)) (hd : splitDigits unsigned = (whole, tail))
    (hf : splitFraction tail = (fraction, x)) :
    ofChars? cs = if whole = [] ∧ fraction = [] then none
      else (exponent? x).map fun e =>
        ⟨negative, digitsValue (whole ++ fraction), e - fraction.length⟩ := by
  simp only [ofChars?, hs, hd, hf]

/-- The digits and the fraction of a numeral do not run into what comes behind them. -/
theorem Fraction.stops {f fraction x : List Char} {e : Int} (hf : Fraction f fraction)
    (hx : Exponent x e) : Stops Char.isDigit (f ++ x) := by
  cases hf with
  | none =>
    intro c hc
    have := hx.stops c hc
    rw [isPointOrDigit, decide_eq_false_iff_not, not_or] at this
    simpa using this.2
  | point => exact stops_cons_iff.2 (by decide)

/-- Reading accepts the numerals and nothing else. -/
theorem ofChars?_eq_some_iff {cs : List Char} {d : Decimal} :
    ofChars? cs = some d ↔ Numeral cs d := by
  constructor
  · intro h
    rcases hcs : splitSign cs with ⟨negative, unsigned⟩
    rcases hunsigned : splitDigits unsigned with ⟨whole, tail⟩
    rcases htail : splitFraction tail with ⟨fraction, x⟩
    rw [ofChars?_of_parts hcs hunsigned htail, Option.ite_none_left_eq_some,
      Option.map_eq_some_iff] at h
    obtain ⟨hne, e, he, rfl⟩ := h
    obtain ⟨s, hs, rfl⟩ := exists_sign hcs
    obtain ⟨hwhole, rfl⟩ := all_digits hunsigned
    obtain ⟨f, hf, rfl⟩ := exists_fraction htail
    exact .intro hs hwhole hf hne (exponent?_eq_some_iff.1 he)
  · rintro ⟨hs, hwhole, hf, hne, hx⟩
    rename_i s whole f fraction x negative e
    have hunsigned : Stops isSign (whole ++ (f ++ x)) := by
      cases whole with
      | cons c whole => exact stops_cons_iff.2 (not_isSign_of_isDigit (all_cons_iff.1 hwhole).1)
      | nil =>
        cases hf with
        | none => exact absurd ⟨rfl, rfl⟩ hne
        | point => exact stops_cons_iff.2 (by decide)
    rw [ofChars?_of_parts (splitSign_append hs hunsigned)
      (splitDigits_append ⟨hwhole, hf.stops hx⟩) (splitFraction_append hf hx.stops), if_neg hne,
      exponent?_eq_some_iff.2 hx, Option.map_some]

end Decimal

end Descent
