import Descent.Proofs.Json.RepeatedKeys
import Descent.Proofs.Json.WholeNumber

/-!
# Alternatives that exclude each other

A value is an object, an array, a number, a truth value, a string or null, and its first character
tells which.  So the six rules never compete: a choice between them is the rule for values in
whatever order they are tried and however they are grouped into choices inside choices.
-/

namespace Descent.Json

open Descent.Text Descent.Parser

variable {c next : Cursor} {v : Value} {rule rule' : Rule} {failure : Failure}

/-! ## First characters -/

/-- The characters that numbers begin with. -/
def numberOpeners : List Char := "0123456789.+-".toList

/-- An exponent has digits in front of it, so that no number begins with its letter. -/
theorem beginsIn_numberOpeners : numbers.BeginsIn numberOpeners := by
  rintro w x r ⟨-, d, hd, -⟩
  cases hd with
  | @intro s whole f fraction x negative e hs hwhole hf hne hx =>
    cases hs with
    | plus => exact ⟨'+', by decide, _, rfl⟩
    | minus => exact ⟨'-', by decide, _, rfl⟩
    | none =>
      cases whole with
      | cons c whole =>
        have hc := mem_digits_of_isDigit (all_cons_iff.1 hwhole).1
        exact ⟨c, List.mem_append_left ".+-".toList hc, _, rfl⟩
      | nil =>
        cases hf with
        | none => exact absurd ⟨rfl, rfl⟩ hne
        | point _ => exact ⟨'.', by decide, _, rfl⟩

theorem exists_number_of_mem {ch : Char} (h : ch ∈ numberOpeners) :
    ∃ x next, number.run (.start [ch, '0']) = .ok (.number x, next) := by
  have hnumeric : All isNumeric numberOpeners := by decide
  have hread : All (fun ch => (Decimal.ofChars? [ch, '0']).isSome) numberOpeners := by decide
  obtain ⟨d, hd⟩ := Option.isSome_iff_exists.1 (hread ch h)
  have hrun : IsRun isNumeric [ch, '0'] [] :=
    ⟨all_cons_iff.2 ⟨hnumeric ch h, by decide⟩, stops_nil _⟩
  exact ⟨_, _, (run_number_of_numeral hrun (Decimal.ofChars?_eq_some_iff.1 hd)).2⟩

namespace Rule

/-- The rules for values of one kind. -/
def kinds : List Rule := [object, array, number, boolean, string, null]

/-- The rule for the values that begin with a character, if there are any. -/
def ofOpener? : Char → Option Rule
  | '{' => some object
  | '[' => some array
  | '"' => some string
  | 't' | 'f' => some boolean
  | 'n' => some null
  | ch => if numberOpeners.contains ch then some number else none

/-- The values that a rule is for. -/
def language : Rule → Language Value
  | object => objects Spells
  | array => arrays Spells
  | number => numbers.map Value.number
  | boolean => booleans
  | string => strings
  | null => nulls
  | primitive => primitives
  | value => Spells

theorem reads (n : Nat) (rule : Rule) : Reads n rule.parser rule.language := by
  cases rule with
  | object => exact reads_object
  | array => exact fun _ hc => reads_arrayOf (reads_value (n := n)) (Nat.lt_succ_of_lt hc)
  | number => exact reads_number
  | boolean => exact reads_boolean
  | string => exact reads_string
  | null => exact reads_null
  | primitive => exact reads_primitive
  | value => exact reads_value

theorem beginsIn_of_mem_kinds (h : rule ∈ kinds) :
    ∃ openers, rule.language.BeginsIn openers ∧
      All (fun ch => ofOpener? ch = some rule) openers := by
  cases rule with
  | object => exact ⟨_, beginsIn_enclosed '{' _ _ _, by decide⟩
  | array => exact ⟨_, beginsIn_enclosed '[' _ _ _, by decide⟩
  | number => exact ⟨_, beginsIn_numberOpeners.map _, by decide⟩
  | boolean => exact ⟨_, beginsIn_booleans, by decide⟩
  | string => exact ⟨_, beginsIn_strings, by decide⟩
  | null => exact ⟨_, beginsIn_nulls, by decide⟩
  | primitive | value => exact absurd h (by decide)

/-- The first character tells which rule it is that succeeds. -/
theorem ofOpener?_of_run (h : rule ∈ kinds) (hrun : rule.parser.run c = .ok (v, next)) :
    c.peek?.bind ofOpener? = some rule := by
  obtain ⟨openers, hbegins, hopeners⟩ := beginsIn_of_mem_kinds h
  obtain ⟨w, hs, hw⟩ := (rule.reads _ (Nat.lt_succ_self _)).1 hrun
  obtain ⟨ch, hch, u, rfl⟩ := hbegins hw
  rw [Cursor.peek?, hs.rest_eq]
  exact of_decide_eq_true (hopeners ch hch)

/-- The rule for a first character does succeed in front of a text that begins with it. -/
theorem exists_run_of_ofOpener? {ch : Char} (h : ofOpener? ch = some rule) :
    ∃ text v next, rule.parser.run (.start (ch :: text)) = .ok (v, next) := by
  unfold ofOpener? at h
  split at h
  · cases h
    exact ⟨['}'], _, _, rfl⟩
  · cases h
    exact ⟨[']'], _, _, rfl⟩
  · cases h
    exact ⟨['"'], _, _, rfl⟩
  · cases h
    exact ⟨"rue".toList, _, _, rfl⟩
  · cases h
    exact ⟨"alse".toList, _, _, rfl⟩
  · cases h
    exact ⟨"ull".toList, _, _, rfl⟩
  · split at h
    · next hch =>
      cases h
      obtain ⟨x, next, hrun⟩ := exists_number_of_mem (List.contains_iff_mem.1 hch)
      exact ⟨['0'], _, _, hrun⟩
    · cases h

/-- At most one of the rules succeeds at a cursor. -/
theorem eq_of_run (h : rule ∈ kinds) (h' : rule' ∈ kinds) {success success' : Value × Cursor}
    (hrun : rule.parser.run c = .ok success) (hrun' : rule'.parser.run c = .ok success') :
    rule = rule' :=
  Option.some.inj ((ofOpener?_of_run h hrun).symm.trans (ofOpener?_of_run h' hrun'))

end Rule

/-! ## Choices inside choices -/

/-- Rules under choices that are nested in any way. -/
inductive Grouping where
  | leaf (rule : Rule)
  | any (parts : List Grouping)

namespace Grouping

mutual

/-- The parser that a grouping describes. -/
def parser : Grouping → Parser Id Value
  | leaf rule => rule.parser
  | any parts => Parser.any (parsers parts)

/-- The parsers that the groupings of a list describe. -/
def parsers : List Grouping → List (Parser Id Value)
  | [] => []
  | part :: parts => part.parser :: parsers parts

end

mutual

/-- The rules in a grouping, from left to right. -/
def rules : Grouping → List Rule
  | leaf rule => [rule]
  | any parts => rulesOf parts

/-- The rules in the groupings of a list, from left to right. -/
def rulesOf : List Grouping → List Rule
  | [] => []
  | part :: parts => part.rules ++ rulesOf parts

end

variable {t : Grouping} {parts : List Grouping}

theorem parsers_eq (parts : List Grouping) : parsers parts = parts.map parser := by
  induction parts with
  | nil => rfl
  | cons part parts ih => rw [parsers, ih, List.map_cons]

theorem mem_rules_any_iff : rule ∈ (any parts).rules ↔ ∃ part ∈ parts, rule ∈ part.rules := by
  rw [rules]
  induction parts with
  | nil => simp [rulesOf]
  | cons part parts ih => simp [rulesOf, ih]

/-- Groupings are proved to have a property if choices have it whose parts have it. -/
theorem induct {P : Grouping → Prop} (leaf : ∀ rule, P (leaf rule))
    (any : ∀ parts, (∀ part ∈ parts, P part) → P (any parts)) (t : Grouping) : P t := by
  refine @Grouping.rec P (fun parts => ∀ part ∈ parts, P part) leaf any ?_ ?_ t
  · exact fun _ h => absurd h List.not_mem_nil
  · exact fun part parts hpart hparts => List.forall_mem_cons.2 ⟨hpart, hparts⟩

/-- What a grouping reads is read by one of its rules. -/
theorem exists_of_run (t : Grouping) (h : t.parser.run c = .ok (v, next)) :
    ∃ rule ∈ t.rules, rule.parser.run c = .ok (v, next) := by
  induction t using Grouping.induct with
  | leaf rule => exact ⟨rule, List.mem_singleton_self rule, h⟩
  | any parts ih =>
    obtain ⟨p, hp, hrun⟩ := exists_of_run_any h
    rw [parsers_eq] at hp
    obtain ⟨part, hpart, rfl⟩ := List.mem_map.1 hp
    obtain ⟨rule, hrule, hrun⟩ := ih part hpart hrun
    exact ⟨rule, mem_rules_any_iff.2 ⟨part, hpart, hrule⟩, hrun⟩

/-- Where a grouping fails, so do all its rules. -/
theorem forall_of_run (t : Grouping) (h : t.parser.run c = .error failure) :
    ∀ rule ∈ t.rules, ∃ failure', rule.parser.run c = .error failure' := by
  induction t using Grouping.induct generalizing failure with
  | leaf rule =>
    intro rule' hrule
    obtain rfl := List.mem_singleton.1 hrule
    exact ⟨failure, h⟩
  | any parts ih =>
    intro rule hrule
    obtain ⟨part, hpart, hrule⟩ := mem_rules_any_iff.1 hrule
    have hmem : part.parser ∈ parsers parts := by
      rw [parsers_eq]
      exact List.mem_map_of_mem hpart
    obtain ⟨failure', hrun⟩ := forall_of_run_any h _ hmem
    exact ih part hpart hrun rule hrule

/-- The rule for values as it is grouped. -/
def standard : Grouping :=
  any [leaf .object, leaf .array, any [leaf .number, leaf .boolean, leaf .string, leaf .null]]

theorem run_standard (c : Cursor) : standard.parser.run c = value.run c := (run_value c).symm

/-- A grouping of all the kinds is a choice. -/
theorem eq_noneMatched_of_run (h : t.rules.Perm Rule.kinds)
    (hrun : t.parser.run c = .error failure) : failure = .noneMatched c := by
  cases t with
  | leaf rule => exact absurd (show 1 = 6 from h.length_eq) (by decide)
  | any parts => exact eq_noneMatched_of_run_any hrun

/-- Of two groupings of all the kinds, both fail where one of them does. -/
theorem run_ne_ok {u : Grouping} (ht : t.rules.Perm Rule.kinds) (hu : u.rules.Perm Rule.kinds)
    (hrun : t.parser.run c = .error failure) : u.parser.run c ≠ .ok (v, next) := by
  intro hrun'
  obtain ⟨rule, hrule, hok⟩ := u.exists_of_run hrun'
  obtain ⟨failure', herror⟩ := t.forall_of_run hrun rule ((hu.trans ht.symm).subset hrule)
  rw [herror] at hok
  cases hok

/-- Groupings of all the kinds do the same. -/
theorem run_eq_of_perm {u : Grouping} (ht : t.rules.Perm Rule.kinds)
    (hu : u.rules.Perm Rule.kinds) (c : Cursor) : t.parser.run c = u.parser.run c := by
  rcases hrun : t.parser.run c with failure | ⟨v, next⟩ <;>
    rcases hrun' : u.parser.run c with failure' | ⟨v', next'⟩
  · rw [eq_noneMatched_of_run ht hrun, eq_noneMatched_of_run hu hrun']
  · exact absurd hrun' (run_ne_ok ht hu hrun)
  · exact absurd hrun (run_ne_ok hu ht hrun')
  · obtain ⟨rule, hrule, hok⟩ := t.exists_of_run hrun
    obtain ⟨rule', hrule', hok'⟩ := u.exists_of_run hrun'
    obtain rfl := Rule.eq_of_run (ht.subset hrule) (hu.subset hrule') hok hok'
    exact hok.symm.trans hok'

end Grouping

/-- The first character at a cursor tells which of the six rules can succeed there, and each of them
does succeed somewhere in front of each of its characters.  At most one rule succeeds at a cursor.
So every choice between them, in any order and nested in any way, does what the rule for values
does. -/
theorem alternatives_never_compete :
    (∀ rule ∈ Rule.kinds, ∀ c v next, rule.parser.run c = .ok (v, next) →
      c.peek?.bind Rule.ofOpener? = some rule) ∧
    (∀ ch rule, Rule.ofOpener? ch = some rule →
      ∃ text v next, rule.parser.run (.start (ch :: text)) = .ok (v, next)) ∧
    (∀ rule ∈ Rule.kinds, ∀ rule' ∈ Rule.kinds, ∀ c success success',
      rule.parser.run c = .ok success → rule'.parser.run c = .ok success' → rule = rule') ∧
    ∀ t : Grouping, t.rules.Perm Rule.kinds → ∀ c,
      t.parser.run c = value.run c ∧
        ∀ failure, t.parser.run c = .error failure → failure = .noneMatched c := by
  refine ⟨fun rule hrule c v next => Rule.ofOpener?_of_run hrule,
    fun ch rule => Rule.exists_run_of_ofOpener?,
    fun rule hrule rule' hrule' c success success' => Rule.eq_of_run hrule hrule',
    fun t ht c => ⟨?_, fun failure => Grouping.eq_noneMatched_of_run ht⟩⟩
  have hstandard : Grouping.standard.rules.Perm Rule.kinds := .refl _
  exact (Grouping.run_eq_of_perm ht hstandard c).trans (Grouping.run_standard c)

/-- The kinds in the opposite order and in pairs, on a list and on a text that begins like no
value. -/
theorem alternatives_never_compete_reversed :
    ∃ t : Grouping, t.rules = [.null, .string, .boolean, .number, .array, .object] ∧
      t.rules.Perm Rule.kinds ∧
      t.parser.run (.start "[null]".toList) = value.run (.start "[null]".toList) ∧
      Rule.array.parser.run (.start "[null]".toList) =
        .ok (.array [.null], ⟨"[null]".toList.reverse, []⟩) ∧
      (Cursor.start "[null]".toList).peek?.bind Rule.ofOpener? = some .array ∧
      (∀ rule ∈ Rule.kinds, ∀ success,
        rule.parser.run (.start "[null]".toList) = .ok success → rule = .array) ∧
      (∃ text v next, Rule.array.parser.run (.start ('[' :: text)) = .ok (v, next)) ∧
      t.parser.run (.start "e1".toList) = .error (.noneMatched (.start "e1".toList)) := by
  obtain ⟨hopener, hopened, hunique, hgrouping⟩ := alternatives_never_compete
  have hperm : (Grouping.any [.any [.leaf .null, .leaf .string], .any [.leaf .boolean,
      .leaf .number], .any [.leaf .array, .leaf .object]]).rules.Perm Rule.kinds := by decide
  have harray : Rule.array.parser.run (.start "[null]".toList) =
      .ok (.array [.null], ⟨"[null]".toList.reverse, []⟩) := rfl
  obtain ⟨hfails, hnone⟩ := hgrouping _ hperm (.start "e1".toList)
  refine ⟨_, rfl, hperm, (hgrouping _ hperm _).1, harray, hopener .array (by decide) _ _ _ harray,
    fun rule hrule success hrun => hunique rule hrule .array (by decide) _ _ _ hrun harray,
    hopened '[' .array rfl, ?_⟩
  rcases hrun : (Grouping.parser _).run (.start "e1".toList) with failure | success
  · rw [hnone failure hrun]
  · rw [hrun] at hfails
    cases hfails

end Descent.Json
