import Descent.Json.Rules
import Descent.Proofs.Json.Number
import Descent.Proofs.Json.StringLiteral

/-!
# The spellings of values

Which texts spell which values, said without the parser.  The entries of an array or an object may
have any white space around them and a comma behind them.  Nothing says how much of the white space
between two entries belongs to the first one of them, so that an array is spelled in as many ways as
its white space can be shared out.

A number has to be a longest run, which is why the text behind a spelling counts.
-/

namespace Descent.Json

open Text

variable {α : Type}

/-- Words of a language one after the other, each with white space around it and an optional comma
behind it. -/
inductive Entries (L : Language α) : Language (List α) where
  | nil {r : List Char} : Entries L [] [] r
  | cons {x u y k w r : List Char} {a : α} {as : List α} : Blank x → L u a (y ++ (k ++ (w ++ r))) →
      Blank y → k = [] ∨ k = [','] → Entries L w as r →
      Entries L (x ++ (u ++ (y ++ (k ++ w)))) (a :: as) r

/-- A key, a colon and a word of a language, with white space around the colon. -/
inductive Keyed (L : Language Value) : Language (String × Value) where
  | intro {u content y z v r : List Char} {item : Value} : Unescapes u content → Blank y → Blank z →
      L v item r → Keyed L (enquote u ++ (y ++ (':' :: (z ++ v)))) (String.ofList content, item) r

/-- The spellings of values. -/
inductive Spells : Language Value where
  | null {r : List Char} : Spells "null".toList .null r
  | bool {r : List Char} (b : Bool) : Spells (if b then "true" else "false").toList (.bool b) r
  | number {w r : List Char} {x : Binary64} : numbers w x r → Spells w (.number x) r
  | string {u content r : List Char} : Unescapes u content →
      Spells (enquote u) (.string (String.ofList content)) r
  | array {w r : List Char} {items : List Value} : Entries Spells w items (']' :: r) →
      Spells ('[' :: (w ++ [']'])) (.array items) r
  | object {w r : List Char} {fields : List (String × Value)} :
      Entries (Keyed Spells) w fields ('}' :: r) →
      Spells ('{' :: (w ++ ['}'])) (.object (Fields.ofPairs fields)) r

/-! ## Induction -/

/-- Spellings are proved to have a property container by container, where the entries of a container
have it already. -/
theorem Spells.induct {P : Language Value}
    (null : ∀ {r}, P "null".toList .null r)
    (bool : ∀ {r} (b : Bool), P (if b then "true" else "false").toList (.bool b) r)
    (number : ∀ {w r x}, numbers w x r → P w (.number x) r)
    (string : ∀ {u content r}, Unescapes u content →
      P (enquote u) (.string (String.ofList content)) r)
    (array : ∀ {w r items}, Entries (fun u v s => Spells u v s ∧ P u v s) w items (']' :: r) →
      P ('[' :: (w ++ [']'])) (.array items) r)
    (object : ∀ {w r fields},
      Entries (Keyed fun u v s => Spells u v s ∧ P u v s) w fields ('}' :: r) →
      P ('{' :: (w ++ ['}'])) (.object (Fields.ofPairs fields)) r)
    {w r : List Char} {v : Value} (h : Spells w v r) : P w v r := by
  refine @Spells.rec (fun w v r _ => P w v r)
    (fun w items r _ => Entries (fun u v s => Spells u v s ∧ P u v s) w items r)
    (fun w fields r _ => Entries (Keyed fun u v s => Spells u v s ∧ P u v s) w fields r)
    (fun w field r _ => Keyed (fun u v s => Spells u v s ∧ P u v s) w field r)
    null bool number string (fun _ => array) (fun _ => object) .nil ?_ .nil ?_ ?_ w v r h
  · exact fun hx hu hy hk _ hP hentries => .cons hx ⟨hu, hP⟩ hy hk hentries
  · exact fun hx _ hy hk _ hkeyed hentries => .cons hx hkeyed hy hk hentries
  · exact fun hu hy hz hv hP => .intro hu hy hz ⟨hv, hP⟩

/-! ## First characters -/

/-- The characters that a value can begin with. -/
def valueOpeners : List Char := "\x7b[0123456789.eE+-tf\"n".toList

theorem beginsIn_literals : literals.BeginsIn ['"'] := by
  rintro w content r ⟨u, rfl, -⟩
  exact ⟨'"', List.mem_singleton_self _, _, rfl⟩

theorem beginsIn_numbers : numbers.BeginsIn "0123456789.eE+-".toList := by
  rintro w x r ⟨hrun, d, hd, -⟩
  cases w with
  | nil => exact absurd rfl (ne_nil_of_numeral hd)
  | cons c w => exact ⟨c, List.contains_iff_mem.1 (all_cons_iff.1 hrun.1).1, w, rfl⟩

theorem beginsIn_spells : Language.BeginsIn Spells valueOpeners := by
  intro w v r h
  cases h with
  | null => exact ⟨'n', by decide, _, rfl⟩
  | bool b =>
    cases b with
    | true => exact ⟨'t', by decide, _, rfl⟩
    | false => exact ⟨'f', by decide, _, rfl⟩
  | number hx =>
    obtain ⟨c, hc, u, rfl⟩ := beginsIn_numbers hx
    have hsub : All valueOpeners.contains "0123456789.eE+-".toList := by decide
    exact ⟨c, List.contains_iff_mem.1 (hsub c hc), u, rfl⟩
  | string _ => exact ⟨'"', by decide, _, rfl⟩
  | array _ => exact ⟨'[', by decide, _, rfl⟩
  | object _ => exact ⟨'{', by decide, _, rfl⟩

theorem beginsIn_keyed (L : Language Value) : (Keyed L).BeginsIn ['"'] := by
  intro w field r h
  cases h
  exact ⟨'"', List.mem_singleton_self _, _, rfl⟩

/-- What stands between entries and behind them cannot be taken for the beginning of an entry. -/
structure Apart (L : Language α) (close : Char) : Prop where
  begins : ∀ {w a r}, L w a r →
    ∃ c u, w = c :: u ∧ isWhiteSpace c = false ∧ c ≠ ',' ∧ c ≠ close
  close_not_white : isWhiteSpace close = false
  close_ne_comma : close ≠ ','

theorem apart_of_beginsIn {L : Language α} {cs : List Char} {close : Char} (h : L.BeginsIn cs)
    (hcs : All (fun c => !isWhiteSpace c && c != ',' && c != close) cs)
    (hwhite : isWhiteSpace close = false) (hcomma : close ≠ ',') : Apart L close := by
  refine ⟨fun {w a r} hw => ?_, hwhite, hcomma⟩
  obtain ⟨c, hc, u, rfl⟩ := h hw
  exact ⟨c, u, rfl, by simpa [and_assoc] using hcs c hc⟩

theorem apart_spells : Apart Spells ']' :=
  apart_of_beginsIn beginsIn_spells (by decide) (by decide) (by decide)

theorem apart_keyed (L : Language Value) : Apart (Keyed L) '}' :=
  apart_of_beginsIn (beginsIn_keyed L) (by decide) (by decide) (by decide)

end Descent.Json
