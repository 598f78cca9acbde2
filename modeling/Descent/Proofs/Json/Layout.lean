import Descent.Proofs.Json.Document
import Descent.Proofs.Json.Quoting
import Descent.Proofs.Json.Separated

/-!
# Layout

The commas and the white space of a document only keep its parts apart.  Any of them outside of
string literals may be replaced by other white space, and the value that is read stays the same: a
comma is optional wherever there is one, white space goes wherever some is, and whatever takes the
place of a comma or of white space still ends a number.
-/

namespace Descent.Json

open Descent.Text Quoting

variable {α : Type}

/-- Commas and white space. -/
def isSeparator (c : Char) : Bool := c = ',' ∨ isWhiteSpace c

/-- A text with some of its separators outside of string literals replaced, each by white space.
Where the first character stands is given. -/
inductive Relaid : Quoting → List Char → List Char → Prop where
  | nil {q : Quoting} : Relaid q [] []
  | kept {q : Quoting} {c : Char} {t t' : List Char} : Relaid (q.next c) t t' →
      Relaid q (c :: t) (c :: t')
  | replaced {c : Char} {x t t' : List Char} : isSeparator c = true → Blank x → x ≠ [] →
      Relaid outside t t' → Relaid outside (c :: t) (x ++ t')

/-! ## Parts of a text -/

theorem isSeparator_of_isWhiteSpace {c : Char} (h : isWhiteSpace c = true) :
    isSeparator c = true := by
  simp [isSeparator, h]

theorem next_of_isSeparator {c : Char} (h : isSeparator c = true) : outside.next c = outside := by
  apply next_outside
  rintro rfl
  exact absurd h (by decide)

theorem after_of_isSeparator {u : List Char} (h : All isSeparator u) :
    outside.after u = outside := by
  induction u with
  | nil => rfl
  | cons c u ih =>
    obtain ⟨hc, hu⟩ := all_cons_iff.1 h
    rw [after_cons, next_of_isSeparator hc, ih hu]

variable {q : Quoting} {t : List Char}

/-- The parts of a text are laid out anew one by one. -/
theorem Relaid.split {u v : List Char} (h : Relaid q (u ++ v) t) :
    ∃ u' v', t = u' ++ v' ∧ Relaid q u u' ∧ Relaid (q.after u) v v' := by
  induction u generalizing q t with
  | nil => exact ⟨[], t, rfl, .nil, h⟩
  | cons c u ih =>
    generalize hw : c :: u ++ v = w at h
    cases h with
    | nil => cases hw
    | kept h =>
      cases hw
      obtain ⟨u', v', rfl, hu, hv⟩ := ih h
      exact ⟨c :: u', v', rfl, .kept hu, hv⟩
    | replaced hc hx hne h =>
      cases hw
      obtain ⟨u', v', rfl, hu, hv⟩ := ih h
      rw [after_cons, next_of_isSeparator hc]
      exact ⟨_, v', (List.append_assoc _ u' v').symm, .replaced hc hx hne hu, hv⟩

theorem Relaid.eq_nil (h : Relaid q [] t) : t = [] := by
  cases h
  rfl

/-- White space stays white space. -/
theorem Relaid.blank {x : List Char} (h : Relaid outside x t) (hx : Blank x) : Blank t := by
  induction x generalizing t with
  | nil =>
    rw [h.eq_nil]
    exact all_nil _
  | cons c x ih =>
    obtain ⟨hc, hx⟩ := all_cons_iff.1 hx
    cases h with
    | kept h =>
      rw [next_of_isSeparator (isSeparator_of_isWhiteSpace hc)] at h
      exact all_cons_iff.2 ⟨hc, ih h hx⟩
    | replaced _ hy _ h => exact all_append_iff.2 ⟨hy, ih h hx⟩

/-- A comma stays a comma or becomes white space. -/
theorem Relaid.comma {k : List Char} (h : Relaid outside k t) (hk : k = [] ∨ k = [',']) :
    t = [','] ∨ Blank t := by
  rcases hk with rfl | rfl
  · exact .inr (h.blank (all_nil _))
  · cases h with
    | kept h =>
      rw [h.eq_nil]
      exact .inl rfl
    | replaced _ hx _ h =>
      rw [h.eq_nil, List.append_nil]
      exact .inr hx

theorem Relaid.split_blank {x r : List Char} (h : Relaid outside (x ++ r) t) (hx : Blank x) :
    ∃ x' r', t = x' ++ r' ∧ Blank x' ∧ Relaid outside r r' := by
  obtain ⟨x', r', rfl, hx', hr⟩ := h.split
  rw [after_of_isSeparator fun c hc => isSeparator_of_isWhiteSpace (hx c hc)] at hr
  exact ⟨x', r', rfl, hx'.blank hx, hr⟩

theorem Relaid.split_comma {k r : List Char} (h : Relaid outside (k ++ r) t)
    (hk : k = [] ∨ k = [',']) :
    ∃ k' r', t = k' ++ r' ∧ (k' = [','] ∨ Blank k') ∧ Relaid outside r r' := by
  obtain ⟨k', r', rfl, hk', hr⟩ := h.split
  have hseparators : All isSeparator k := by rcases hk with rfl | rfl <;> decide
  rw [after_of_isSeparator hseparators] at hr
  exact ⟨k', r', rfl, hk'.comma hk, hr⟩

/-- What ends a number still ends it. -/
theorem Relaid.stops_isNumeric {r : List Char} (h : Relaid outside r t)
    (hr : Stops isNumeric r) : Stops isNumeric t := by
  cases h with
  | nil => exact hr
  | kept _ => exact stops_cons_iff.2 (stops_cons_iff.1 hr)
  | replaced _ hx hne _ =>
    obtain ⟨d, x, rfl⟩ := List.exists_cons_of_ne_nil hne
    exact stops_cons_iff.2 (not_isNumeric_of_isWhiteSpace (all_cons_iff.1 hx).1)

/-! ## Words that stay -/

/-- A word that has no separators outside of string literals and closes each literal it opens. -/
structure Solid (u : List Char) : Prop where
  after_eq : outside.after u = outside
  isSeparator_eq : ∀ c, (outside, c) ∈ marked outside u → isSeparator c = false

theorem Relaid.eq_of_marked {u : List Char} (h : Relaid q u t)
    (hu : ∀ c, (outside, c) ∈ marked q u → isSeparator c = false) : t = u := by
  induction h with
  | nil => rfl
  | kept _ ih => rw [ih fun c hc => hu c (List.mem_cons_of_mem _ hc)]
  | replaced hc _ _ _ _ =>
    rw [hu _ List.mem_cons_self] at hc
    cases hc

theorem Relaid.split_solid {u r : List Char} (h : Relaid outside (u ++ r) t) (hu : Solid u) :
    ∃ r', t = u ++ r' ∧ Relaid outside r r' := by
  obtain ⟨u', r', rfl, hword, hrest⟩ := h.split
  rw [hu.after_eq] at hrest
  exact ⟨r', by rw [hword.eq_of_marked hu.isSeparator_eq], hrest⟩

theorem solid_of_all {u : List Char} (h : All (fun c => c != '"' && !isSeparator c) u) :
    Solid u := by
  simp only [All, Bool.and_eq_true, Bool.not_eq_true'] at h
  have hquotes : All (· != '"') u := fun c hc => (h c hc).1
  refine ⟨after_outside hquotes, fun c hc => ?_⟩
  rw [marked_outside hquotes] at hc
  obtain ⟨d, hd, heq⟩ := List.mem_map.1 hc
  cases heq
  exact (h c hd).2

theorem solid_enquote {u content : List Char} (h : Unescapes u content) : Solid (enquote u) := by
  refine ⟨after_enquote h, fun c hc => ?_⟩
  rw [marked_enquote h, List.mem_cons, List.mem_append, List.mem_singleton] at hc
  rcases hc with hc | hc | hc
  · cases hc
    decide
  · exact absurd rfl (ne_outside_of_mem_marked h _ hc)
  · cases hc

theorem solid_of_isNumeric {u : List Char} (h : All isNumeric u) : Solid u := by
  have hsolid : All (fun c => c != '"' && !isSeparator c) "0123456789.eE+-".toList := by decide
  exact solid_of_all fun c hc => hsolid c (List.contains_iff_mem.1 (h c hc))

/-! ## Values -/

/-- The text begins with a word of the language for the value, and what is behind the word is `r`
laid out anew. -/
def Remains (L : Language α) (a : α) (r t : List Char) : Prop :=
  ∃ w' r', t = w' ++ r' ∧ L w' a r' ∧ Relaid outside r r'

/-- Words of one language, laid out anew together with what is behind them, are words of the other
one with the same values. -/
def Inert (L M : Language α) : Prop :=
  ∀ ⦃w a r t⦄, L w a r → Relaid outside (w ++ r) t → Remains M a r t

theorem Inert.keyed {L M : Language Value} (h : Inert L M) : Inert (Keyed L) (Keyed M) := by
  rintro w field r t ⟨hu, hy, hz, hv⟩ ht
  simp only [List.append_assoc, List.cons_append] at ht
  obtain ⟨t₁, rfl, ht₁⟩ := ht.split_solid (solid_enquote hu)
  obtain ⟨y, t₂, rfl, hy', ht₂⟩ := ht₁.split_blank hy
  obtain ⟨t₃, rfl, ht₃⟩ := ht₂.split_solid (u := [':']) (solid_of_all (by decide))
  obtain ⟨z, t₄, rfl, hz', ht₄⟩ := ht₃.split_blank hz
  obtain ⟨v, r', rfl, hv', hr⟩ := h hv ht₄
  exact ⟨_, r', by simp, .intro hu hy' hz' hv', hr⟩

/-- Entries up to a closing bracket are laid out anew entry by entry.  White space in the place of
a comma goes to the white space in front of it. -/
theorem Inert.entries {L M : Language α} (h : Inert L M) {close : Char} (hclose : Solid [close])
    {w r t : List Char} {as : List α} (hw : Entries L w as (close :: r))
    (ht : Relaid outside (w ++ close :: r) t) :
    ∃ w' r', t = w' ++ close :: r' ∧ Entries M w' as (close :: r') ∧ Relaid outside r r' := by
  generalize hs : close :: r = s at hw ht
  induction hw generalizing t with
  | nil =>
    subst hs
    obtain ⟨r', rfl, hr⟩ := ht.split_solid (u := [close]) hclose
    exact ⟨[], r', rfl, .nil, hr⟩
  | cons hx hu hy hk _ ih =>
    subst hs
    simp only [List.append_assoc] at ht
    obtain ⟨x, t₁, rfl, hx', ht₁⟩ := ht.split_blank hx
    obtain ⟨u, t₂, rfl, hu', ht₂⟩ := h hu ht₁
    obtain ⟨y, t₃, rfl, hy', ht₃⟩ := ht₂.split_blank hy
    obtain ⟨k, t₄, rfl, hk', ht₄⟩ := ht₃.split_comma hk
    obtain ⟨w, r', rfl, hw, hr⟩ := ih rfl ht₄
    rcases hk' with rfl | hk'
    · exact ⟨_, r', by simp, .cons hx' hu' hy' (.inr rfl) hw, hr⟩
    · refine ⟨x ++ (u ++ ((y ++ k) ++ ([] ++ w))), r', by simp, .cons hx' ?_
        (all_append_iff.2 ⟨hy', hk'⟩) (.inl rfl) hw, hr⟩
      simpa using hu'

/-- A value laid out anew is the same value. -/
theorem inert_spells : Inert Spells Spells := by
  intro w v r t h
  have hparts : Inert (fun w v r => Spells w v r ∧
      ∀ t, Relaid outside (w ++ r) t → Remains Spells v r t) Spells :=
    fun _ _ _ t h ht => h.2 t ht
  refine Spells.induct (P := fun w v r => ∀ t, Relaid outside (w ++ r) t → Remains Spells v r t)
    ?_ ?_ ?_ ?_ ?_ ?_ h t
  · intro r t ht
    obtain ⟨r', rfl, hr⟩ := ht.split_solid (solid_of_all (by decide))
    exact ⟨_, r', rfl, .null, hr⟩
  · intro r b t ht
    have hsolid : Solid (if b then "true" else "false").toList :=
      solid_of_all (by cases b <;> decide)
    obtain ⟨r', rfl, hr⟩ := ht.split_solid hsolid
    exact ⟨_, r', rfl, .bool b, hr⟩
  · intro w r x hx t ht
    obtain ⟨r', rfl, hr⟩ := ht.split_solid (solid_of_isNumeric hx.1.1)
    exact ⟨_, r', rfl, .number ⟨⟨hx.1.1, hr.stops_isNumeric hx.1.2⟩, hx.2⟩, hr⟩
  · intro u content r hu t ht
    obtain ⟨r', rfl, hr⟩ := ht.split_solid (solid_enquote hu)
    exact ⟨_, r', rfl, .string hu, hr⟩
  · intro w r items hitems t ht
    simp only [List.cons_append, List.append_assoc] at ht
    obtain ⟨t₁, rfl, ht₁⟩ := ht.split_solid (u := ['[']) (solid_of_all (by decide))
    obtain ⟨w', r', rfl, hw', hr⟩ := hparts.entries (solid_of_all (by decide)) hitems ht₁
    exact ⟨_, r', by simp, .array hw', hr⟩
  · intro w r fields hfields t ht
    simp only [List.cons_append, List.append_assoc] at ht
    obtain ⟨t₁, rfl, ht₁⟩ := ht.split_solid (u := ['{']) (solid_of_all (by decide))
    obtain ⟨w', r', rfl, hw', hr⟩ := hparts.keyed.entries (solid_of_all (by decide)) hfields ht₁
    exact ⟨_, r', by simp, .object hw', hr⟩

/-! ## Documents -/

/-- Where a text is read completely, it is read as the same value with any of its commas and any of
its white space outside of string literals replaced by other white space. -/
theorem parseComplete_relaid {text text' : String} {v : Value}
    (h : Id.run (parseComplete text) = .ok v)
    (ht : Relaid outside text.toList text'.toList) : Id.run (parseComplete text') = .ok v := by
  obtain ⟨w, x, htext, hw, hx⟩ := parseComplete_eq_ok_iff.1 h
  rw [htext] at ht
  obtain ⟨w', x', htext', hw', hx'⟩ := inert_spells hw ht
  exact parseComplete_eq_ok_iff.2 ⟨w', x', htext', hw', hx'.blank hx⟩

/-- In a list of a comma, one and two, the comma in quotes stays, and the numbers stay apart by
white space alone. -/
theorem parseComplete_relaid_list :
    let one : Binary64 := ⟨false, 1023 * 2 ^ 52, by decide⟩
    let two : Binary64 := ⟨false, 1024 * 2 ^ 52, by decide⟩
    let v : Value := .array [.string ",", .number one, .number two]
    Id.run (parseComplete "[\",\",1,2]") = .ok v ∧
      Relaid outside "[\",\",1,2]".toList "[\",\" \t1\n2]".toList ∧
      Id.run (parseComplete "[\",\" \t1\n2]") = .ok v := by
  intro one two v
  have hspells : Spells "[\",\",1,2]".toList v [] := by
    have hone : numbers ['1'] one ",2]".toList :=
      ⟨⟨by decide, stops_cons_iff.2 (by decide)⟩,
        ofChars?_eq_some_iff_numeral.1 (by decide +kernel)⟩
    have htwo : numbers ['2'] two [']'] :=
      ⟨⟨by decide, stops_cons_iff.2 (by decide)⟩,
        ofChars?_eq_some_iff_numeral.1 (by decide +kernel)⟩
    have hcomma : Unescapes [','] [','] := .plain (by decide) (by decide) .nil
    exact .array (w := "\",\",1,2".toList)
      (.cons (x := []) (y := []) (all_nil _) (Spells.string hcomma) (all_nil _) (.inr rfl)
      (.cons (x := []) (y := []) (all_nil _) (Spells.number hone) (all_nil _) (.inr rfl)
      (.cons (x := []) (y := []) (all_nil _) (Spells.number htwo) (all_nil _) (.inl rfl) .nil)))
  have hread : Id.run (parseComplete "[\",\",1,2]") = .ok v :=
    parseComplete_eq_ok_iff.2 ⟨"[\",\",1,2]".toList, [], rfl, hspells, all_nil _⟩
  have hrelaid : Relaid outside "[\",\",1,2]".toList "[\",\" \t1\n2]".toList :=
    .kept (.kept (.kept (.kept (.replaced (x := " \t".toList) (by decide) (by decide) (by decide)
      (.kept (.replaced (x := ['\n']) (by decide) (by decide) (by decide) (.kept (.kept .nil))))))))
  exact ⟨hread, hrelaid, parseComplete_relaid hread hrelaid⟩

end Descent.Json
