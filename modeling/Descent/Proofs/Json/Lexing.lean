import Descent.Proofs.Json.Quoting
import Descent.Proofs.Json.RoundTrip
import Descent.Proofs.Json.Strict
import Descent.Proofs.Json.StrictReading

/-!
# The string literals of a text

What stands in the string literals of a text can be told from the text alone, without reading any
value.  So the literals in the text of a value and those in the text of a strict document are
compared through their characters: all characters of a text have some property, depending on where
they stand, if those of its literals have it and the characters between the literals do.
-/

namespace Descent.Json

open Descent.Text

namespace Quoting

variable {P : Quoting → Char → Prop} {u v content : List Char}

/-- Every literal that is opened in the text is closed in it. -/
def Closed (t : List Char) : Prop := outside.after t = outside

/-- Every character of the text has the property, which may depend on where it stands. -/
def Lexed (P : Quoting → Char → Prop) (t : List Char) : Prop := ∀ m ∈ marked outside t, P m.1 m.2

theorem map_marked (q : Quoting) (t : List Char) : (marked q t).map (·.2) = t := by
  induction t generalizing q with
  | nil => rfl
  | cons c t ih => rw [marked, List.map_cons, ih]

theorem mem_of_mem_marked {q : Quoting} {t : List Char} {m : Quoting × Char}
    (h : m ∈ marked q t) : m.2 ∈ t := by
  have hmem : m.2 ∈ (marked q t).map (·.2) := List.mem_map_of_mem h
  rwa [map_marked] at hmem

/-! ## Parts of a text -/

theorem Closed.append (hu : Closed u) (hv : Closed v) : Closed (u ++ v) := by
  rw [Closed, after_append, hu, hv]

theorem lexed_append_iff (hu : Closed u) : Lexed P (u ++ v) ↔ Lexed P u ∧ Lexed P v := by
  rw [Lexed, marked_append, hu]
  exact List.forall_mem_append

theorem lexed_of_all (h : All (· != '"') u) (hP : ∀ c ∈ u, P outside c) : Lexed P u := by
  rw [Lexed, marked_outside h]
  exact List.forall_mem_map.2 hP

theorem lexed_enquote_iff (h : Unescapes u content) (hopen : P outside '"')
    (hclose : P inside '"') : Lexed P (enquote u) ↔ ∀ m ∈ marked inside u, P m.1 m.2 := by
  rw [Lexed, marked_enquote h, List.forall_mem_cons, List.forall_mem_append,
    List.forall_mem_singleton]
  simp only [hopen, hclose, true_and, and_true]

theorem closed_cons {c : Char} (hc : c ≠ '"') (hu : Closed u) : Closed (c :: u) := by
  rw [Closed, after_cons, next_outside hc, hu]

theorem lexed_cons_iff {c : Char} (hc : c ≠ '"') (hP : P outside c) :
    Lexed P (c :: u) ↔ Lexed P u := by
  rw [Lexed, marked, next_outside hc, List.forall_mem_cons]
  exact and_iff_right hP

section Separated

variable {α : Type} {text : α → List Char} {as : List α}

theorem closed_separated (h : ∀ a ∈ as, Closed (text a)) : Closed (separated text as) := by
  induction as with
  | nil => rfl
  | cons a as ih =>
    rw [List.forall_mem_cons] at h
    cases as with
    | nil =>
      rw [separated_singleton]
      exact h.1
    | cons b as =>
      rw [separated_cons_cons]
      exact h.1.append (closed_cons (by decide) (ih h.2))

theorem lexed_separated_iff (hP : P outside ',') (h : ∀ a ∈ as, Closed (text a)) :
    Lexed P (separated text as) ↔ ∀ a ∈ as, Lexed P (text a) := by
  induction as with
  | nil => exact iff_of_true (List.forall_mem_nil _) (List.forall_mem_nil _)
  | cons a as ih =>
    rw [List.forall_mem_cons] at h ⊢
    cases as with
    | nil =>
      rw [separated_singleton]
      exact (and_iff_left (List.forall_mem_nil _)).symm
    | cons b as =>
      rw [separated_cons_cons, lexed_append_iff h.1, lexed_cons_iff (by decide) hP, ih h.2]

/-- A container around parts with commas between them. -/
theorem closed_container {opener closer : Char} (ho : opener ≠ '"') (hc : closer ≠ '"')
    (h : ∀ a ∈ as, Closed (text a)) : Closed (opener :: (separated text as ++ [closer])) :=
  closed_cons ho ((closed_separated h).append (closed_cons hc rfl))

theorem lexed_container_iff {opener closer : Char} (ho : opener ≠ '"') (hc : closer ≠ '"')
    (hPo : P outside opener) (hPc : P outside closer) (hP : P outside ',')
    (h : ∀ a ∈ as, Closed (text a)) :
    Lexed P (opener :: (separated text as ++ [closer])) ↔ ∀ a ∈ as, Lexed P (text a) := by
  rw [lexed_cons_iff ho hPo, lexed_append_iff (closed_separated h), lexed_cons_iff hc hPc,
    lexed_separated_iff hP h]
  exact and_iff_left (List.forall_mem_nil _)

end Separated

end Quoting

/-! ## Values -/

namespace Value

open Quoting

/-- The content is that of a string in the value or a key of an object in it. -/
def Contains (v : Value) (content : String) : Prop :=
  (string content).Within v ∨
    ∃ fields, (object fields).Within v ∧ content ∈ Fields.keys fields

variable {P : Quoting → Char → Prop} {Q : String → Prop} {items : List Value}
  {fields : List (String × Value)}

theorem forall_contains_array_iff : (∀ content, (array items).Contains content → Q content) ↔
    ∀ item ∈ items, ∀ content, item.Contains content → Q content := by
  constructor
  · rintro h item hitem content (hcontent | ⟨fields, hfields, hcontent⟩)
    · exact h content (.inl (.item hitem hcontent))
    · exact h content (.inr ⟨fields, .item hitem hfields, hcontent⟩)
  · rintro h content (hcontent | ⟨fields, hfields, hcontent⟩)
    · cases hcontent with
      | item hitem hcontent => exact h _ hitem content (.inl hcontent)
    · cases hfields with
      | item hitem hfields => exact h _ hitem content (.inr ⟨fields, hfields, hcontent⟩)

theorem forall_contains_object_iff : (∀ content, (object fields).Contains content → Q content) ↔
    ∀ field ∈ fields, Q field.1 ∧ ∀ content, field.2.Contains content → Q content := by
  constructor
  · intro h field hfield
    refine ⟨h _ (.inr ⟨fields, .refl, List.mem_map_of_mem hfield⟩), ?_⟩
    rintro content (hcontent | ⟨fields', hfields, hcontent⟩)
    · exact h content (.inl (.field hfield hcontent))
    · exact h content (.inr ⟨fields', .field hfield hfields, hcontent⟩)
  · rintro h content (hcontent | ⟨fields', hfields, hcontent⟩)
    · cases hcontent with
      | field hfield hcontent => exact (h _ hfield).2 content (.inl hcontent)
    · cases hfields with
      | refl =>
        obtain ⟨field, hfield, rfl⟩ := List.mem_map.1 hcontent
        exact (h field hfield).1
      | field hfield hfields => exact (h _ hfield).2 content (.inr ⟨fields', hfields, hcontent⟩)

theorem forall_contains_string_iff {s : String} :
    (∀ content, (string s).Contains content → Q content) ↔ Q s := by
  constructor
  · exact fun h => h s (.inl .refl)
  · rintro h content (hcontent | ⟨fields, hfields, -⟩)
    · cases hcontent
      exact h
    · cases hfields

theorem not_contains {v : Value} (hs : v.string? = none) (ha : v.array? = none)
    (ho : v.object? = none) (content : String) : ¬ v.Contains content := by
  rintro (h | ⟨fields, h, -⟩)
  · cases h with
    | refl => cases hs
    | item _ _ => cases ha
    | field _ _ => cases ho
  · cases h with
    | refl => cases ho
    | item _ _ => cases ha
    | field _ _ => cases ho

/-- What has no strings and no parts is written without quotes and white space. -/
theorem render_of_no_parts {v : Value} (hs : v.string? = none) (ha : v.array? = none)
    (ho : v.object? = none) :
    All (· != '"') v.render ∧ All (fun c => !isWhiteSpace c) v.render := by
  cases v with
  | null => exact ⟨by decide, by decide⟩
  | bool b => cases b <;> exact ⟨by decide, by decide⟩
  | number x =>
    rw [render, renderNumber]
    split
    · next hx =>
      obtain ⟨d, hd, -⟩ := Binary64.exists_numeral_toChars hx
      have hquotes : All (· != '"') "0123456789.eE+-".toList := by decide
      have hwhite : All (fun c => !isWhiteSpace c) "0123456789.eE+-".toList := by decide
      have hmem := fun c hc => List.contains_iff_mem.1 (all_isNumeric_of_numeral hd c hc)
      exact ⟨fun c hc => hquotes c (hmem c hc), fun c hc => hwhite c (hmem c hc)⟩
    · exact ⟨by decide, by decide⟩
  | string => cases hs
  | array => cases ha
  | object => cases ho

theorem closed_quote (content : String) : Closed (quote content.toList) :=
  after_enquote (unescapes_flatMap_escape content.toList)

theorem closed_render (v : Value) : Closed v.render := by
  induction v using Value.induct with
  | null | bool | number => exact after_outside (render_of_no_parts rfl rfl rfl).1
  | string content => exact closed_quote content
  | array items ih =>
    rw [render, renderItems_eq]
    exact closed_container (by decide) (by decide) ih
  | object fields ih =>
    rw [render, renderFields_eq]
    exact closed_container (by decide) (by decide) fun field hfield =>
      (closed_quote field.1).append (closed_cons (by decide) (ih field hfield))

/-- The characters of the text of a value have a property if those of its literals have it and all
the characters between them that are not white space, for there is no white space. -/
theorem lexed_render_iff (hP : ∀ c, isWhiteSpace c = false → P outside c) (hquote : P inside '"')
    (v : Value) : Lexed P v.render ↔ ∀ content, v.Contains content →
      ∀ m ∈ marked inside (content.toList.flatMap escape), P m.1 m.2 := by
  have hliteral (content : String) : Lexed P (quote content.toList) ↔
      ∀ m ∈ marked inside (content.toList.flatMap escape), P m.1 m.2 :=
    lexed_enquote_iff (unescapes_flatMap_escape content.toList) (hP _ (by decide)) hquote
  induction v using Value.induct with
  | null | bool | number =>
    refine iff_of_true (lexed_of_all (render_of_no_parts rfl rfl rfl).1 fun c hc => hP c ?_)
      fun content h => absurd h (not_contains rfl rfl rfl content)
    simpa using (render_of_no_parts rfl rfl rfl).2 c hc
  | string content =>
    rw [forall_contains_string_iff (Q := fun content =>
      ∀ m ∈ marked inside (content.toList.flatMap escape), P m.1 m.2)]
    exact hliteral content
  | array items ih =>
    rw [render, renderItems_eq, forall_contains_array_iff, lexed_container_iff (by decide)
      (by decide) (hP _ (by decide)) (hP _ (by decide)) (hP _ (by decide)) fun item _ =>
        closed_render item]
    exact forall₂_congr ih
  | object fields ih =>
    rw [render, renderFields_eq, forall_contains_object_iff, lexed_container_iff (by decide)
      (by decide) (hP _ (by decide)) (hP _ (by decide)) (hP _ (by decide)) fun field _ =>
        (closed_quote field.1).append (closed_cons (by decide) (closed_render field.2))]
    refine forall₂_congr fun field hfield => ?_
    rw [renderField, lexed_append_iff (closed_quote field.1), lexed_cons_iff (by decide)
      (hP _ (by decide))]
    exact and_congr (hliteral field.1) (ih field hfield)

end Value

/-! ## Strict documents -/

namespace Strict

open Quoting

variable {P : Quoting → Char → Prop} {Q : List Letter → Prop}

theorem Tree.forall_contains_array_iff {first : Padded Tree} {others : List (Padded Tree)} :
    (∀ letters, (array first others).Contains letters → Q letters) ↔
      ∀ item ∈ first :: others, ∀ letters, item.content.Contains letters → Q letters := by
  constructor
  · exact fun h item hitem letters hletters => h letters (hletters.item hitem)
  · rintro h letters (hletters | ⟨first', others', hobject, hmember⟩)
    · cases hletters with
      | item hitem hletters => exact h _ hitem letters (.inl hletters)
    · cases hobject with
      | item hitem hobject =>
        exact h _ hitem letters (.inr ⟨first', others', hobject, hmember⟩)

theorem Tree.forall_contains_object_iff {first : Padded (Member Tree)}
    {others : List (Padded (Member Tree))} :
    (∀ letters, (object first others).Contains letters → Q letters) ↔
      ∀ member ∈ first :: others, Q member.content.key ∧
        ∀ letters, member.content.content.Contains letters → Q letters := by
  constructor
  · exact fun h member hmember =>
      ⟨h _ (contains_key hmember), fun letters hletters => h letters (hletters.member hmember)⟩
  · rintro h letters (hletters | ⟨first', others', hobject, member, hmember, rfl⟩)
    · cases hletters with
      | member hmember hletters => exact (h _ hmember).2 letters (.inl hletters)
    · cases hobject with
      | refl => exact (h member hmember).1
      | member hmember' hobject =>
        exact (h _ hmember').2 _ (.inr ⟨first', others', hobject, member, hmember, rfl⟩)

theorem Tree.forall_contains_string_iff {s : List Letter} :
    (∀ letters, (string s).Contains letters → Q letters) ↔ Q s := by
  constructor
  · exact fun h => h s (.inl .refl)
  · rintro h letters (hletters | ⟨first, others, hobject, -⟩)
    · cases hletters
      exact h
    · cases hobject

/-! ### White space, strings and numbers -/

theorem Gap.all_ne_quote (gap : Gap) : All (· != '"') gap.text := by
  have hspaces : All (· != '"') " \t\n\r".toList := by decide
  exact fun c hc => hspaces c (List.contains_iff_mem.1 (gap.all_isSpace c hc))

theorem Gap.closed (gap : Gap) : Closed gap.text := after_outside gap.all_ne_quote

theorem Gap.lexed (hP : ∀ c, P outside c) (gap : Gap) : Lexed P gap.text :=
  lexed_of_all gap.all_ne_quote fun c _ => hP c

theorem closed_stringText (letters : List Letter) : Closed (stringText letters) :=
  after_enquote (unescapes_letters letters)

theorem lexed_stringText_iff (hP : ∀ c, P outside c) (hquote : P inside '"')
    (letters : List Letter) : Lexed P (stringText letters) ↔
      ∀ m ∈ marked inside (letters.flatMap Letter.text), P m.1 m.2 :=
  lexed_enquote_iff (unescapes_letters letters) (hP _) hquote

theorem Number.all_ne_quote (n : Number) : All (· != '"') n.text := by
  have hnumeric : All (· != '"') "0123456789.eE+-".toList := by decide
  exact fun c hc => hnumeric c (List.contains_iff_mem.1 (all_isNumeric_of_numeral n.numeral c hc))

section Padded

variable {α : Type} {f : α → List Char}

theorem Padded.closed {p : Padded α} (h : Closed (f p.content)) : Closed (p.text f) :=
  p.before.closed.append (h.append p.after.closed)

theorem Padded.lexed_iff (hP : ∀ c, P outside c) {p : Padded α} (h : Closed (f p.content)) :
    Lexed P (p.text f) ↔ Lexed P (f p.content) := by
  rw [Padded.text, lexed_append_iff p.before.closed, lexed_append_iff h]
  simp only [Gap.lexed hP, true_and, and_true]

theorem Member.closed {m : Member α} (h : Closed (f m.content)) : Closed (m.text f) :=
  (closed_stringText m.key).append (m.beforeColon.closed.append
    (closed_cons (by decide) (m.afterColon.closed.append h)))

theorem Member.lexed_iff (hP : ∀ c, P outside c) (m : Member α) :
    Lexed P (m.text f) ↔ Lexed P (stringText m.key) ∧ Lexed P (f m.content) := by
  rw [Member.text, lexed_append_iff (closed_stringText m.key),
    lexed_append_iff m.beforeColon.closed, lexed_cons_iff (by decide) (hP ':'),
    lexed_append_iff m.afterColon.closed]
  simp only [Gap.lexed hP, true_and]

end Padded

/-! ### Trees -/

theorem Tree.closed_text (t : Tree) : Closed t.text := by
  induction t using Tree.induct with
  | null => rfl
  | bool b => cases b <;> rfl
  | number n => exact after_outside n.all_ne_quote
  | string letters => exact closed_stringText letters
  | emptyArray gap => exact closed_cons (by decide) (gap.closed.append rfl)
  | array first others ih =>
    rw [Tree.text_array]
    exact closed_container (by decide) (by decide) fun item hitem => Padded.closed (ih item hitem)
  | emptyObject gap => exact closed_cons (by decide) (gap.closed.append rfl)
  | object first others ih =>
    rw [Tree.text_object]
    exact closed_container (by decide) (by decide) fun member hmember =>
      Padded.closed (Member.closed (ih member hmember))

/-- The characters of the text of a tree have a property if those of its literals have it and all
characters outside of literals. -/
theorem Tree.lexed_text_iff (hP : ∀ c, P outside c) (hquote : P inside '"') (t : Tree) :
    Lexed P t.text ↔ ∀ letters, t.Contains letters →
      ∀ m ∈ marked inside (letters.flatMap Letter.text), P m.1 m.2 := by
  have hbare {t : Tree} (ht : All (· != '"') t.text) (hnone : ∀ letters, ¬ t.Contains letters) :
      Lexed P t.text ↔ ∀ letters, t.Contains letters →
        ∀ m ∈ marked inside (letters.flatMap Letter.text), P m.1 m.2 :=
    iff_of_true (lexed_of_all ht fun c _ => hP c) fun letters h => absurd h (hnone letters)
  have hgap {opener closer : Char} (ho : (opener != '"') = true) (hc : (closer != '"') = true)
      (gap : Gap) : All (· != '"') (opener :: (gap.text ++ [closer])) :=
    all_cons_iff.2 ⟨ho, all_append_iff.2 ⟨gap.all_ne_quote, all_cons_iff.2 ⟨hc, all_nil _⟩⟩⟩
  induction t using Tree.induct with
  | string letters =>
    rw [forall_contains_string_iff (Q := fun letters =>
      ∀ m ∈ marked inside (letters.flatMap Letter.text), P m.1 m.2)]
    exact lexed_stringText_iff hP hquote letters
  | array first others ih =>
    rw [Tree.text_array, forall_contains_array_iff, lexed_container_iff (by decide) (by decide)
      (hP _) (hP _) (hP _) fun item _ => Padded.closed item.content.closed_text]
    refine forall₂_congr fun item hitem => ?_
    exact (Padded.lexed_iff hP item.content.closed_text).trans (ih item hitem)
  | object first others ih =>
    rw [Tree.text_object, forall_contains_object_iff, lexed_container_iff (by decide) (by decide)
      (hP _) (hP _) (hP _) fun member _ =>
        Padded.closed (Member.closed member.content.content.closed_text)]
    refine forall₂_congr fun member hmember => ?_
    rw [Padded.lexed_iff hP (Member.closed member.content.content.closed_text),
      Member.lexed_iff hP]
    exact and_congr (lexed_stringText_iff hP hquote _) (ih member hmember)
  | null => exact hbare (by decide) (by rintro _ (h | ⟨_, _, h, -⟩) <;> cases h)
  | bool b =>
    refine hbare ?_ (by rintro _ (h | ⟨_, _, h, -⟩) <;> cases h)
    cases b <;> decide
  | number n => exact hbare n.all_ne_quote (by rintro _ (h | ⟨_, _, h, -⟩) <;> cases h)
  | emptyArray gap =>
    exact hbare (hgap (by decide) (by decide) gap) (by rintro _ (h | ⟨_, _, h, -⟩) <;> cases h)
  | emptyObject gap =>
    exact hbare (hgap (by decide) (by decide) gap) (by rintro _ (h | ⟨_, _, h, -⟩) <;> cases h)

end Strict

end Descent.Json
