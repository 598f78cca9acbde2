import Descent.Proofs.Json.Document
import Descent.Proofs.Json.Strict

/-!
# Reading strict documents

Strict documents are read, apart from those that begin with white space or have white space in an
empty container.  One such container anywhere in a document is enough: its opening bracket cannot
begin a value, and no other reading of the text in front of it would get past it.

What is read is the value of the document, but for escapes, which only lose their backslashes.
-/

namespace Descent.Json.Strict

open Descent.Text

/-! ## Letters, numbers and white space -/

theorem Gap.blank (gap : Gap) : Blank gap.text := by
  have hspaces : All isWhiteSpace " \t\n\r".toList := by decide
  exact fun c hc => hspaces c (List.contains_iff_mem.1 (gap.all_isSpace c hc))

theorem Gap.stops_isNumeric (gap : Gap) : Stops isNumeric gap.text := by
  rw [← List.append_nil gap.text]
  exact stops_isNumeric_append gap.blank (stops_nil _)

theorem unescapes_plain {ds u content : List Char} (hds : All (fun c => c != '"' && c != '\\') ds)
    (h : Unescapes u content) : Unescapes (ds ++ u) (ds ++ content) := by
  induction ds with
  | nil => exact h
  | cons d ds ih =>
    obtain ⟨hd, hds⟩ := all_cons_iff.1 hds
    simp only [Bool.and_eq_true, bne_iff_ne] at hd
    exact .plain hd.1 hd.2 (ih hds)

theorem unescapes_letter (letter : Letter) {u content : List Char} (h : Unescapes u content) :
    Unescapes (letter.text ++ u) (letter.bare ++ content) := by
  cases letter with
  | plain c hc =>
    simp only [isPlain, Bool.and_eq_true, bne_iff_ne] at hc
    exact .plain hc.1.2 hc.2 h
  | escape e => exact .escaped e.letter h
  | unicode v =>
    have hhex : All (fun c => c != '"' && c != '\\') "0123456789abcdefABCDEF".toList := by decide
    have hdigits : All (fun c => c != '"' && c != '\\') v.digits := fun c hc =>
      hhex c (List.contains_iff_mem.1 (v.all_isHexDigit c hc))
    exact .escaped 'u' (unescapes_plain hdigits h)

/-- The text of letters unescapes to the text without backslashes. -/
theorem unescapes_letters (letters : List Letter) :
    Unescapes (letters.flatMap Letter.text) (bareText letters) := by
  induction letters with
  | nil => exact .nil
  | cons letter letters ih =>
    rw [List.flatMap_cons, bareText, List.flatMap_cons]
    exact unescapes_letter letter ih

theorem sign_signText (sign : Option Bool) :
    Decimal.Sign (signText sign) (sign = some true) := by
  rcases sign with - | - | -
  · exact .none
  · exact .plus
  · exact .minus

theorem Exponent.numeral (e : Exponent) : Decimal.Exponent e.text e.value := by
  have hletter : (if e.upper then 'E' else 'e') = 'e' ∨ (if e.upper then 'E' else 'e') = 'E' := by
    cases e.upper
    · exact Or.inl rfl
    · exact Or.inr rfl
  have hpower := Decimal.Exponent.power hletter (sign_signText e.sign) e.digits.text_ne_nil
    e.digits.all_isDigit
  simpa [Exponent.text, Exponent.value] using hpower

/-- A number is a numeral for the decimal it stands for. -/
theorem Number.numeral (n : Number) : Decimal.Numeral n.text n.decimal := by
  have hsign : Decimal.Sign (if n.negative then ['-'] else []) n.negative := by
    cases n.negative
    · exact .none
    · exact .minus
  have hfraction : Decimal.Fraction ((n.fraction.map fun f => '.' :: f.text).getD [])
      n.fractionDigits := by
    unfold Number.fractionDigits
    cases n.fraction with
    | none => exact .none
    | some f => exact .point f.all_isDigit
  have hexponent : Decimal.Exponent ((n.exponent.map (·.text)).getD [])
      ((n.exponent.map (·.value)).getD 0) := by
    cases n.exponent with
    | none => exact .none
    | some e => exact e.numeral
  exact .intro hsign n.whole.all_isDigit hfraction (fun h => n.whole.text_ne_nil h.1) hexponent

theorem Number.spells (n : Number) {r : List Char} (hr : Stops isNumeric r) :
    Spells n.text (.number n.decimal.toBinary64) r :=
  .number ⟨⟨all_isNumeric_of_numeral n.numeral, hr⟩, n.decimal, n.numeral, Decimal.rounds_iff.2 rfl⟩

/-! ## Tight trees -/

section Tight

variable {gap : Gap}

theorem tight_emptyArray_iff : (Tree.emptyArray gap).Tight ↔ gap.text = [] := by
  constructor
  · exact fun h => h gap (Or.inl .refl)
  · rintro h gap (hgap | hgap)
    · cases hgap
      exact h
    · cases hgap

theorem tight_emptyObject_iff : (Tree.emptyObject gap).Tight ↔ gap.text = [] := by
  constructor
  · exact fun h => h gap (Or.inr .refl)
  · rintro h gap (hgap | hgap)
    · cases hgap
    · cases hgap
      exact h

theorem tight_array_iff {first : Padded Tree} {others : List (Padded Tree)} :
    (Tree.array first others).Tight ↔ ∀ item ∈ first :: others, item.content.Tight := by
  constructor
  · exact fun h item hitem gap hgap => h gap (hgap.imp (.item hitem) (.item hitem))
  · rintro h gap (hgap | hgap)
    · cases hgap with
      | item hitem hgap => exact h _ hitem gap (Or.inl hgap)
    · cases hgap with
      | item hitem hgap => exact h _ hitem gap (Or.inr hgap)

theorem tight_object_iff {first : Padded (Member Tree)} {others : List (Padded (Member Tree))} :
    (Tree.object first others).Tight ↔
      ∀ member ∈ first :: others, member.content.content.Tight := by
  constructor
  · exact fun h member hmember gap hgap => h gap (hgap.imp (.member hmember) (.member hmember))
  · rintro h gap (hgap | hgap)
    · cases hgap with
      | member hmember hgap => exact h _ hmember gap (Or.inl hgap)
    · cases hgap with
      | member hmember hgap => exact h _ hmember gap (Or.inr hgap)

end Tight

theorem Member.keyed {m : Member Tree} {r : List Char}
    (h : Spells m.content.text (m.content.value bareText) r) :
    Keyed Spells (m.text Tree.text) (m.value bareText) r :=
  .intro (unescapes_letters m.key) m.beforeColon.blank m.afterColon.blank h

/-- The text of a tight tree spells its value with bare strings. -/
theorem Tree.spells (t : Tree) : t.Tight → ∀ r, Stops isNumeric r →
    Spells t.text (t.value bareText) r := by
  induction t using Tree.induct with
  | null => exact fun _ _ _ => .null
  | bool b => exact fun _ _ _ => .bool b
  | string letters => exact fun _ _ _ => .string (unescapes_letters letters)
  | number n => exact fun _ _ hr => n.spells hr
  | emptyArray gap =>
    intro h r _
    rw [Tree.text, tight_emptyArray_iff.1 h]
    exact .array .nil
  | array first others ih =>
    intro h r _
    rw [tight_array_iff] at h
    rw [Tree.text_array, Tree.value_array]
    exact .array (entries_separated (fun item => item.before.blank) (fun item => item.after.blank)
      (by decide) r fun item hitem => ih item hitem (h item hitem))
  | emptyObject gap =>
    intro h r _
    rw [Tree.text, tight_emptyObject_iff.1 h]
    exact .object .nil
  | object first others ih =>
    intro h r _
    rw [tight_object_iff] at h
    rw [Tree.text_object, Tree.value_object, ← Fields.ofPairs_eq_settle]
    exact .object (entries_separated (fun member => member.before.blank)
      (fun member => member.after.blank) (by decide) r fun member hmember r hr =>
        Member.keyed (ih member hmember (h member hmember) r hr))

/-! ## Trees that are not tight -/

theorem Tree.exists_head (t : Tree) : ∃ c ∈ valueOpeners, ∃ u, t.text = c :: u := by
  cases t with
  | null => exact ⟨'n', by decide, _, rfl⟩
  | bool b => exact beginsIn_spells (Spells.bool (r := []) b)
  | number n => exact beginsIn_spells (n.spells (stops_nil _))
  | string letters => exact ⟨'"', by decide, _, rfl⟩
  | emptyArray gap => exact ⟨'[', by decide, _, rfl⟩
  | array first others => exact ⟨'[', by decide, _, Tree.text_array first others⟩
  | emptyObject gap => exact ⟨'{', by decide, _, rfl⟩
  | object first others => exact ⟨'{', by decide, _, Tree.text_object first others⟩

theorem Tree.stops_text (t : Tree) (r : List Char) : Stops isWhiteSpace (t.text ++ r) := by
  have hopeners : All (fun c => !isWhiteSpace c) valueOpeners := by decide
  obtain ⟨c, hc, u, hu⟩ := t.exists_head
  rw [hu]
  exact stops_cons_iff.2 (by simpa using hopeners c hc)

theorem entries_of_bracket {w s t : List Char} {v : Value} (h : Spells w v s)
    (e : w ++ s = '[' :: t) : ∃ u items, Entries Spells u items (']' :: s) ∧ u ++ ']' :: s = t := by
  rcases spells_iff.1 h with ⟨u, fields, rfl, -, -⟩ | ⟨u, items, rfl, -, hu⟩ | hprimitive
  · exact absurd (List.cons.inj e).1 (by decide)
  · exact ⟨u, items, hu, by simpa using e⟩
  · obtain ⟨c, hc, u, rfl⟩ := beginsIn_primitives hprimitive
    rw [(List.cons.inj e).1] at hc
    exact absurd hc (by decide)

theorem entries_of_brace {w s t : List Char} {v : Value} (h : Spells w v s)
    (e : w ++ s = '{' :: t) :
    ∃ u fields, Entries (Keyed Spells) u fields ('}' :: s) ∧ u ++ '}' :: s = t := by
  rcases spells_iff.1 h with ⟨u, fields, rfl, -, hu⟩ | ⟨u, items, rfl, -, -⟩ | hprimitive
  · exact ⟨u, fields, hu, by simpa using e⟩
  · exact absurd (List.cons.inj e).1 (by decide)
  · obtain ⟨c, hc, u, rfl⟩ := beginsIn_primitives hprimitive
    rw [(List.cons.inj e).1] at hc
    exact absurd hc (by decide)

theorem Spells.keyed_unique {w w' r r' : List Char} {field field' : String × Value}
    (h : Keyed Spells w field r) (h' : Keyed Spells w' field' r') (e : w ++ r = w' ++ r') :
    w = w' :=
  ((reads_keyed reads_value apart_spells).unique (Nat.lt_succ_self _) h h' e).1

/-- Behind a key and a colon, the value is what makes a member. -/
theorem Member.begins {m : Member Tree} {r : List Char}
    (h : (Keyed Spells).Begins (m.text Tree.text ++ r)) :
    Language.Begins Spells (m.content.text ++ r) := by
  obtain ⟨w, field, s, e, hu, hy, hz, hv⟩ := h
  rename_i u content y z v item
  simp only [Member.text, stringText, List.append_assoc, List.cons_append] at e
  have hliterals : enquote (m.key.flatMap Letter.text) = enquote u :=
    (reads_stringLiteral.unique (Nat.lt_succ_self _) ⟨_, rfl, unescapes_letters m.key⟩
      ⟨u, rfl, hu⟩ e).1
  rw [hliterals] at e
  have hcolon : ∀ t, Stops isWhiteSpace (':' :: t) := fun _ => stops_cons_iff.2 (by decide)
  obtain ⟨-, e⟩ := IsRun.unique (p := isWhiteSpace) ⟨m.beforeColon.blank, hcolon _⟩
    ⟨hy, hcolon _⟩ (List.append_cancel_left e)
  obtain ⟨-, e⟩ := IsRun.unique (p := isWhiteSpace) ⟨m.afterColon.blank, m.content.stops_text r⟩
    ⟨hz, apart_spells.stops hv⟩ (List.cons.inj e).2
  exact ⟨v, item, s, e, hv⟩

/-- Where the text of a tree begins a text that begins with a value, the tree is tight. -/
theorem Tree.tight_of_begins (t : Tree) : ∀ r, Stops isNumeric r →
    Language.Begins Spells (t.text ++ r) → t.Tight := by
  induction t using Tree.induct with
  | null | bool | number | string =>
    rintro r - - gap (h | h) <;> cases h
  | emptyArray gap =>
    rintro r - ⟨w, v, s, e, hw⟩
    obtain ⟨u, items, hu, e⟩ := entries_of_bracket hw e.symm
    exact tight_emptyArray_iff.2 (eq_nil_of_entries apart_spells hu gap.blank (by simpa using e))
  | emptyObject gap =>
    rintro r - ⟨w, v, s, e, hw⟩
    obtain ⟨u, fields, hu, e⟩ := entries_of_brace hw e.symm
    exact tight_emptyObject_iff.2
      (eq_nil_of_entries (apart_keyed _) hu gap.blank (by simpa using e))
  | array first others ih =>
    rintro r - ⟨w, v, s, e, hw⟩
    rw [Tree.text_array] at e
    obtain ⟨u, items, hu, e⟩ := entries_of_bracket hw e.symm
    have e : u ++ ']' :: s = separated (Padded.text Tree.text) (first :: others) ++ ']' :: r := by
      simpa using e
    have hopeners : All (fun c => !isWhiteSpace c && c != ']') valueOpeners := by decide
    refine tight_array_iff.2 (forall_of_many (fun item => item.before.blank)
      (fun item => item.after.blank) apart_spells (fun h h' e => (h.unique h' e).1) (by decide)
      (fun item _ => ?_) ih (fun item _ h r hr => ⟨_, item.content.spells h r hr⟩)
      ((many_greedy_iff apart_spells).2 hu) e)
    obtain ⟨c, hc, u, hu⟩ := item.content.exists_head
    exact ⟨c, u, hu, by simpa using hopeners c hc⟩
  | object first others ih =>
    rintro r - ⟨w, v, s, e, hw⟩
    rw [Tree.text_object] at e
    obtain ⟨u, fields, hu, e⟩ := entries_of_brace hw e.symm
    have e : u ++ '}' :: s =
        separated (Padded.text (Member.text Tree.text)) (first :: others) ++ '}' :: r := by
      simpa using e
    exact tight_object_iff.2 (forall_of_many (fun member => member.before.blank)
      (fun member => member.after.blank) (apart_keyed _) Spells.keyed_unique (by decide)
      (fun member _ => ⟨'"', _, rfl, by decide, by decide⟩)
      (fun member hmember r hr h => ih member hmember r hr (Member.begins h))
      (fun member _ h r hr => ⟨_, Member.keyed (member.content.content.spells h r hr)⟩)
      ((many_greedy_iff (apart_keyed _)).2 hu) e)

/-! ## Values -/

section Contains

variable {letters : List Letter}

theorem Tree.Contains.item {first item : Padded Tree} {others : List (Padded Tree)}
    (hitem : item ∈ first :: others) (h : item.content.Contains letters) :
    (Tree.array first others).Contains letters := by
  rcases h with h | ⟨first', others', h, hmember⟩
  · exact Or.inl (.item hitem h)
  · exact Or.inr ⟨first', others', .item hitem h, hmember⟩

theorem Tree.Contains.member {first member : Padded (Member Tree)}
    {others : List (Padded (Member Tree))} (hmember : member ∈ first :: others)
    (h : member.content.content.Contains letters) :
    (Tree.object first others).Contains letters := by
  rcases h with h | ⟨first', others', h, hmember'⟩
  · exact Or.inl (.member hmember h)
  · exact Or.inr ⟨first', others', .member hmember h, hmember'⟩

theorem Tree.contains_key {first member : Padded (Member Tree)}
    {others : List (Padded (Member Tree))} (hmember : member ∈ first :: others) :
    (Tree.object first others).Contains member.content.key :=
  Or.inr ⟨first, others, .refl, member, hmember, rfl⟩

end Contains

/-- Only how the strings in a tree are read counts for its value. -/
theorem Tree.value_congr {read read' : List Letter → List Char} (t : Tree) :
    (∀ letters, t.Contains letters → read letters = read' letters) →
      t.value read = t.value read' := by
  induction t using Tree.induct with
  | null | bool | number | emptyArray | emptyObject => exact fun _ => rfl
  | string letters =>
    intro h
    rw [Tree.value, Tree.value, h letters (Or.inl .refl)]
  | array first others ih =>
    intro h
    rw [Tree.value_array, Tree.value_array]
    exact congrArg Value.array (List.map_congr_left fun item hitem =>
      ih item hitem fun letters hletters => h letters (hletters.item hitem))
  | object first others ih =>
    intro h
    rw [Tree.value_object, Tree.value_object]
    refine congrArg (fun pairs => Value.object (Fields.settle pairs)) ?_
    refine List.map_congr_left fun member hmember => ?_
    rw [Member.value, Member.value, h _ (Tree.contains_key hmember),
      ih member hmember fun letters hletters => h letters (hletters.member hmember)]

/-- Without their backslashes, simple escapes are the characters they stand for. -/
theorem decode?_of_isSimple {letters : List Letter}
    (h : ∀ letter ∈ letters, letter.isSimple = true) :
    decode? letters = some (bareText letters) := by
  induction letters with
  | nil => rfl
  | cons letter letters ih =>
    obtain ⟨hletter, hletters⟩ := List.forall_mem_cons.1 h
    rw [bareText, List.flatMap_cons, ← bareText]
    cases letter with
    | plain c hc => rw [decode?, ih hletters, Option.map_some, Letter.bare, List.singleton_append]
    | escape e =>
      have hmeaning : e.meaning = e.letter := by
        rcases of_decide_eq_true hletter with rfl | rfl | rfl <;> rfl
      rw [decode?, ih hletters, Option.map_some, Letter.bare, List.singleton_append, hmeaning]
    | unicode u => cases hletter

theorem Tree.denotes_of_hasSimpleEscapes {t : Tree} (h : t.HasSimpleEscapes) :
    t.Denotes (t.value bareText) := by
  have hdecode : ∀ letters, t.Contains letters → decode? letters = some (bareText letters) :=
    fun letters hletters => decode?_of_isSimple (h letters hletters)
  refine ⟨fun letters hletters => ?_, t.value_congr fun letters hletters => ?_⟩
  · rw [hdecode letters hletters]
    rfl
  · rw [hdecode letters hletters, Option.getD_some]

/-! ## Documents -/

theorem stops_document_iff {doc : Document} :
    Stops isWhiteSpace (doc.text Tree.text) ↔ doc.before.text = [] := by
  rw [Padded.text]
  constructor
  · intro h
    cases hgap : doc.before.text with
    | nil => rfl
    | cons c gap =>
      rw [hgap, List.cons_append, stops_cons_iff] at h
      have hc := (all_cons_iff.1 (hgap ▸ doc.before.blank)).1
      rw [h] at hc
      cases hc
  · intro h
    rw [h]
    exact doc.content.stops_text doc.after.text

theorem parseComplete_of_tight {doc : Document} (hbefore : doc.before.text = [])
    (h : doc.content.Tight) :
    Id.run (parseComplete (String.ofList (doc.text Tree.text))) =
      .ok (doc.content.value bareText) := by
  refine parseComplete_eq_ok_iff.2
    ⟨doc.content.text, doc.after.text, ?_, doc.content.spells h _ doc.after.stops_isNumeric,
      doc.after.blank⟩
  rw [String.toList_ofList, Padded.text, hbefore, List.nil_append]

theorem tight_of_parseComplete {doc : Document} {v : Value}
    (h : Id.run (parseComplete (String.ofList (doc.text Tree.text))) = .ok v) :
    Stops isWhiteSpace (doc.text Tree.text) ∧ doc.content.Tight := by
  obtain ⟨w, x, e, hw, -⟩ := parseComplete_eq_ok_iff.1 h
  rw [String.toList_ofList] at e
  have hhead : Stops isWhiteSpace (doc.text Tree.text) := e ▸ apart_spells.stops hw
  refine ⟨hhead, doc.content.tight_of_begins _ doc.after.stops_isNumeric ⟨w, v, x, ?_, hw⟩⟩
  rw [← e, Padded.text, stops_document_iff.1 hhead, List.nil_append]

/-- A strict document is read exactly if it does not begin with white space and no empty container
in it has white space between its brackets.  What is read then is the value of the document with
backslashes dropped instead of escapes decoded, and so the value of the document if every escape is
that of a quote, a backslash or a slash.  The numbers in it are the nearest ones. -/
theorem parseComplete_document (doc : Document) :
    ((∃ v, Id.run (parseComplete (String.ofList (doc.text Tree.text))) = .ok v) ↔
        Stops isWhiteSpace (doc.text Tree.text) ∧ doc.content.Tight) ∧
      (∀ v, Id.run (parseComplete (String.ofList (doc.text Tree.text))) = .ok v →
        v = doc.content.value bareText ∧
          (doc.content.HasSimpleEscapes → doc.content.Denotes v)) ∧
      ∀ n : Number, n.decimal.Rounds n.decimal.toBinary64 := by
  refine ⟨⟨?_, ?_⟩, fun v hv => ?_, fun n => Decimal.rounds_iff.2 rfl⟩
  · rintro ⟨v, hv⟩
    exact tight_of_parseComplete hv
  · rintro ⟨hhead, htight⟩
    exact ⟨_, parseComplete_of_tight (stops_document_iff.1 hhead) htight⟩
  · obtain ⟨hhead, htight⟩ := tight_of_parseComplete hv
    rw [parseComplete_of_tight (stops_document_iff.1 hhead) htight] at hv
    cases hv
    exact ⟨rfl, Tree.denotes_of_hasSimpleEscapes⟩

end Descent.Json.Strict
