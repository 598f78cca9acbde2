import Mathlib.Data.Set.List
import Descent.Proofs.Json.Lexing

/-!
# Values written as strict documents

The text of a value is a strict document if no string and no key in the value has a character below
U+0020 in it, and only then: everything else that is written is strict, and such a character stays
in its literal as it is.  The document stands for the finite part of the value, since the only
escapes in it are those of quotes and backslashes, and it has no white space outside of literals.
-/

namespace Descent.Json

open Descent.Text

/-! ## Numbers -/

/-- Only zero is written with a zero in front. -/
theorem head?_toDigits_ne {n : Nat} (hn : n ≠ 0) : (Nat.toDigits 10 n).head? ≠ some '0' := by
  induction n using Nat.strongRecOn with
  | ind n ih =>
    rcases Nat.lt_or_ge n 10 with hlt | hge
    · rw [Nat.toDigits_of_lt_base hlt]
      exact (by decide : ∀ n < 10, n ≠ 0 → [Nat.digitChar n].head? ≠ some '0') n hlt hn
    · rw [Nat.toDigits_of_base_le (by decide) hge,
        List.head?_append_of_ne_nil _ Nat.toDigits_ne_nil]
      exact ih (n / 10) (Nat.div_lt_self (by omega) (by decide)) (by omega)

namespace Strict

/-- A sign, digits without a zero in front, and a fraction. -/
def Number.ofParts (negative : Bool) (n : Nat) (fraction : Option Digits) : Number where
  negative := negative
  whole := ⟨Nat.toDigits 10 n, Decimal.all_isDigit_toDigits n, Nat.toDigits_ne_nil⟩
  head_ne_zero h := head?_toDigits_ne fun hn =>
    h ((congrArg (Nat.toDigits 10) hn).trans (Nat.toDigits_zero 10))
  fraction := fraction
  exponent := none

theorem Number.text_ofParts (negative : Bool) (n : Nat) (fraction : Option Digits) :
    (Number.ofParts negative n fraction).text = (if negative then ['-'] else []) ++
      (Nat.toDigits 10 n ++ (fraction.map fun f => '.' :: f.text).getD []) := by
  rw [Number.text, Number.ofParts]
  dsimp only [Option.map_none, Option.getD_none]
  rw [List.append_nil]

/-- Positional notation is that of a strict number without an exponent. -/
theorem exists_number_positional (d : Decimal) :
    ∃ n : Number, n.text = d.positional ∧ n.exponent = none := by
  obtain ⟨negative, digits, exponent⟩ := d
  rcases lt_or_ge exponent 0 with hexponent | hexponent
  · obtain ⟨places, rfl⟩ : ∃ n : Nat, exponent = -(n : Int) := ⟨exponent.natAbs, by omega⟩
    obtain ⟨-, -, -, hdigits⟩ := Decimal.exists_fractionDigits (n := digits % 10 ^ places)
      (by omega : 0 < places) (Nat.mod_lt _ (Nat.pow_pos (by decide)))
    rw [Decimal.positional, Decimal.positionalMagnitude, if_neg (Int.not_le.2 hexponent), neg_neg,
      Int.toNat_natCast]
    dsimp only
    generalize Decimal.fractionDigits places (digits % 10 ^ places) = fraction at hdigits ⊢
    cases fraction with
    | nil =>
      refine ⟨.ofParts negative (digits / 10 ^ places) none, ?_, rfl⟩
      simp [Number.text_ofParts]
    | cons c ds =>
      refine ⟨.ofParts negative (digits / 10 ^ places) (some ⟨c :: ds, hdigits, ?_⟩), ?_, rfl⟩
      · exact List.cons_ne_nil c ds
      · exact Number.text_ofParts _ _ _
  · refine ⟨.ofParts negative (digits * 10 ^ exponent.toNat) none, ?_, rfl⟩
    rw [Number.text_ofParts, Decimal.positional, Decimal.positionalMagnitude, if_pos hexponent]
    simp

theorem exists_number_toChars (x : Binary64) : ∃ n : Number, n.text = x.toChars := by
  obtain ⟨n, hn, -⟩ := exists_number_positional x.shortest
  exact ⟨n, hn⟩

end Strict

/-! ## Strings -/

namespace Value

/-- No string and no key in the value has a character below U+0020 in it. -/
def Printable (v : Value) : Prop :=
  ∀ content, v.Contains content → ∀ c ∈ content.toList, 0x20 ≤ c.toNat

end Value

namespace Strict

theorem exists_letter {c : Char} (hc : 0x20 ≤ c.toNat) :
    ∃ letter : Letter, letter.text = escape c := by
  by_cases hquote : c = '"'
  · subst hquote
    exact ⟨.escape .quote, rfl⟩
  by_cases hbackslash : c = '\\'
  · subst hbackslash
    exact ⟨.escape .backslash, rfl⟩
  have hplain : isPlain c = true := by simp [isPlain, hc, hquote, hbackslash]
  exact ⟨.plain c hplain, by rw [escape, if_neg (by simp [hquote, hbackslash]), Letter.text]⟩

/-- Texts that are each written by something are written by a list of such things. -/
theorem exists_map_eq {α β : Type} {f : α → List Char} {g : β → List Char} {bs : List β}
    (h : ∀ b ∈ bs, ∃ a, f a = g b) : ∃ as : List α, as.map f = bs.map g := by
  have hrange : bs.map g ∈ Set.range (List.map f) := by
    rw [Set.range_list_map]
    exact List.forall_mem_map.2 h
  exact hrange

theorem exists_letters {content : String} (h : ∀ c ∈ content.toList, 0x20 ≤ c.toNat) :
    ∃ letters, stringText letters = quote content.toList := by
  obtain ⟨letters, hletters⟩ := exists_map_eq fun c hc => exists_letter (h c hc)
  refine ⟨letters, congrArg enquote ?_⟩
  rw [List.flatMap_def, hletters, ← List.flatMap_def]

/-! ## Trees -/

/-- No white space. -/
def Gap.empty : Gap := ⟨[], all_nil _⟩

/-- Something without white space around it. -/
def Padded.bare {α : Type} (content : α) : Padded α := ⟨.empty, content, .empty⟩

theorem Padded.text_bare {α : Type} (f : α → List Char) (content : α) :
    (Padded.bare content).text f = f content := by
  rw [Padded.text, Padded.bare, Gap.empty]
  exact List.append_nil _

/-- A printable value is written as a tree is. -/
theorem exists_tree (v : Value) : v.Printable → ∃ t : Tree, t.text = v.render := by
  induction v using Value.induct with
  | null => exact fun _ => ⟨.null, rfl⟩
  | bool b => exact fun _ => ⟨.bool b, rfl⟩
  | number x =>
    intro _
    rw [Value.render, Value.renderNumber]
    split
    · obtain ⟨n, hn⟩ := exists_number_toChars x
      exact ⟨.number n, hn⟩
    · exact ⟨.null, rfl⟩
  | string content =>
    intro h
    obtain ⟨letters, hletters⟩ := exists_letters (h content (.inl .refl))
    exact ⟨.string letters, hletters⟩
  | array items ih =>
    intro h
    rw [Value.Printable, Value.forall_contains_array_iff] at h
    have hitems : ∀ item ∈ items, ∃ p : Padded Tree, p.text Tree.text = item.render := by
      intro item hitem
      obtain ⟨t, ht⟩ := ih item hitem (h item hitem)
      exact ⟨.bare t, by rw [Padded.text_bare, ht]⟩
    obtain ⟨ps, hps⟩ := exists_map_eq hitems
    rw [Value.render, Value.renderItems_eq, separated, ← hps]
    cases ps with
    | nil => exact ⟨.emptyArray .empty, rfl⟩
    | cons p ps => exact ⟨.array p ps, Tree.text_array p ps⟩
  | object fields ih =>
    intro h
    rw [Value.Printable, Value.forall_contains_object_iff] at h
    have hfields : ∀ field ∈ fields,
        ∃ p : Padded (Member Tree), p.text (Member.text Tree.text) = Value.renderField field := by
      intro field hfield
      obtain ⟨letters, hletters⟩ := exists_letters (h field hfield).1
      obtain ⟨t, ht⟩ := ih field hfield (h field hfield).2
      refine ⟨.bare ⟨letters, .empty, .empty, t⟩, ?_⟩
      rw [Padded.text_bare, Member.text, hletters, ht]
      rfl
    obtain ⟨ps, hps⟩ := exists_map_eq hfields
    rw [Value.render, Value.renderFields_eq, separated, ← hps]
    cases ps with
    | nil => exact ⟨.emptyObject .empty, rfl⟩
    | cons p ps => exact ⟨.object p ps, Tree.text_object p ps⟩

/-! ## Reading what was written -/

open Quoting

/-- Only quotes and backslashes are written with a backslash. -/
theorem eq_quote_or_backslash_of_escaped {content : List Char} :
    ∀ m ∈ marked inside (content.flatMap escape), m.1 = escaped → m.2 = '"' ∨ m.2 = '\\' := by
  have hinside : inside ≠ escaped := by decide
  induction content with
  | nil => exact List.forall_mem_nil _
  | cons c content ih =>
    rw [List.flatMap_cons, escape]
    split
    · next hc =>
      rw [List.cons_append, List.singleton_append, marked, marked, List.forall_mem_cons,
        List.forall_mem_cons]
      exact ⟨fun h => absurd h hinside, fun _ => hc, ih⟩
    · next hc =>
      rw [not_or] at hc
      rw [List.singleton_append, marked, next_inside hc.1 hc.2, List.forall_mem_cons]
      exact ⟨fun h => absurd h hinside, ih⟩

/-- With no other characters behind backslashes, all letters are simple. -/
theorem isSimple_of_escaped {letters : List Letter}
    (h : ∀ m ∈ marked inside (letters.flatMap Letter.text),
      m.1 = escaped → m.2 = '"' ∨ m.2 = '\\') : ∀ letter ∈ letters, letter.isSimple = true := by
  induction letters with
  | nil => exact List.forall_mem_nil _
  | cons letter letters ih =>
    have hletter : inside.after letter.text = inside := by
      simpa using after_inside (unescapes_letter letter .nil)
    rw [List.flatMap_cons, marked_append, hletter, List.forall_mem_append] at h
    refine List.forall_mem_cons.2 ⟨?_, ih h.2⟩
    cases letter with
    | plain c hc => rfl
    | escape e =>
      have he := h.1 (escaped, e.letter) (by simp [Letter.text, marked, next]) rfl
      cases e <;> first | rfl | exact absurd he (by decide)
    | unicode u =>
      have hu := h.1 (escaped, 'u') (by simp [Letter.text, marked, next]) rfl
      exact absurd hu (by decide)

theorem Letter.forall_mem_text (letter : Letter) : ∀ c ∈ letter.text, 0x20 ≤ c.toNat := by
  cases letter with
  | plain c hc =>
    simp only [isPlain, Bool.and_eq_true, decide_eq_true_eq] at hc
    exact List.forall_mem_singleton.2 hc.1.1
  | escape e =>
    have hletter : 0x20 ≤ e.letter.toNat := by cases e <;> decide
    exact List.forall_mem_cons.2 ⟨by decide, List.forall_mem_singleton.2 hletter⟩
  | unicode u =>
    have hhex : All (fun c => 0x20 ≤ c.toNat) "0123456789abcdefABCDEF".toList := by decide
    exact List.forall_mem_cons.2 ⟨by decide, List.forall_mem_cons.2 ⟨by decide, fun c hc =>
      of_decide_eq_true (hhex c (List.contains_iff_mem.1 (u.all_isHexDigit c hc)))⟩⟩

theorem lexed_document_iff {P : Quoting → Char → Prop} (hP : ∀ c, P outside c)
    (hquote : P inside '"') (doc : Document) : Lexed P (doc.text Tree.text) ↔
      ∀ letters, doc.content.Contains letters →
        ∀ m ∈ marked inside (letters.flatMap Letter.text), P m.1 m.2 :=
  (Padded.lexed_iff hP doc.content.closed_text).trans (doc.content.lexed_text_iff hP hquote)

/-- A document has no character below U+0020 in its literals, so that a value with the same text has
none either. -/
theorem printable_of_text_eq {doc : Document} {v : Value} (h : doc.text Tree.text = v.render) :
    v.Printable := by
  have hdoc : Lexed (fun q c => q ≠ outside → 0x20 ≤ c.toNat) (doc.text Tree.text) := by
    refine (lexed_document_iff (fun c h => absurd rfl h) (fun _ => by decide) doc).2 ?_
    intro letters _ m hm _
    obtain ⟨letter, -, hletter⟩ := List.mem_flatMap.1 (mem_of_mem_marked hm)
    exact letter.forall_mem_text _ hletter
  rw [h, Value.lexed_render_iff (fun c _ h => absurd rfl h) fun _ => by decide] at hdoc
  intro content hcontent c hc
  have hunescapes := unescapes_flatMap_escape content.toList
  have hmem : c ∈ content.toList.flatMap escape := by
    refine List.mem_flatMap.2 ⟨c, hc, ?_⟩
    rw [escape]
    split <;> simp
  rw [← map_marked inside (content.toList.flatMap escape)] at hmem
  obtain ⟨m, hm, rfl⟩ := List.mem_map.1 hmem
  exact hdoc content hcontent m hm (ne_outside_of_mem_marked hunescapes m hm)

/-- A document with the text of a value has no escapes but those of quotes and backslashes. -/
theorem hasSimpleEscapes_of_text_eq {doc : Document} {v : Value}
    (h : doc.text Tree.text = v.render) : doc.content.HasSimpleEscapes := by
  have hnot {q : Quoting} {p : Prop} (hq : q ≠ escaped) : q = escaped → p := fun h => absurd h hq
  have hvalue : Lexed (fun q c => q = escaped → c = '"' ∨ c = '\\') v.render :=
    (Value.lexed_render_iff (fun _ _ => hnot (by decide)) (hnot (by decide)) v).2
      fun content _ => eq_quote_or_backslash_of_escaped
  rw [← h, lexed_document_iff (fun _ => hnot (by decide)) (hnot (by decide))] at hvalue
  exact fun letters hletters => isSimple_of_escaped (hvalue letters hletters)

/-- The text of a value is a strict document if the value is printable, and only then.  Every strict
document with this text stands for the value with null in the place of every number that is not
finite, and the text has no white space outside of literals. -/
theorem toString_document (v : Value) (h : v.DistinctKeys) :
    ((∃ doc : Document, doc.text Tree.text = v.toString.toList) ↔ v.Printable) ∧
      (∀ doc : Document, doc.text Tree.text = v.toString.toList →
        doc.content.Denotes v.finitePart) ∧
      ∀ c, (outside, c) ∈ marked outside v.toString.toList → isWhiteSpace c = false := by
  rw [Value.toString, String.toList_ofList]
  refine ⟨⟨?_, fun hprintable => ?_⟩, fun doc hdoc => ?_, fun c hc => ?_⟩
  · rintro ⟨doc, hdoc⟩
    exact printable_of_text_eq hdoc
  · obtain ⟨t, ht⟩ := exists_tree v hprintable
    exact ⟨.bare t, by rw [Padded.text_bare, ht]⟩
  · -- The text is read as the finite part, and as a document with backslashes dropped.
    have hread : Id.run (parseComplete (String.ofList (doc.text Tree.text))) = .ok v.finitePart :=
      parseComplete_eq_ok_iff.2 ⟨v.render, [], by rw [String.toList_ofList, hdoc, List.append_nil],
        v.spells_render h [] (stops_nil _), all_nil _⟩
    obtain ⟨hhead, htight⟩ := tight_of_parseComplete hread
    rw [parseComplete_of_tight (stops_document_iff.1 hhead) htight, Except.ok.injEq] at hread
    rw [← hread]
    exact Tree.denotes_of_hasSimpleEscapes (hasSimpleEscapes_of_text_eq hdoc)
  · have hlexed : Lexed (fun q c => q = outside → isWhiteSpace c = false) v.render :=
      (Value.lexed_render_iff (fun _ hc _ => hc) (fun h => absurd h (by decide)) v).2
        fun content _ m hm hm' => absurd hm'
          (ne_outside_of_mem_marked (unescapes_flatMap_escape content.toList) m hm)
    exact hlexed _ hc rfl

/-- A quote in a key and an infinity in a list are written as a strict document, and a line feed in
a string is not. -/
theorem toString_document_object :
    let infinity : Value := .number ⟨false, Binary64.infinity, by decide⟩
    let v : Value := .object [("\"", .array [infinity, .string "é"])]
    v.DistinctKeys ∧
      (∃ doc : Document, doc.text Tree.text = "\x7b\"\\\"\":[null,\"é\"]\x7d".toList ∧
        doc.content.Denotes (.object [("\"", .array [.null, .string "é"])])) ∧
      (Value.string "\n").DistinctKeys ∧
      ¬ ∃ doc : Document, doc.text Tree.text = (Value.string "\n").toString.toList := by
  intro infinity v
  have hleaf := fun v => @Value.distinctKeys_of_no_parts v
  have hkeys : v.DistinctKeys := by
    simp only [v, infinity, Value.distinctKeys_object_iff, Value.distinctKeys_array_iff,
      List.forall_mem_singleton, List.forall_mem_cons]
    exact ⟨by decide, hleaf _ rfl rfl, hleaf _ rfl rfl⟩
  have hprintable : v.Printable := by
    rw [Value.Printable, Value.forall_contains_object_iff, List.forall_mem_singleton,
      Value.forall_contains_array_iff, List.forall_mem_cons, List.forall_mem_singleton,
      Value.forall_contains_string_iff]
    exact ⟨by simp, fun content h => absurd h (Value.not_contains rfl rfl rfl content), by simp⟩
  obtain ⟨hwritten, hread, -⟩ := toString_document v hkeys
  obtain ⟨doc, hdoc⟩ := hwritten.2 hprintable
  refine ⟨hkeys, ⟨doc, ?_, hread doc hdoc⟩, hleaf _ rfl rfl, fun hdoc => ?_⟩
  · rw [hdoc, Value.toString, String.toList_ofList]
    rfl
  · have hn := (toString_document (.string "\n") (hleaf _ rfl rfl)).1.1 hdoc
    exact absurd (hn "\n" (.inl .refl) '\n' (by decide)) (by decide)

end Strict

end Descent.Json
