import Descent.Json.StringLiteral
import Descent.Proofs.Parser.Language

/-!
# The language of string literals

Between the quotes of a literal stand characters other than quotes and backslashes, and backslashes
each with a character behind it, whichever that is.  The content of the literal is what stands there
without those backslashes.
-/

namespace Descent.Json

open Descent.Text Descent.Parser

/-- What stands between the quotes, and the content it stands for. -/
inductive Unescapes : List Char → List Char → Prop where
  | nil : Unescapes [] []
  | plain {c : Char} {u content : List Char} : c ≠ '"' → c ≠ '\\' → Unescapes u content →
      Unescapes (c :: u) (c :: content)
  | escaped (c : Char) {u content : List Char} : Unescapes u content →
      Unescapes ('\\' :: c :: u) (c :: content)

/-- The literal with the given text between its quotes. -/
def enquote (u : List Char) : List Char := '"' :: (u ++ ['"'])

/-- String literals with their contents. -/
def literals : Language (List Char) := fun w content _ =>
  ∃ u, w = enquote u ∧ Unescapes u content

theorem enquote_append (u r : List Char) : enquote u ++ r = '"' :: (u ++ '"' :: r) := by
  simp [enquote]

/-! ## Reading -/

theorem readBody?_quote (r : List Char) : readBody? ('"' :: r) = some ([], ['"']) := by
  simp [readBody?]

theorem readBody?_escaped (c : Char) (r : List Char) :
    readBody? ('\\' :: c :: r) =
      (readBody? r).map fun (content, body) => (c :: content, '\\' :: c :: body) := by
  rw [readBody?]

theorem readBody?_plain {c : Char} (hq : c ≠ '"') (hb : c ≠ '\\') (r : List Char) :
    readBody? (c :: r) = (readBody? r).map fun (content, body) => (c :: content, c :: body) := by
  rw [readBody?, if_neg hq]
  · rintro rfl
    exact absurd rfl hb
  · rintro d ds rfl
    exact absurd rfl hb

/-- A text that unescapes is read up to the quote behind it. -/
theorem readBody?_append {u content : List Char} (h : Unescapes u content) (r : List Char) :
    readBody? (u ++ '"' :: r) = some (content, u ++ ['"']) := by
  induction h with
  | nil => exact readBody?_quote r
  | plain hq hb _ ih => simp [readBody?_plain hq hb, ih]
  | escaped c _ ih => simp [readBody?_escaped, ih]

/-- What is read ends with a quote, and unescapes to the content before it. -/
theorem exists_of_readBody? {t content body : List Char} (h : readBody? t = some (content, body)) :
    ∃ u r, body = u ++ ['"'] ∧ t = body ++ r ∧ Unescapes u content := by
  fun_induction readBody? t generalizing content body with
  | case1 => cases h
  | case2 => cases h
  | case3 c cs ih =>
    obtain ⟨⟨s, w⟩, hr, he⟩ := Option.map_eq_some_iff.1 h
    cases he
    obtain ⟨u, r, rfl, rfl, hu⟩ := ih hr
    exact ⟨'\\' :: c :: u, r, rfl, rfl, .escaped c hu⟩
  | case4 cs =>
    cases h
    exact ⟨[], cs, rfl, rfl, .nil⟩
  | case5 c cs hnil hcons hq ih =>
    obtain ⟨⟨s, w⟩, hr, he⟩ := Option.map_eq_some_iff.1 h
    cases he
    obtain ⟨u, r, rfl, rfl, hu⟩ := ih hr
    refine ⟨c :: u, r, rfl, rfl, .plain hq ?_ hu⟩
    rintro rfl
    cases u with
    | nil => exact hcons '"' r rfl rfl
    | cons d u => exact hcons d _ rfl rfl

theorem run_stringLiteral (b t : List Char) :
    stringLiteral.run ⟨b, '"' :: t⟩ =
      match readBody? t with
      | some (content, body) => .ok (content, Cursor.advance ⟨'"' :: b, t⟩ (byteLength body))
      | none =>
        .error (.expected "closing quote" (Cursor.advance ⟨'"' :: b, t⟩ (byteLength t))) := by
  have hinside : Cursor.advance ⟨b, '"' :: t⟩ 1 = ⟨'"' :: b, t⟩ :=
    Cursor.advance_byteLength b ['"'] t
  simp only [Parser.run, Id.run, stringLiteral, Cursor.peek?, List.head?_cons, if_true, hinside]
  rfl

theorem reads_stringLiteral {n : Nat} : Reads n stringLiteral literals := by
  intro c _ content next
  obtain ⟨b, t⟩ := c
  by_cases hq : t.head? = some '"'
  · obtain ⟨t, rfl⟩ : ∃ t', t = '"' :: t' := List.head?_eq_some_iff.1 hq
    rw [run_stringLiteral]
    constructor
    · intro h
      rcases ht : readBody? t with - | ⟨s, body⟩
      · rw [ht] at h
        cases h
      · rw [ht] at h
        cases h
        obtain ⟨u, r, rfl, rfl, hu⟩ := exists_of_readBody? ht
        rw [Cursor.advance_byteLength]
        refine ⟨enquote u, ⟨?_, ?_⟩, u, rfl, hu⟩
        · rw [enquote, List.cons_append]
        · simp [enquote]
    · rintro ⟨w, hs, u, rfl, hu⟩
      obtain rfl : t = u ++ '"' :: next.rest := by
        simpa [enquote] using hs.rest_eq
      rw [readBody?_append hu]
      have hspan : Cursor.Spans ⟨'"' :: b, u ++ '"' :: next.rest⟩ (u ++ ['"']) next :=
        ⟨by simp, by simpa [enquote] using hs.before_eq⟩
      simp only [hspan.advance_eq]
  · have hrun : stringLiteral.run ⟨b, t⟩ = .error (.expected (quoted "\"") ⟨b, t⟩) := by
      simp only [Parser.run, Id.run, stringLiteral, Cursor.peek?]
      exact if_neg hq
    rw [hrun]
    simp only [reduceCtorEq, false_iff]
    rintro ⟨w, hs, u, rfl, -⟩
    obtain rfl : t = '"' :: (u ++ '"' :: next.rest) := hs.rest_eq.trans (enquote_append _ _)
    exact hq rfl

end Descent.Json
