import Mathlib.Data.Nat.Find
import Descent.Proofs.Json.Forward
import Descent.Proofs.Json.RoundTrip
import Descent.Proofs.Parser.Uniform

/-!
# Escaped characters

A character is escaped if the character before it is a backslash that is not escaped itself.  With
this notion, which looks back from each place, reading a string literal is described without its
reader: the literal ends at the first quote that is not escaped, its content is what stands before
that without the backslashes that are not escaped, and the literal has no end if every quote is
escaped.
-/

namespace Descent.Json

open Descent.Text Descent.Parser

variable {t u v r content : List Char} {n : Nat}

/-- Whether a backslash takes the character at the index: the one right before it, unless that is
taken itself. -/
def isEscaped (t : List Char) : Nat → Bool
  | 0 => false
  | i + 1 => t[i]? == some '\\' && !isEscaped t i

/-- Every quote in the text is escaped. -/
def QuotesEscaped (t : List Char) : Prop := ∀ i, t[i]? = some '"' → isEscaped t i = true

/-- The first quote of the text that is not escaped stands at the index. -/
structure ClosesAt (t : List Char) (n : Nat) : Prop where
  getElem?_eq : t[n]? = some '"'
  not_isEscaped : isEscaped t n = false
  isEscaped_of_lt : ∀ i < n, t[i]? = some '"' → isEscaped t i = true

/-- The text without the backslashes that are not escaped. -/
def withoutEscapes (t : List Char) : List Char :=
  (t.zipIdx.filter fun (c, i) => c != '\\' || isEscaped t i).map (·.1)

/-! ## Parts of a text -/

/-- What is escaped in the first part of a text does not depend on the second part. -/
theorem isEscaped_append_left {i : Nat} (hi : i ≤ u.length) :
    isEscaped (u ++ v) i = isEscaped u i := by
  induction i with
  | zero => rfl
  | succ i ih => rw [isEscaped, isEscaped, ih (by omega), List.getElem?_append_left (by omega)]

/-- Behind a part that does not take the next character, a text can be looked at on its own. -/
theorem isEscaped_append_right (hu : isEscaped u u.length = false) (i : Nat) :
    isEscaped (u ++ v) (u.length + i) = isEscaped v i := by
  induction i with
  | zero => rw [Nat.add_zero, isEscaped_append_left (Nat.le_refl _), hu, isEscaped]
  | succ i ih =>
    rw [← Nat.add_assoc, isEscaped, isEscaped, ih, List.getElem?_append_right (by omega),
      Nat.add_sub_cancel_left]

theorem quotesEscaped_append_iff (hu : isEscaped u u.length = false) :
    QuotesEscaped (u ++ v) ↔ QuotesEscaped u ∧ QuotesEscaped v := by
  constructor
  · intro h
    refine ⟨fun i hi => ?_, fun i hi => ?_⟩
    · have hlt : i < u.length := (List.getElem?_eq_some_iff.1 hi).1
      rw [← isEscaped_append_left (v := v) (Nat.le_of_lt hlt)]
      exact h i (by rwa [List.getElem?_append_left hlt])
    · rw [← isEscaped_append_right hu]
      refine h _ ?_
      rwa [List.getElem?_append_right (by omega), Nat.add_sub_cancel_left]
  · rintro ⟨hleft, hright⟩ i hi
    rcases Nat.lt_or_ge i u.length with hlt | hge
    · rw [List.getElem?_append_left hlt] at hi
      rw [isEscaped_append_left (Nat.le_of_lt hlt)]
      exact hleft i hi
    · obtain ⟨j, rfl⟩ := Nat.exists_eq_add_of_le hge
      rw [List.getElem?_append_right hge, Nat.add_sub_cancel_left] at hi
      rw [isEscaped_append_right hu]
      exact hright j hi

theorem withoutEscapes_append (hu : isEscaped u u.length = false) :
    withoutEscapes (u ++ v) = withoutEscapes u ++ withoutEscapes v := by
  have hleft : u.zipIdx.filter (fun (c, i) => c != '\\' || isEscaped (u ++ v) i) =
      u.zipIdx.filter fun (c, i) => c != '\\' || isEscaped u i :=
    List.filter_congr fun (c, i) hm => by
      have hi : i < u.length := by simpa using List.snd_lt_of_mem_zipIdx hm
      exact congrArg (c != '\\' || ·) (isEscaped_append_left (Nat.le_of_lt hi))
  have hright : (v.zipIdx u.length).filter (fun (c, i) => c != '\\' || isEscaped (u ++ v) i) =
      (v.zipIdx.filter fun (c, i) => c != '\\' || isEscaped v i).map
        fun (c, i) => (c, u.length + i) := by
    rw [List.zipIdx_eq_map_add, List.filter_map]
    congr 1
    exact List.filter_congr fun (c, i) _ =>
      congrArg (c != '\\' || ·) (isEscaped_append_right hu i)
  rw [withoutEscapes, List.zipIdx_append, List.filter_append, List.map_append, hleft, Nat.zero_add,
    hright, List.map_map]
  rfl

/-! ## The text between the quotes -/

/-- The text can stand between the quotes of a literal with the content: its own quotes are escaped,
and the quote behind it is not. -/
structure IsBody (u content : List Char) : Prop where
  quotesEscaped : QuotesEscaped u
  not_isEscaped_length : isEscaped u u.length = false
  withoutEscapes_eq : withoutEscapes u = content

theorem isBody_nil : IsBody [] [] where
  quotesEscaped i hi := by simp at hi
  not_isEscaped_length := rfl
  withoutEscapes_eq := rfl

theorem isBody_plain {c : Char} (hq : c ≠ '"') (hb : c ≠ '\\') : IsBody [c] [c] where
  quotesEscaped i hi := by simp [List.getElem?_singleton, hq] at hi
  not_isEscaped_length := by simp [isEscaped, hb]
  withoutEscapes_eq := by simp [withoutEscapes, hb]

theorem isBody_escaped (c : Char) : IsBody ['\\', c] [c] where
  quotesEscaped i hi := by
    match i with
    | 0 => simp at hi
    | 1 => rfl
    | i + 2 => simp at hi
  not_isEscaped_length := by simp [isEscaped]
  withoutEscapes_eq := by simp [withoutEscapes, isEscaped]

/-- Behind a body a longer one goes on with a body. -/
theorem IsBody.append_iff {w d : List Char} (h : IsBody w d) :
    IsBody (w ++ u) content ↔ ∃ rest, content = d ++ rest ∧ IsBody u rest := by
  obtain ⟨hquotes, hend, rfl⟩ := h
  constructor
  · rintro ⟨hquotes', hend', rfl⟩
    rw [List.length_append, isEscaped_append_right hend] at hend'
    exact ⟨withoutEscapes u, withoutEscapes_append hend,
      ((quotesEscaped_append_iff hend).1 hquotes').2, hend', rfl⟩
  · rintro ⟨-, rfl, hquotes', hend', rfl⟩
    refine ⟨(quotesEscaped_append_iff hend).2 ⟨hquotes, hquotes'⟩, ?_,
      withoutEscapes_append hend⟩
    rw [List.length_append, isEscaped_append_right hend, hend']

theorem Unescapes.isBody (h : Unescapes u content) : IsBody u content := by
  induction h with
  | nil => exact isBody_nil
  | plain hq hb _ ih => exact (isBody_plain hq hb).append_iff.2 ⟨_, rfl, ih⟩
  | escaped c _ ih => exact (isBody_escaped c).append_iff.2 ⟨_, rfl, ih⟩

/-- The reader of literals and the notion of escaped characters agree on what a body is. -/
theorem unescapes_iff_isBody : Unescapes u content ↔ IsBody u content := by
  refine ⟨Unescapes.isBody, fun h => ?_⟩
  induction u using readBody?.induct generalizing content with
  | case1 =>
    obtain rfl : [] = content := h.withoutEscapes_eq
    exact .nil
  | case2 => exact absurd h.not_isEscaped_length (by decide)
  | case3 c u ih =>
    obtain ⟨rest, rfl, hu⟩ := (isBody_escaped c).append_iff.1 h
    exact .escaped c (ih hu)
  | case4 u _ _ => exact absurd (h.quotesEscaped 0 rfl) Bool.false_ne_true
  | case5 c u hnil hcons hq ih =>
    have hb : c ≠ '\\' := by
      rintro rfl
      cases u with
      | nil => exact hnil rfl rfl
      | cons d u => exact hcons d u rfl rfl
    obtain ⟨rest, rfl, hu⟩ := (isBody_plain hq hb).append_iff.1 h
    exact .plain hq hb (ih hu)

/-! ## The first quote that is not escaped -/

theorem exists_closesAt_iff : (∃ n, ClosesAt t n) ↔ ¬ QuotesEscaped t := by
  constructor
  · rintro ⟨n, hn⟩ h
    have hescaped := h n hn.getElem?_eq
    rw [hn.not_isEscaped] at hescaped
    cases hescaped
  · intro h
    have hsome : ∃ n, t[n]? = some '"' ∧ isEscaped t n = false := by
      simpa [QuotesEscaped] using h
    classical
    obtain ⟨hquote, hnot⟩ := Nat.find_spec hsome
    refine ⟨Nat.find hsome, hquote, hnot, fun i hi hq => ?_⟩
    by_contra hescaped
    exact Nat.find_min hsome hi ⟨hq, Bool.eq_false_iff.2 hescaped⟩

/-- A text is divided by its first quote that is not escaped into a body and what comes after the
quote. -/
theorem closesAt_iff : ClosesAt t n ↔ ∃ u r, t = u ++ '"' :: r ∧ n = u.length ∧
    IsBody u (withoutEscapes u) := by
  constructor
  · rintro ⟨hquote, hnot, hfirst⟩
    obtain ⟨hlt, hget⟩ := List.getElem?_eq_some_iff.1 hquote
    have hlength : (t.take n).length = n := by
      rw [List.length_take]
      omega
    have hsplit : t = t.take n ++ '"' :: t.drop (n + 1) := by
      rw [← hget, ← List.drop_eq_getElem_cons hlt, List.take_append_drop]
    refine ⟨t.take n, t.drop (n + 1), hsplit, hlength.symm, fun i hi => ?_, ?_, rfl⟩
    · have hi' : i < n := by
        have := (List.getElem?_eq_some_iff.1 hi).1
        omega
      rw [← isEscaped_append_left (v := '"' :: t.drop (n + 1)) (by omega), ← hsplit]
      exact hfirst i hi' (by rwa [List.getElem?_take_of_lt hi'] at hi)
    · rw [← isEscaped_append_left (v := '"' :: t.drop (n + 1)) (by omega), ← hsplit, hlength, hnot]
  · rintro ⟨u, r, rfl, rfl, hquotes, hend, -⟩
    refine ⟨by simp, by rw [isEscaped_append_left (Nat.le_refl _), hend], fun i hi hq => ?_⟩
    rw [List.getElem?_append_left hi] at hq
    rw [isEscaped_append_left (Nat.le_of_lt hi)]
    exact hquotes i hq

/-! ## Reading -/

/-- No literal is read up to its end exactly if no quote can end it. -/
theorem readBody?_eq_none_iff : readBody? t = none ↔ QuotesEscaped t := by
  rw [← not_iff_not, ← exists_closesAt_iff]
  constructor
  · intro h
    obtain ⟨⟨content, body⟩, hread⟩ := Option.ne_none_iff_exists'.1 h
    obtain ⟨u, r, rfl, rfl, hu⟩ := exists_of_readBody? hread
    have hbody := hu.isBody
    refine ⟨u.length, closesAt_iff.2 ⟨u, r, by simp, rfl, ?_⟩⟩
    rwa [hbody.withoutEscapes_eq]
  · rintro ⟨n, hn⟩
    obtain ⟨u, r, rfl, -, hu⟩ := closesAt_iff.1 hn
    rw [readBody?_append (unescapes_iff_isBody.2 hu)]
    exact Option.some_ne_none _

theorem run_stringLiteral_of_quotesEscaped {c : Cursor} (hc : c.rest = '"' :: t)
    (h : QuotesEscaped t) :
    stringLiteral.run c = .error (.expected "closing quote" ⟨c.source.reverse, []⟩) := by
  obtain ⟨b, r⟩ := c
  obtain rfl : r = '"' :: t := hc
  have hend := Cursor.advance_byteLength ('"' :: b) t []
  rw [List.append_nil] at hend
  rw [run_stringLiteral, readBody?_eq_none_iff.2 h]
  simp [hend, Cursor.source]

/-- A literal is read up to the first quote that is not escaped. -/
theorem run_stringLiteral_of_closesAt {c : Cursor} (hc : c.rest = '"' :: t) (hn : ClosesAt t n) :
    ∃ next, c.Spans ('"' :: (t.take n ++ ['"'])) next ∧
      stringLiteral.run c = .ok (withoutEscapes (t.take n), next) := by
  obtain ⟨u, r, rfl, rfl, hu⟩ := closesAt_iff.1 hn
  have hrest : c.rest = enquote u ++ r := hc.trans (enquote_append u r).symm
  obtain ⟨next, hs, -⟩ := Cursor.exists_spans hrest
  rw [List.take_left]
  exact ⟨next, hs, (reads_stringLiteral (Nat.lt_succ_self _)).2
    ⟨_, hs, u, rfl, unescapes_iff_isBody.2 hu⟩⟩

/-- There is no quote, or there is one that nothing ends, or there is a literal. -/
theorem run_stringLiteral_cases (c : Cursor) :
    (c.peek? ≠ some '"' ∧ stringLiteral.run c = .error (.expected (quoted "\"") c)) ∨
    (∃ t, c.rest = '"' :: t ∧ QuotesEscaped t ∧
      stringLiteral.run c = .error (.expected "closing quote" ⟨c.source.reverse, []⟩)) ∨
    ∃ t n next, c.rest = '"' :: t ∧ ClosesAt t n ∧ c.Spans ('"' :: (t.take n ++ ['"'])) next ∧
      stringLiteral.run c = .ok (withoutEscapes (t.take n), next) := by
  by_cases hq : c.peek? = some '"'
  · obtain ⟨t, hc⟩ := List.head?_eq_some_iff.1 hq
    by_cases ht : QuotesEscaped t
    · exact .inr (.inl ⟨t, hc, ht, run_stringLiteral_of_quotesEscaped hc ht⟩)
    · obtain ⟨n, hn⟩ := exists_closesAt_iff.2 ht
      obtain ⟨next, hs, hrun⟩ := run_stringLiteral_of_closesAt hc hn
      exact .inr (.inr ⟨t, n, next, hc, hn, hs, hrun⟩)
  · exact .inl ⟨hq, run_stringLiteral_of_head?_ne hq⟩

/-- What is written for a content is read as that content, whatever comes after it. -/
theorem run_stringLiteral_quote (b content r : List Char) :
    stringLiteral.run ⟨b, quote content ++ r⟩ = .ok (content, ⟨(quote content).reverse ++ b, r⟩) :=
  reads_stringLiteral.run_eq (Nat.lt_succ_self _)
    ⟨content.flatMap escape, rfl, unescapes_flatMap_escape content⟩

/-! ## The shortest literal -/

/-- Every literal but the one that is written has an escape more than it needs. -/
theorem Unescapes.eq_or_byteLength_lt (h : Unescapes u content) :
    u = content.flatMap escape ∨ byteLength (content.flatMap escape) < byteLength u := by
  induction h with
  | nil => exact .inl rfl
  | @plain c u content hq hb _ ih =>
    have hc : escape c = [c] := if_neg (not_or.2 ⟨hq, hb⟩)
    rw [List.flatMap_cons, hc, List.singleton_append, byteLength_cons, byteLength_cons]
    exact ih.imp (congrArg (c :: ·)) (Nat.add_lt_add_left · _)
  | @escaped c u content _ ih =>
    have hbackslash : Char.utf8Size '\\' = 1 := by decide
    rw [List.flatMap_cons, escape, byteLength_append]
    split
    · refine ih.imp (fun h => by rw [← h]; rfl) fun h => ?_
      simp only [byteLength_cons, byteLength_nil]
      omega
    · right
      have hle : byteLength (content.flatMap escape) ≤ byteLength u := by
        rcases ih with rfl | h
        · exact Nat.le_refl _
        · exact Nat.le_of_lt h
      simp only [byteLength_cons, byteLength_nil]
      omega

/-- The literal that is written is shorter than every other one with the same content. -/
theorem byteLength_quote_lt {w : List Char} {next : Cursor}
    (h : stringLiteral.run (.start w) = .ok (content, next)) (hend : next.rest = [])
    (hne : w ≠ quote content) : byteLength (quote content) < byteLength w := by
  obtain ⟨w', hs, u, rfl, hu⟩ := (reads_stringLiteral (Nat.lt_succ_self _)).1 h
  obtain rfl : w = enquote u := by simpa [hend] using hs.rest_eq
  have hquote : quote content = enquote (content.flatMap escape) := rfl
  rcases hu.eq_or_byteLength_lt with heq | hlt
  · rw [hquote, ← heq] at hne
    exact absurd rfl hne
  · rw [hquote]
    simp only [enquote, byteLength_cons, byteLength_append]
    omega

/-! ## String literals -/

/-- A literal starts with a quote and goes to the first quote behind that which is not escaped; the
lack of either quote is the failure, at the start and at the end of the text.  The content is what
stands between the quotes without its escapes.  What is written for a content is read as that
between any two texts, and nothing else that is read as that is as short. -/
theorem stringLiteral_exact :
    (∀ c, stringLiteral.run c = .error (.expected "`\"`" c) ↔ c.peek? ≠ some '"') ∧
    (∀ c, stringLiteral.run c = .error (.expected "closing quote" ⟨c.source.reverse, []⟩) ↔
      ∃ t, c.rest = '"' :: t ∧ QuotesEscaped t) ∧
    (∀ c t, c.rest = '"' :: t → ¬ QuotesEscaped t → ∃ n next, ClosesAt t n ∧
      c.Spans ('"' :: (t.take n ++ ['"'])) next ∧
      stringLiteral.run c = .ok (withoutEscapes (t.take n), next)) ∧
    (∀ a content b : String, ∃ next,
      stringLiteral.run ((Cursor.ofString (a ++ String.ofList (quote content.toList) ++ b)).advance
        a.utf8ByteSize) = .ok (content.toList, next) ∧ next.rest = b.toList) ∧
    ∀ content w next, stringLiteral.run (.start w) = .ok (content, next) → next.rest = [] →
      w ≠ quote content → byteLength (quote content) < byteLength w := by
  refine ⟨fun c => ⟨fun h => ?_, run_stringLiteral_of_head?_ne⟩, fun c => ⟨fun h => ?_, ?_⟩,
    fun c t hc ht => ?_, fun a content b => ?_, fun content w next => byteLength_quote_lt⟩
  · rcases run_stringLiteral_cases c with ⟨hq, -⟩ | ⟨t, -, -, hrun⟩ | ⟨t, n, next, -, -, -, hrun⟩
    · exact hq
    · rw [hrun] at h
      simp at h
    · rw [hrun] at h
      cases h
  · rcases run_stringLiteral_cases c with ⟨-, hrun⟩ | ⟨t, hc, ht, -⟩ | ⟨t, n, next, -, -, -, hrun⟩
    · rw [hrun] at h
      simp [quoted] at h
    · exact ⟨t, hc, ht⟩
    · rw [hrun] at h
      cases h
  · rintro ⟨t, hc, ht⟩
    exact run_stringLiteral_of_quotesEscaped hc ht
  · obtain ⟨n, hn⟩ := exists_closesAt_iff.2 ht
    obtain ⟨next, hs, hrun⟩ := run_stringLiteral_of_closesAt hc hn
    exact ⟨n, next, hn, hs, hrun⟩
  · rw [String.append_assoc, Cursor.advance_ofString_append, Cursor.behind, Cursor.ofString,
      Cursor.rest_start, String.toList_append, String.toList_ofList, run_stringLiteral_quote]
    exact ⟨_, rfl, rfl⟩

end Descent.Json
