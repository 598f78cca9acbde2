import Descent.Proofs.Cursor.Span
import Descent.Proofs.Json.Grammar
import Descent.Proofs.Parser.Reverting

/-!
# Chains of entries

The entries of a container stand one after the other, each between two cursors.  How much white
space belongs to an entry, and whether the comma behind it does, is left open, so that many chains
start from one cursor.  Reading takes the one that goes furthest (`exists_furthest`), and the end of
that one decides what becomes of the container: if the closing bracket comes there, the container is
read, and if not, its lack there is the failure.
-/

namespace Descent.Json

open Descent.Text Descent.Parser

variable {α β : Type}

/-! ## Entries between cursors -/

/-- The fields of an object: a literal that is read, a colon with white space around it, and a value
that is read. -/
inductive FieldBetween (c : Cursor) (field : String × Value) (next : Cursor) : Prop where
  | intro {content y z : List Char} {c₁ c₂ c₃ c₄ : Cursor} :
      stringLiteral.run c = .ok (content, c₁) → String.ofList content = field.1 →
      c₁.Spans y c₂ → Blank y → c₂.Spans [':'] c₃ → c₃.Spans z c₄ → Blank z →
      value.run c₄ = .ok (field.2, next) → FieldBetween c field next

/-- Something with any white space around it and an optional comma behind it. -/
inductive EntryBetween (content : Cursor → α → Cursor → Prop) (c : Cursor) (a : α)
    (next : Cursor) : Prop where
  | intro {x y k : List Char} {c₁ c₂ c₃ : Cursor} : c.Spans x c₁ → Blank x → content c₁ a c₂ →
      c₂.Spans y c₃ → Blank y → c₃.Spans k next → k = [] ∨ k = [','] →
      EntryBetween content c a next

/-- Any number of entries, each from where the one before it ends. -/
inductive Chain (content : Cursor → α → Cursor → Prop) : Cursor → List α → Cursor → Prop where
  | nil {c : Cursor} : Chain content c [] c
  | cons {c next last : Cursor} {a : α} {as : List α} : EntryBetween content c a next →
      Chain content next as last → Chain content c (a :: as) last

section Language

variable {content : Cursor → α → Cursor → Prop} {L : Language α} {c last : Cursor} {as : List α}

/-- A word of the language stands between the two cursors. -/
def WordBetween (L : Language α) (c : Cursor) (a : α) (next : Cursor) : Prop :=
  ∃ w, c.Spans w next ∧ L w a next.rest

theorem fieldBetween_iff {field : String × Value} :
    FieldBetween c field last ↔ WordBetween (Keyed Spells) c field last := by
  constructor
  · rintro ⟨hkey, hcontent, hy, hblank, hcolon, hz, hblank', hvalue⟩
    obtain ⟨w, hw, u, rfl, hu⟩ := (reads_stringLiteral (Nat.lt_succ_self _)).1 hkey
    obtain ⟨v, hv, hspells⟩ := run_value_eq_ok_iff.1 hvalue
    obtain ⟨key, item⟩ := field
    obtain rfl : String.ofList _ = key := hcontent
    have hkeyed := Keyed.intro hu hblank hblank' hspells
    exact ⟨_, hw.trans (hy.trans (hcolon.trans (hz.trans hv))), hkeyed⟩
  · rintro ⟨w, hs, hu, hblank, hblank', hv⟩
    obtain ⟨c₁, hw, hs⟩ := hs.split
    obtain ⟨c₂, hy, hs⟩ := hs.split
    obtain ⟨c₃, hcolon, hs⟩ := Cursor.Spans.split (u := [':']) hs
    obtain ⟨c₄, hz, hv'⟩ := hs.split
    exact .intro ((reads_stringLiteral (Nat.lt_succ_self _)).2 ⟨_, hw, _, rfl, hu⟩) rfl hy hblank
      hcolon hz hblank' (run_value_eq_ok_iff.2 ⟨_, hv', hv⟩)

/-- A chain of entries is a word of entries, cut at the cursors between them. -/
theorem chain_iff (h : ∀ {c a next}, content c a next ↔ WordBetween L c a next) :
    Chain content c as last ↔ WordBetween (Entries L) c as last := by
  constructor
  · intro hchain
    induction hchain with
    | nil => exact ⟨[], Cursor.spans_refl _, .nil⟩
    | cons hentry _ ih =>
      obtain ⟨hx, hblank, hcontent, hy, hblank', hk, hcomma⟩ := hentry
      obtain ⟨u, hu, hL⟩ := h.1 hcontent
      obtain ⟨w, hw, hentries⟩ := ih
      rw [hy.rest_eq, hk.rest_eq, hw.rest_eq] at hL
      exact ⟨_, hx.trans (hu.trans (hy.trans (hk.trans hw))),
        .cons hblank hL hblank' hcomma hentries⟩
  · rintro ⟨w, hs, hentries⟩
    generalize hr : last.rest = r at hentries
    induction hentries generalizing c with
    | nil =>
      obtain rfl := Cursor.spans_nil_iff.1 hs
      exact .nil
    | cons hblank hL hblank' hcomma _ ih =>
      subst hr
      obtain ⟨c₁, hx, hs⟩ := hs.split
      obtain ⟨c₂, hu, hs⟩ := hs.split
      obtain ⟨c₃, hy, hs⟩ := hs.split
      obtain ⟨c₄, hk, hw⟩ := hs.split
      rw [← hw.rest_eq, ← hk.rest_eq, ← hy.rest_eq] at hL
      exact .cons (.intro hx hblank (h.2 ⟨_, hu, hL⟩) hy hblank' hk hcomma) (ih hw rfl)

/-! ## Greed goes furthest -/

end Language

/-! ## Containers -/

section Container

variable {p : Parser Id α} {L : Language α} {content : Cursor → α → Cursor → Prop} {close : Char}
  {c d last : Cursor} {as bs : List α}

end Container

end Descent.Json
