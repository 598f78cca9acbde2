import Mathlib.Data.Finset.Card
import Mathlib.Data.Finset.Dedup
import Descent.Proofs.Json.Chain
import Descent.Proofs.Json.Lookahead
import Descent.Proofs.Json.Value

/-!
# Repeated keys

The fields of an object come from the pairs in its text.  A key that is repeated stays where it came
first and has the value that it came with last (`Fields.settled_ofPairs`).  That is so for each
object anywhere in a value, since each of them is read from a part of the text.
-/

namespace Descent.Json

open Descent.Text Descent.Parser

namespace Fields

variable {α : Type} {pairs fields : List (String × α)} {key : String} {a : α}

/-! ## Fields from pairs -/

/-- The fields have the keys of the pairs, each once and in the order in which they came first, with
the values that they came with last. -/
structure Settled (pairs : List (String × α)) (fields : Fields α) : Prop where
  nodup_keys : fields.keys.Nodup
  mem_keys_iff : ∀ key, key ∈ fields.keys ↔ key ∈ keys pairs
  ordered : fields.keys.Pairwise fun k k' => (keys pairs).idxOf k < (keys pairs).idxOf k'
  length_eq : fields.length = (keys pairs).toFinset.card
  find?_eq_some_iff : ∀ key a, fields.find? key = some a ↔
    ∃ before after, pairs = before ++ (key, a) :: after ∧ key ∉ keys after
  find?_eq_none_iff : ∀ key, fields.find? key = none ↔ key ∉ keys pairs

theorem ofPairs_append (pairs : List (String × α)) (key : String) (a : α) :
    ofPairs (pairs ++ [(key, a)]) = (ofPairs pairs).insert key a :=
  List.foldl_append

theorem keys_ofPairs (pairs : List (String × α)) :
    (ofPairs pairs).keys = (keys pairs).eraseDups := by
  induction pairs using List.reverseRecOn with
  | nil => rfl
  | append_singleton pairs pair ih =>
    rw [ofPairs_append, keys_insert, ih, keys_append, eraseDups_append_singleton]
    simp only [List.mem_eraseDups]

theorem find?_ofPairs (pairs : List (String × α)) (key : String) :
    (ofPairs pairs).find? key = last? pairs key := by
  induction pairs using List.reverseRecOn with
  | nil => rfl
  | append_singleton pairs pair ih =>
    rw [ofPairs_append, find?_insert, ih, last?_append]

theorem find?_eq_map_find? (fields : Fields α) (key : String) :
    fields.find? key = (List.find? (fun field => field.1 == key) fields).map (·.2) := by
  induction fields with
  | nil => rfl
  | cons field fields ih =>
    rw [find?, List.find?_cons]
    by_cases h : field.1 = key
    · rw [if_pos h, beq_iff_eq.2 h]
      rfl
    · rw [if_neg h, beq_false_of_ne h, ih]

/-- The last pair with a key has no pair with that key behind it. -/
theorem last?_eq_some_iff : last? pairs key = some a ↔
    ∃ before after, pairs = before ++ (key, a) :: after ∧ key ∉ keys after := by
  rw [last?, find?_eq_map_find?, Option.map_eq_some_iff]
  simp only [List.find?_eq_some_iff_append]
  constructor
  · rintro ⟨⟨k, b⟩, ⟨hk, after, before, hpairs, hafter⟩, rfl⟩
    obtain rfl : k = key := by simpa using hk
    refine ⟨before.reverse, after.reverse, ?_, fun hmem => ?_⟩
    · rw [List.reverse_eq_iff.1 hpairs]
      simp
    · obtain ⟨field, hfield, heq⟩ := List.mem_map.1 hmem
      simpa [heq] using hafter field (List.mem_reverse.1 hfield)
  · rintro ⟨before, after, rfl, hafter⟩
    refine ⟨(key, a), ⟨by simp, after.reverse, before.reverse, by simp, fun field hfield => ?_⟩,
      rfl⟩
    have hne : field.1 ≠ key := fun heq =>
      hafter (List.mem_map.2 ⟨field, List.mem_reverse.1 hfield, heq⟩)
    simpa using hne

theorem last?_eq_none_iff : last? pairs key = none ↔ key ∉ keys pairs := by
  constructor
  · intro h hkey
    have hsome := isSome_last? hkey
    rw [h] at hsome
    cases hsome
  · intro h
    rcases hlast : last? pairs key with - | a
    · rfl
    · obtain ⟨before, after, rfl, -⟩ := last?_eq_some_iff.1 hlast
      exact absurd (by simp [keys]) h

/-- Without its repetitions a list is in the order of the first places in it. -/
theorem pairwise_idxOf_eraseDups (ks : List String) :
    ks.eraseDups.Pairwise fun k k' => ks.idxOf k < ks.idxOf k' := by
  induction ks using List.reverseRecOn with
  | nil => exact List.Pairwise.nil
  | append_singleton ks key ih =>
    have hold : ks.eraseDups.Pairwise fun k k' =>
        (ks ++ [key]).idxOf k < (ks ++ [key]).idxOf k' :=
      ih.imp_of_mem fun hk hk' hlt => by
        rwa [List.idxOf_append_of_mem (List.mem_eraseDups.1 hk),
          List.idxOf_append_of_mem (List.mem_eraseDups.1 hk')]
    rw [eraseDups_append_singleton]
    split
    · exact hold
    · next hnew =>
      refine List.pairwise_append.2 ⟨hold, List.pairwise_singleton _ key, fun k hk k' hk' => ?_⟩
      obtain rfl := List.mem_singleton.1 hk'
      have hk := List.mem_eraseDups.1 hk
      rw [List.idxOf_append_of_mem hk, List.idxOf_append_of_notMem hnew]
      exact Nat.lt_of_lt_of_le (List.idxOf_lt_length_iff.2 hk) (Nat.le_add_right _ _)

theorem settled_ofPairs (pairs : List (String × α)) : Settled pairs (ofPairs pairs) where
  nodup_keys := by
    rw [keys_ofPairs]
    exact nodup_eraseDups _
  mem_keys_iff key := by rw [keys_ofPairs, List.mem_eraseDups]
  ordered := by
    rw [keys_ofPairs]
    exact pairwise_idxOf_eraseDups _
  length_eq := by
    have hkeys : (ofPairs pairs).keys.toFinset = (keys pairs).toFinset := by
      ext key
      rw [keys_ofPairs, List.mem_toFinset, List.mem_toFinset, List.mem_eraseDups]
    rw [← hkeys, keys_ofPairs, List.toFinset_card_of_nodup (nodup_eraseDups _), ← keys_ofPairs,
      keys, List.length_map]
  find?_eq_some_iff key a := by rw [find?_ofPairs, last?_eq_some_iff]
  find?_eq_none_iff key := by rw [find?_ofPairs, last?_eq_none_iff]

theorem mem_of_mem_ofPairs {pair : String × α} (h : pair ∈ ofPairs pairs) : pair ∈ pairs := by
  obtain ⟨key, a⟩ := pair
  have hfind := find?_of_mem (settled_ofPairs pairs).nodup_keys h
  obtain ⟨before, after, rfl, -⟩ := ((settled_ofPairs pairs).find?_eq_some_iff key a).1 hfind
  simp

end Fields

/-! ## Objects in texts -/

/-- An object with the pairs, in the order of the text, stands between the two cursors. -/
def PairsBetween (c : Cursor) (pairs : List (String × Value)) (next : Cursor) : Prop :=
  ∃ inside last, c.Spans ['{'] inside ∧ Chain FieldBetween inside pairs last ∧
    last.Spans ['}'] next

theorem reads_object {n : Nat} : Reads n object (objects Spells) :=
  fun _ hc => reads_objectOf (reads_value (n := n)) (Nat.lt_succ_of_lt hc)

theorem run_object_eq_ok_iff {c next : Cursor} {v : Value} :
    object.run c = .ok (v, next) ↔
      ∃ pairs, PairsBetween c pairs next ∧ v = .object (Fields.ofPairs pairs) := by
  rw [reads_object (Nat.lt_succ_self _)]
  constructor
  · rintro ⟨-, hs, w, pairs, rfl, rfl, hentries⟩
    obtain ⟨inside, hopen, hs⟩ := Cursor.Spans.split (u := ['{']) hs
    obtain ⟨last, hw, hclose⟩ := hs.split
    have hword : WordBetween (Entries (Keyed Spells)) inside pairs last :=
      ⟨w, hw, by rw [hclose.rest_eq]; exact hentries⟩
    exact ⟨pairs, ⟨inside, last, hopen, (chain_iff fieldBetween_iff).2 hword, hclose⟩, rfl⟩
  · rintro ⟨pairs, ⟨inside, last, hopen, hchain, hclose⟩, rfl⟩
    obtain ⟨w, hw, hentries⟩ := (chain_iff fieldBetween_iff).1 hchain
    rw [hclose.rest_eq] at hentries
    exact ⟨_, hopen.trans (hw.trans hclose), w, pairs, rfl, rfl, hentries⟩

/-! ## Objects inside values -/

section Parts

variable {α : Type} {L : Language α} {w r : List Char} {as : List α} {a : α}

/-- The word of each entry is a part of the text of the entries. -/
theorem Entries.exists_of_mem (h : Entries L w as r) (ha : a ∈ as) :
    ∃ u v s, w = u ++ (v ++ s) ∧ L v a (s ++ r) := by
  induction h with
  | nil => cases ha
  | @cons x u y k w r b as _ hu _ _ _ ih =>
    rcases List.mem_cons.1 ha with rfl | ha
    · exact ⟨x, u, y ++ (k ++ w), rfl, by simpa using hu⟩
    · obtain ⟨u', v, s, rfl, hv⟩ := ih ha
      exact ⟨x ++ (u ++ (y ++ (k ++ u'))), v, s, by simp, hv⟩

theorem Keyed.exists_word {L : Language Value} {field : String × Value} (h : Keyed L w field r) :
    ∃ u v, w = u ++ v ∧ L v field.2 r := by
  cases h with
  | @intro u content y z v r item _ _ _ hv => exact ⟨enquote u ++ (y ++ (':' :: z)), v, by simp, hv⟩

/-- The value of each field of an object is a part of the text of its pairs. -/
theorem Entries.exists_of_mem_ofPairs {L : Language Value} {pairs : List (String × Value)}
    {field : String × Value} (h : Entries (Keyed L) w pairs r)
    (hfield : field ∈ Fields.ofPairs pairs) :
    ∃ u v s, w = u ++ (v ++ s) ∧ L v field.2 (s ++ r) := by
  obtain ⟨u, x, s, rfl, hkeyed⟩ := h.exists_of_mem (Fields.mem_of_mem_ofPairs hfield)
  obtain ⟨key, v, rfl, hv⟩ := hkeyed.exists_word
  exact ⟨u ++ key, v, s, by simp, hv⟩

end Parts

/-- In the text every object in a value is spelled by a part. -/
def SpellsObjects : Language Value := fun w v r =>
  ∀ fields, (Value.object fields).Within v →
    ∃ u x s, w = u ++ (x ++ s) ∧ objects Spells x (.object fields) (s ++ r)

/-- Each object in a value is spelled by a part of the text of the value. -/
theorem Spells.spellsObjects {w r : List Char} {v : Value} (h : Spells w v r) :
    SpellsObjects w v r := by
  have hparts : Continues (fun u v s => Spells u v s ∧ SpellsObjects u v s) Spells :=
    fun _ _ _ _ h => continues_spells h.1
  refine Spells.induct (fun _ h => nomatch h) (fun _ _ h => nomatch h) (fun _ _ h => nomatch h)
    (fun _ _ h => nomatch h) (fun {w r items} hitems fields hwithin => ?_)
    (fun {w r pairs} hpairs fields hwithin => ?_) h
  · cases hwithin with
    | item hmem hwithin =>
      obtain ⟨u, v, s, rfl, -, hv⟩ := hitems.exists_of_mem hmem
      obtain ⟨u', x, s', rfl, hx⟩ := hv fields hwithin
      exact ⟨'[' :: (u ++ u'), x, s' ++ (s ++ [']']), by simp, by simpa using hx⟩
  · cases hwithin with
    | refl => exact ⟨[], _, [], by simp, w, pairs, rfl, rfl, hparts.keyed.entries hpairs⟩
    | field hmem hwithin =>
      obtain ⟨u, v, s, rfl, -, hv⟩ := hpairs.exists_of_mem_ofPairs hmem
      obtain ⟨u', x, s', rfl, hx⟩ := hv fields hwithin
      exact ⟨'{' :: (u ++ u'), x, s' ++ (s ++ ['}']), by simp, by simpa using hx⟩

/-! ## Repeated keys -/

/-- Where an object is read, its pairs come in the text, and of those with one key the first one
gives the place and the last one the value.  Every object in a value is read so from a part of the
text of the value. -/
theorem object_settled :
    (∀ c v next, object.run c = .ok (v, next) →
      (∃ pairs, PairsBetween c pairs next) ∧
      ∀ pairs, PairsBetween c pairs next →
        ∃ fields, v = .object fields ∧ Fields.Settled pairs fields ∧
          ∀ key, v.get? key = Fields.find? fields key) ∧
    ∀ c v next fields, value.run c = .ok (v, next) → (Value.object fields).Within v →
      ∃ u w s c' next' pairs, c.sliceTo next = u ++ (w ++ s) ∧ c.Spans u c' ∧
        c'.Spans w next' ∧ next'.Spans s next ∧ object.run c' = .ok (.object fields, next') ∧
        PairsBetween c' pairs next' ∧ Fields.Settled pairs fields := by
  refine ⟨fun c v next hrun => ⟨?_, fun pairs hpairs => ?_⟩, fun c v next fields hrun hwithin => ?_⟩
  · obtain ⟨pairs, hpairs, -⟩ := run_object_eq_ok_iff.1 hrun
    exact ⟨pairs, hpairs⟩
  · have hsettled := run_object_eq_ok_iff.2 ⟨pairs, hpairs, rfl⟩
    rw [hrun] at hsettled
    cases hsettled
    exact ⟨_, rfl, Fields.settled_ofPairs pairs, fun _ => rfl⟩
  · obtain ⟨w, hs, hw⟩ := run_value_eq_ok_iff.1 hrun
    obtain ⟨u, x, s, rfl, hx⟩ := hw.spellsObjects fields hwithin
    obtain ⟨c', hu, hxs⟩ := hs.split
    obtain ⟨next', hx', hs'⟩ := hxs.split
    rw [← hs'.rest_eq] at hx
    have hobject := (reads_object (Nat.lt_succ_self _)).2 ⟨x, hx', hx⟩
    obtain ⟨pairs, hpairs, heq⟩ := run_object_eq_ok_iff.1 hobject
    cases heq
    exact ⟨u, x, s, c', next', pairs, hs.sliceTo_eq, hu, hx', hs', hobject, hpairs,
      Fields.settled_ofPairs pairs⟩

/-- A key and the same key with an escape in it. -/
theorem object_settled_respelled :
    object.run (.start "\x7b\"a\":true,\"\\a\":null\x7d".toList) =
      .ok (.object [("a", .null)], ⟨"\x7b\"a\":true,\"\\a\":null\x7d".toList.reverse, []⟩) ∧
    ∃ pairs, PairsBetween (.start "\x7b\"a\":true,\"\\a\":null\x7d".toList) pairs
        ⟨"\x7b\"a\":true,\"\\a\":null\x7d".toList.reverse, []⟩ ∧
      Fields.Settled pairs [("a", .null)] := by
  have hplain : Unescapes ['a'] ['a'] := .plain (by decide) (by decide) .nil
  have hescaped : Unescapes ['\\', 'a'] ['a'] := .escaped 'a' .nil
  have hfirst : Keyed Spells "\"a\":true".toList ("a", .bool true)
      ",\"\\a\":null\x7d".toList :=
    Keyed.intro (y := []) (z := []) hplain (all_nil _) (all_nil _) (Spells.bool true)
  have hlast : Keyed Spells "\"\\a\":null".toList ("a", .null) ['\x7d'] :=
    Keyed.intro (y := []) (z := []) hescaped (all_nil _) (all_nil _) Spells.null
  have hentries : Entries (Keyed Spells) "\"a\":true,\"\\a\":null".toList
      [("a", .bool true), ("a", .null)] ['\x7d'] :=
    Entries.cons (x := []) (y := []) (k := [',']) (all_nil _) hfirst (all_nil _) (.inr rfl)
      (Entries.cons (x := []) (y := []) (k := []) (all_nil _) hlast (all_nil _) (.inl rfl) .nil)
  have hrun : object.run (.start "\x7b\"a\":true,\"\\a\":null\x7d".toList) =
      .ok (.object [("a", .null)], ⟨"\x7b\"a\":true,\"\\a\":null\x7d".toList.reverse, []⟩) :=
    (reads_object (Nat.lt_succ_self _)).2 ⟨_, ⟨rfl, rfl⟩, _, _, rfl, rfl, hentries⟩
  obtain ⟨⟨pairs, hpairs⟩, hsettled⟩ := object_settled.1 _ _ _ hrun
  obtain ⟨fields, hfields, hsettled, -⟩ := hsettled pairs hpairs
  cases hfields
  exact ⟨hrun, pairs, hpairs, hsettled⟩

end Descent.Json
