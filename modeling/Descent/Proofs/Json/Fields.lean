import Mathlib.Data.List.Induction
import Mathlib.Data.List.Nodup
import Descent.Json.Fields

/-!
# Fields from pairs

Pairs with distinct keys are fields as they are.  Of the pairs with one key, the first one gives the
place and the last one the value.
-/

namespace Descent.Json.Fields

variable {α : Type}

/-! ## Distinct keys -/

theorem insert_of_notMem {key : String} {fields : Fields α} (h : key ∉ fields.keys) (a : α) :
    fields.insert key a = fields ++ [(key, a)] := by
  induction fields with
  | nil => rfl
  | cons field fields ih =>
    obtain ⟨k, b⟩ := field
    simp only [keys, List.map_cons, List.mem_cons, not_or] at h
    rw [insert, if_neg (Ne.symm h.1), ih h.2, List.cons_append]

/-- Pairs with distinct keys are fields as they are. -/
theorem ofPairs_of_nodup {pairs : Fields α} (h : pairs.keys.Nodup) : ofPairs pairs = pairs := by
  have hfold : ∀ (pairs fields : Fields α), (keys (fields ++ pairs)).Nodup →
      pairs.foldl (fun fields pair => fields.insert pair.1 pair.2) fields = fields ++ pairs := by
    intro pairs
    induction pairs with
    | nil => exact fun fields _ => (List.append_nil fields).symm
    | cons pair pairs ih =>
      intro fields hnodup
      have hnew : pair.1 ∉ fields.keys := by
        rw [keys, List.map_append, List.nodup_append] at hnodup
        exact fun hmem => hnodup.2.2 _ hmem _ (List.mem_cons_self) rfl
      rw [List.append_cons] at hnodup ⊢
      rw [List.foldl_cons, insert_of_notMem hnew]
      exact ih _ hnodup
  exact hfold pairs [] h

theorem find?_of_mem {fields : Fields α} (h : fields.keys.Nodup) {key : String} {a : α}
    (hmem : (key, a) ∈ fields) : fields.find? key = some a := by
  induction fields with
  | nil => cases hmem
  | cons field fields ih =>
    obtain ⟨k, b⟩ := field
    obtain ⟨hk, hnodup⟩ := List.nodup_cons.1 h
    rcases List.mem_cons.1 hmem with heq | hmem
    · cases heq
      rw [find?, if_pos rfl]
    · have hne : k ≠ key := by
        rintro rfl
        exact hk (List.mem_map.2 ⟨_, hmem, rfl⟩)
      rw [find?, if_neg hne, ih hnodup hmem]

theorem mem_of_find? {fields : Fields α} {key : String} {a : α} (h : fields.find? key = some a) :
    (key, a) ∈ fields := by
  induction fields with
  | nil => cases h
  | cons field fields ih =>
    rw [find?] at h
    split at h
    · next heq =>
      cases h
      exact List.mem_cons.2 (.inl (Prod.ext heq.symm rfl))
    · exact List.mem_cons_of_mem _ (ih h)

/-! ## Repeated keys -/

/-- The value that a key has in the last pair with it. -/
def last? (pairs : List (String × α)) (key : String) : Option α := find? pairs.reverse key

/-- Each key at the place where it comes first, with its last value. -/
def settle (pairs : List (String × α)) : Fields α :=
  (keys pairs).eraseDups.filterMap fun key => (last? pairs key).map fun a => (key, a)

theorem last?_append (pairs : List (String × α)) (key k : String) (a : α) :
    last? (pairs ++ [(key, a)]) k = if key = k then some a else last? pairs k := by
  rw [last?, List.reverse_append]
  rfl

theorem keys_append (pairs : List (String × α)) (key : String) (a : α) :
    keys (pairs ++ [(key, a)]) = keys pairs ++ [key] := List.map_append

theorem eraseDups_append_singleton (ks : List String) (key : String) :
    (ks ++ [key]).eraseDups = if key ∈ ks then ks.eraseDups else ks.eraseDups ++ [key] := by
  rw [List.eraseDups_append]
  by_cases h : key ∈ ks <;> simp [List.removeAll, List.eraseDups_cons, h]

theorem nodup_eraseDups (ks : List String) : ks.eraseDups.Nodup := by
  induction ks using List.reverseRecOn with
  | nil => exact List.nodup_nil
  | append_singleton ks key ih =>
    rw [eraseDups_append_singleton]
    split
    · exact ih
    · next h =>
      refine List.nodup_append.2 ⟨ih, List.nodup_singleton key, ?_⟩
      rintro k hk _ hk' rfl
      rw [List.mem_singleton] at hk'
      exact h (hk' ▸ List.mem_eraseDups.1 hk)

/-- The fields with the given keys, where the values are found by a function. -/
def pick (f : String → Option α) (ks : List String) : Fields α :=
  ks.filterMap fun key => (f key).map fun a => (key, a)

theorem pick_congr {f g : String → Option α} {ks : List String} (h : ∀ key ∈ ks, f key = g key) :
    pick f ks = pick g ks :=
  List.filterMap_congr fun key hkey => by rw [h key hkey]

theorem keys_pick_subset {f : String → Option α} {ks : List String} {key : String}
    (h : key ∈ (pick f ks).keys) : key ∈ ks := by
  obtain ⟨⟨k, a⟩, hmem, rfl⟩ := List.mem_map.1 h
  obtain ⟨j, hj, hja⟩ := List.mem_filterMap.1 hmem
  obtain ⟨b, -, hb⟩ := Option.map_eq_some_iff.1 hja
  cases hb
  exact hj

/-- Inserting a key that is there already changes what is found for it. -/
theorem insert_pick {f : String → Option α} {ks : List String} (hnodup : ks.Nodup) {key : String}
    (hkey : key ∈ ks) (hf : (f key).isSome) (a : α) :
    (pick f ks).insert key a = pick (fun k => if key = k then some a else f k) ks := by
  induction ks with
  | nil => cases hkey
  | cons k ks ih =>
    obtain ⟨hk, hnodup⟩ := List.nodup_cons.1 hnodup
    by_cases hne : key = k
    · subst hne
      obtain ⟨b, hb⟩ := Option.isSome_iff_exists.1 hf
      have hrest : pick f ks = pick (fun k => if key = k then some a else f k) ks :=
        pick_congr fun k hmem => by
          rw [if_neg]
          rintro rfl
          exact hk hmem
      simp only [pick, List.filterMap_cons, hb, Option.map_some, if_true, insert] at hrest ⊢
      rw [hrest]
    · have ih := ih hnodup ((List.mem_cons.1 hkey).resolve_left hne)
      simp only [pick, List.filterMap_cons, if_neg hne] at ih ⊢
      rcases f k with - | b
      · exact ih
      · simp only [Option.map_some, insert, if_neg (Ne.symm hne)]
        rw [ih]

theorem isSome_last? {pairs : List (String × α)} {key : String} (h : key ∈ keys pairs) :
    (last? pairs key).isSome := by
  induction pairs using List.reverseRecOn with
  | nil => cases h
  | append_singleton pairs pair ih =>
    obtain ⟨k, a⟩ := pair
    rw [last?_append]
    split
    · rfl
    · next hne =>
      rw [keys_append, List.mem_append, List.mem_singleton] at h
      exact ih (h.resolve_right (Ne.symm hne))

/-- Inserting pairs one after the other leaves each key at its first place with its last value. -/
theorem ofPairs_eq_settle (pairs : List (String × α)) : ofPairs pairs = settle pairs := by
  induction pairs using List.reverseRecOn with
  | nil => rfl
  | append_singleton pairs pair ih =>
    obtain ⟨key, a⟩ := pair
    have hlast : last? (pairs ++ [(key, a)]) = fun k => if key = k then some a else last? pairs k :=
      funext fun k => last?_append pairs key k a
    rw [ofPairs, List.foldl_append] at *
    rw [List.foldl_cons, List.foldl_nil, ih]
    simp only [settle, keys_append, eraseDups_append_singleton, hlast]
    change (pick (last? pairs) _).insert key a = pick _ _
    split
    · next hmem =>
      exact insert_pick (nodup_eraseDups _) (List.mem_eraseDups.2 hmem) (isSome_last? hmem) a
    · next hmem =>
      have hnew : key ∉ (pick (last? pairs) (keys pairs).eraseDups).keys := fun h =>
        hmem (List.mem_eraseDups.1 (keys_pick_subset h))
      rw [insert_of_notMem hnew, pick, pick, List.filterMap_append]
      congr 1
      · refine pick_congr fun k hk => ?_
        rw [if_neg]
        rintro rfl
        exact hmem (List.mem_eraseDups.1 hk)
      · simp

end Descent.Json.Fields
