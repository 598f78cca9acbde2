import Mathlib.Algebra.BigOperators.Group.List.Basic
import Descent.Proofs.Json.Equality
import Descent.Proofs.Json.RepeatedKeys
import Descent.Proofs.Text.Boundary

/-!
# The size of values

A value is never larger than the text that it was read from.  Each part of it and each byte of its
strings and keys has bytes of its own in the text, and each container has its opening bracket there.
The text may pay for more than the value has: escapes, white space and the values of repeated keys
are dropped.
-/

namespace Descent.Json

open Descent.Text Descent.Parser

/-! ## Measures of values -/

namespace Value

variable {items : List Value} {fields : Fields Value} {own own' : Value → Nat}

mutual

/-- The value and all values in it, each in front of those in it. -/
def parts : Value → List Value
  | null => [null]
  | bool b => [bool b]
  | number x => [number x]
  | string content => [string content]
  | array items => array items :: itemParts items
  | object fields => object fields :: fieldParts fields

/-- The parts of the items one after the other. -/
def itemParts : List Value → List Value
  | [] => []
  | item :: items => item.parts ++ itemParts items

/-- The parts of the fields one after the other. -/
def fieldParts : List (String × Value) → List Value
  | [] => []
  | (_, value) :: fields => value.parts ++ fieldParts fields

end

mutual

/-- How deep arrays and objects are nested in the value. -/
def depth : Value → Nat
  | null => 0
  | bool _ => 0
  | number _ => 0
  | string _ => 0
  | array items => itemDepth items + 1
  | object fields => fieldDepth fields + 1

/-- The depth of the deepest item. -/
def itemDepth : List Value → Nat
  | [] => 0
  | item :: items => max item.depth (itemDepth items)

/-- The depth of the deepest field. -/
def fieldDepth : List (String × Value) → Nat
  | [] => 0
  | (_, value) :: fields => max value.depth (fieldDepth fields)

end

/-- What the parts of a value have in total. -/
def total (own : Value → Nat) (v : Value) : Nat := (v.parts.map own).sum

/-- The number of values in a value, itself included. -/
def nodeCount : Value → Nat := total fun _ => 1

/-- The bytes of a value that is a string, or of the keys of one that is an object. -/
def ownBytes : Value → Nat
  | string content => content.utf8ByteSize
  | object fields => ((Fields.keys fields).map String.utf8ByteSize).sum
  | _ => 0

/-- The bytes of all strings and keys in a value. -/
def textBytes : Value → Nat := total ownBytes

theorem total_add (v : Value) :
    total (fun part => own part + own' part) v = total own v + total own' v :=
  List.sum_map_add

theorem total_array :
    total own (array items) = own (array items) + (items.map (total own)).sum := by
  have hitems : ((itemParts items).map own).sum = (items.map (total own)).sum := by
    induction items with
    | nil => rfl
    | cons item items ih =>
      rw [itemParts, List.map_append, List.sum_append, ih]
      rfl
  rw [total, parts, List.map_cons, List.sum_cons, hitems]

theorem total_object : total own (object fields) =
    own (object fields) + (fields.map fun field => total own field.2).sum := by
  have hfields : ((fieldParts fields).map own).sum =
      (fields.map fun field => total own field.2).sum := by
    induction fields with
    | nil => rfl
    | cons field fields ih =>
      rw [fieldParts, List.map_append, List.sum_append, ih]
      rfl
  rw [total, parts, List.map_cons, List.sum_cons, hfields]

/-- The number of values in a value together with the bytes of its strings and keys. -/
def size : Value → Nat := total fun part => 1 + part.ownBytes

theorem size_eq (v : Value) : v.size = v.nodeCount + v.textBytes := total_add v

/-- What a field adds to the size of an object. -/
def fieldSize (field : String × Value) : Nat := field.1.utf8ByteSize + field.2.size

theorem size_string {content : String} : size (string content) = 1 + content.utf8ByteSize := rfl

theorem size_array : size (array items) = 1 + (items.map size).sum := total_array

theorem size_object : size (object fields) = 1 + (fields.map fieldSize).sum := by
  have hsum := List.sum_map_add (l := fields) (f := fun field => field.1.utf8ByteSize)
    (g := fun field => field.2.size)
  rw [size, total_object, ownBytes, Fields.keys, List.map_map, Nat.add_assoc]
  exact congrArg (1 + ·) hsum.symm

theorem depth_array_le_iff {n : Nat} :
    depth (array items) ≤ n + 1 ↔ ∀ item ∈ items, depth item ≤ n := by
  rw [depth, Nat.add_le_add_iff_right]
  induction items with
  | nil => simp [itemDepth]
  | cons item items ih => rw [itemDepth, Nat.max_le, ih, List.forall_mem_cons]

theorem depth_object_le_iff {n : Nat} :
    depth (object fields) ≤ n + 1 ↔ ∀ field ∈ fields, depth field.2 ≤ n := by
  rw [depth, Nat.add_le_add_iff_right]
  induction fields with
  | nil => simp [fieldDepth]
  | cons field fields ih => rw [fieldDepth, Nat.max_le, ih, List.forall_mem_cons]

end Value

/-! ## The fields of an object and the pairs they come from -/

namespace Fields

variable {α : Type} (f : String × α → Nat)

theorem sum_insert_le (key : String) (a : α) (fields : Fields α) :
    ((fields.insert key a).map f).sum ≤ (fields.map f).sum + f (key, a) := by
  induction fields with
  | nil => simp [insert]
  | cons field fields ih =>
    obtain ⟨k, b⟩ := field
    rw [insert]
    split
    · next h =>
      subst h
      simp only [List.map_cons, List.sum_cons]
      omega
    · simp only [List.map_cons, List.sum_cons]
      omega

/-- Repeated keys only make the sum smaller. -/
theorem sum_ofPairs_le (pairs : List (String × α)) :
    ((ofPairs pairs).map f).sum ≤ (pairs.map f).sum := by
  induction pairs using List.reverseRecOn with
  | nil => exact Nat.le_refl _
  | append_singleton pairs pair ih =>
    rw [ofPairs_append, List.map_append, List.sum_append, List.map_singleton, List.sum_singleton]
    exact (sum_insert_le f _ _ _).trans (Nat.add_le_add_right ih _)

end Fields

/-! ## What texts pay for -/

section Texts

variable {α : Type} {L : Language α} {w r u content : List Char} {as : List α}

theorem Unescapes.byteLength_le (h : Unescapes u content) : byteLength content ≤ byteLength u := by
  induction h with
  | nil => exact Nat.le_refl _
  | plain _ _ _ ih => exact Nat.add_le_add_left ih _
  | escaped c _ ih =>
    rw [byteLength_cons, byteLength_cons, byteLength_cons]
    omega

theorem byteLength_add_two_le (o c : Char) (w : List Char) :
    byteLength w + 2 ≤ byteLength (o :: (w ++ [c])) := by
  have ho := o.utf8Size_pos
  have hc := c.utf8Size_pos
  simp only [byteLength_cons, byteLength_append, byteLength_nil]
  omega

theorem byteLength_enquote_le (u : List Char) : byteLength u + 2 ≤ byteLength (enquote u) :=
  byteLength_add_two_le _ _ u

/-- If the words of a language pay for what they stand for, entries pay for the whole list. -/
theorem Entries.sum_le {f : α → Nat} (h : Entries L w as r)
    (hf : ∀ u a s, L u a s → f a ≤ byteLength u) : (as.map f).sum ≤ byteLength w := by
  induction h with
  | nil => exact Nat.le_refl _
  | cons _ hu _ _ _ ih =>
    have hhead := hf _ _ _ hu
    simp only [List.map_cons, List.sum_cons, byteLength_append]
    omega

theorem Keyed.fieldSize_le {L : Language Value} {field : String × Value} (h : Keyed L w field r)
    (hL : ∀ u v s, L u v s → v.size ≤ byteLength u) : Value.fieldSize field ≤ byteLength w := by
  cases h with
  | intro hu _ _ hv =>
    have hkey := hu.byteLength_le.trans (Nat.le_of_add_right_le (byteLength_enquote_le _))
    have hvalue := hL _ _ _ hv
    rw [Value.fieldSize, utf8ByteSize_ofList]
    simp only [byteLength_append, byteLength_cons]
    omega

end Texts

/-! ## Values that are read -/

section Spelled

variable {w r : List Char} {v : Value}

/-- A property of values that are read is proved by their parts: their objects have no key twice,
and their numbers come from decimals. -/
theorem Spells.induct_parts {P : Value → Prop} (null : P .null) (bool : ∀ b, P (.bool b))
    (number : ∀ d x, Decimal.Rounds d x → P (.number x)) (string : ∀ content, P (.string content))
    (array : ∀ items, (∀ item ∈ items, P item) → P (.array items))
    (object : ∀ fields, (Fields.keys fields).Nodup → (∀ field ∈ fields, P field.2) →
      P (.object fields)) (h : Spells w v r) : P v := by
  refine Spells.induct (P := fun _ v _ => P v) null bool (fun {w r x} hx => ?_)
    (fun _ => string _) (fun {w r items} hitems => ?_) (fun {w r pairs} hpairs => ?_) h
  · obtain ⟨-, d, -, hd⟩ := hx
    exact number d x hd
  · refine array items fun item hitem => ?_
    obtain ⟨u, x, s, -, -, hx⟩ := hitems.exists_of_mem hitem
    exact hx
  · refine object _ (Fields.settled_ofPairs pairs).nodup_keys fun field hfield => ?_
    obtain ⟨u, x, s, -, -, hx⟩ := hpairs.exists_of_mem_ofPairs hfield
    exact hx

theorem Spells.distinctKeys (h : Spells w v r) : v.DistinctKeys :=
  h.induct_parts (Value.distinctKeys_of_no_parts rfl rfl)
    (fun _ => Value.distinctKeys_of_no_parts rfl rfl)
    (fun _ _ _ => Value.distinctKeys_of_no_parts rfl rfl)
    (fun _ => Value.distinctKeys_of_no_parts rfl rfl)
    (fun _ => Value.distinctKeys_array_iff.2)
    fun _ hkeys hfields => Value.distinctKeys_object_iff.2 ⟨hkeys, hfields⟩

theorem isNaN_of_rounds {d : Decimal} {x : Binary64} (h : d.Rounds x) : x.isNaN = false := by
  rw [Decimal.rounds_iff.1 h]
  exact decide_eq_false (Nat.not_lt.2 (Decimal.magnitude_le_infinity _ _))

theorem Spells.naNFree (h : Spells w v r) : v.NaNFree := by
  refine h.induct_parts (Value.forall_within_of_no_parts rfl rfl rfl)
    (fun _ => Value.forall_within_of_no_parts rfl rfl rfl) (fun d x hd => ?_)
    (fun _ => Value.forall_within_of_no_parts rfl rfl rfl)
    (fun _ => Value.forall_within_array_iff.2) fun _ _ => Value.forall_within_object_iff.2
  exact Value.forall_within_number_iff.2 (isNaN_of_rounds hd)

/-- Whether the character opens an array or an object. -/
def opensContainer (c : Char) : Bool := c == '[' || c == '{'

/-- Each container that a part of the value stands in has its bracket in the text. -/
theorem Spells.depth_le (h : Spells w v r) : v.depth ≤ w.countP opensContainer := by
  refine Spells.induct (P := fun w v _ => v.depth ≤ w.countP opensContainer) (Nat.zero_le _)
    (fun _ => Nat.zero_le _) (fun _ => Nat.zero_le _) (fun _ => Nat.zero_le _)
    (fun {w r items} hitems => ?_) (fun {w r pairs} hpairs => ?_) h
  · rw [List.countP_cons_of_pos rfl, Value.depth_array_le_iff]
    intro item hitem
    obtain ⟨u, x, s, rfl, -, hx⟩ := hitems.exists_of_mem hitem
    simp only [List.countP_append]
    omega
  · rw [List.countP_cons_of_pos rfl, Value.depth_object_le_iff]
    intro field hfield
    obtain ⟨u, x, s, rfl, -, hx⟩ := hpairs.exists_of_mem_ofPairs hfield
    simp only [List.countP_append]
    omega

/-- The text has bytes enough for all parts of the value and for its strings and keys. -/
theorem Spells.size_le (h : Spells w v r) : v.size ≤ byteLength w := by
  refine Spells.induct (P := fun w v _ => v.size ≤ byteLength w) ?_ (fun b => ?_)
    (fun {w r x} hx => ?_) (fun {u content r} hu => ?_)
    (fun {w r items} hitems => ?_) (fun {w r pairs} hpairs => ?_) h
  · exact fun {_} => by decide
  · cases b <;> decide
  · obtain ⟨-, d, hd, -⟩ := hx
    exact Nat.pos_of_ne_zero fun h => ne_nil_of_numeral hd (byteLength_eq_zero_iff.1 h)
  · have hcontent := hu.byteLength_le
    have hquotes := byteLength_enquote_le u
    rw [Value.size_string, utf8ByteSize_ofList]
    omega
  · have hsum := hitems.sum_le fun _ _ _ hv => hv.2
    have hw := byteLength_add_two_le '[' ']' w
    rw [Value.size_array]
    omega
  · have hkeyed := hpairs.sum_le fun _ _ _ hfield => hfield.fieldSize_le fun _ _ _ hv => hv.2
    have hsum := Fields.sum_ofPairs_le Value.fieldSize pairs
    have hw := byteLength_add_two_le '{' '}' w
    rw [Value.size_object]
    omega

end Spelled

/-- A value that is read has no NaN in it and so equals itself.  Its containers are not nested
deeper than there are opening brackets in the text it is read from, and it has no more parts and
bytes in its strings and keys than that text has bytes. -/
theorem run_value_bounded {c next : Cursor} {v : Value} (h : value.run c = .ok (v, next)) :
    v.NaNFree ∧ v.equal v = true ∧ v.depth ≤ (c.sliceTo next).countP opensContainer ∧
      v.nodeCount + v.textBytes ≤ next.position - c.position := by
  obtain ⟨w, hs, hw⟩ := run_value_eq_ok_iff.1 h
  rw [hs.sliceTo_eq, hs.position_eq, Nat.add_sub_cancel_left, ← Value.size_eq]
  exact ⟨hw.naNFree, (Value.equal_self_iff v hw.distinctKeys).2 hw.naNFree, hw.depth_le, hw.size_le⟩

/-- An object that loses the value which its key had first, and a string that loses an escape. -/
theorem run_value_bounded_repeated_key :
    value.run (.start "\x7b\"a\":[],\"a\":\"\\b\"\x7d".toList) =
      .ok (.object [("a", .string "b")], ⟨"\x7b\"a\":[],\"a\":\"\\b\"\x7d".toList.reverse, []⟩) ∧
    Value.NaNFree (.object [("a", .string "b")]) ∧
    Value.depth (.object [("a", .string "b")]) ≤ 2 ∧
    Value.nodeCount (.object [("a", .string "b")]) +
      Value.textBytes (.object [("a", .string "b")]) ≤ 17 := by
  have hkey : Unescapes ['a'] ['a'] := .plain (by decide) (by decide) .nil
  have hcontent : Unescapes ['\\', 'b'] ['b'] := .escaped 'b' .nil
  have hfirst : Keyed Spells "\"a\":[]".toList ("a", .array []) ",\"a\":\"\\b\"\x7d".toList :=
    Keyed.intro (y := []) (z := []) hkey (all_nil _) (all_nil _) (Spells.array .nil)
  have hlast : Keyed Spells "\"a\":\"\\b\"".toList ("a", .string "b") ['\x7d'] :=
    Keyed.intro (y := []) (z := []) hkey (all_nil _) (all_nil _) (Spells.string hcontent)
  have hentries : Entries (Keyed Spells) "\"a\":[],\"a\":\"\\b\"".toList
      [("a", .array []), ("a", .string "b")] ['\x7d'] :=
    Entries.cons (x := []) (y := []) (k := [',']) (all_nil _) hfirst (all_nil _) (.inr rfl)
      (Entries.cons (x := []) (y := []) (k := []) (all_nil _) hlast (all_nil _) (.inl rfl) .nil)
  have hrun : value.run (.start "\x7b\"a\":[],\"a\":\"\\b\"\x7d".toList) =
      .ok (.object [("a", .string "b")], ⟨"\x7b\"a\":[],\"a\":\"\\b\"\x7d".toList.reverse, []⟩) :=
    run_value_eq_ok_iff.2 ⟨_, ⟨rfl, rfl⟩, .object hentries⟩
  obtain ⟨hnan, -, hdepth, hsize⟩ := run_value_bounded hrun
  exact ⟨hrun, hnan, hdepth, hsize⟩

end Descent.Json
