import Mathlib.Data.List.Forall2
import Mathlib.Data.List.Perm.Basic
import Mathlib.Data.List.Perm.Subperm
import Descent.Proofs.Json.Value

/-!
# Equality of values

Objects are compared from one side: each key of the first one is looked up in the second one.  As
long as no key comes twice, that finds a partner for every field of the second one too, so that
equal values are those which a reordering of keys makes equal number by number
(`equal_iff_related`).
-/

namespace Descent

/-! ## Numbers -/

namespace Binary64

variable {x y z : Binary64}

/-- Neither is a NaN, and they are the same number or both of them zeros, of either sign. -/
def SameNumber (x y : Binary64) : Prop :=
  x.isNaN = false ∧ y.isNaN = false ∧ (x = y ∨ x.magnitude = 0 ∧ y.magnitude = 0)

theorem sameNumber_self_iff : x.SameNumber x ↔ x.isNaN = false := by
  simp [SameNumber]

theorem SameNumber.symm (h : x.SameNumber y) : y.SameNumber x := by
  obtain ⟨hx, hy, hsame⟩ := h
  exact ⟨hy, hx, hsame.imp Eq.symm And.symm⟩

theorem SameNumber.trans (hxy : x.SameNumber y) (hyz : y.SameNumber z) : x.SameNumber z := by
  obtain ⟨hx, -, rfl | ⟨hx0, hy0⟩⟩ := hxy
  · exact hyz
  · obtain ⟨-, hz, rfl | ⟨-, hz0⟩⟩ := hyz
    · exact ⟨hx, hz, .inr ⟨hx0, hy0⟩⟩
    · exact ⟨hx, hz, .inr ⟨hx0, hz0⟩⟩

theorem equal_iff : x.equal y = true ↔ x.SameNumber y := by
  simp [equal, SameNumber, and_assoc]

end Binary64

namespace Json

/-! ## Lists in one order -/

section Lists

variable {α β γ : Type} {R : α → β → Prop} {S : β → γ → Prop} {T : α → γ → Prop}
  {as : List α} {bs : List β} {cs : List γ}

theorem forall₂_imp_of_mem {R' : α → β → Prop} (h : List.Forall₂ R as bs)
    (himp : ∀ a ∈ as, ∀ b ∈ bs, R a b → R' a b) : List.Forall₂ R' as bs := by
  rw [List.forall₂_iff_zip] at h ⊢
  refine ⟨h.1, fun hmem => ?_⟩
  obtain ⟨ha, hb⟩ := List.of_mem_zip hmem
  exact himp _ ha _ hb (h.2 hmem)

theorem forall₂_trans (hR : List.Forall₂ R as bs) (hS : List.Forall₂ S bs cs)
    (htrans : ∀ a b c, R a b → S b c → T a c) : List.Forall₂ T as cs := by
  induction hR generalizing cs with
  | nil =>
    cases hS
    exact .nil
  | cons hab _ ih =>
    cases hS with
    | cons hbc hS => exact .cons (htrans _ _ _ hab hbc) (ih hS)

/-- Lists whose elements are related through others are related through a list of those. -/
theorem exists_forall₂_of_comp (h : List.Forall₂ (fun a c => ∃ b, R a b ∧ S b c) as cs) :
    ∃ bs, List.Forall₂ R as bs ∧ List.Forall₂ S bs cs := by
  induction h with
  | nil => exact ⟨[], .nil, .nil⟩
  | cons hac _ ih =>
    obtain ⟨b, hab, hbc⟩ := hac
    obtain ⟨bs, hR, hS⟩ := ih
    exact ⟨b :: bs, .cons hab hR, .cons hbc hS⟩

theorem exists_of_forall₂_of_mem {a : α} (h : List.Forall₂ R as bs) (ha : a ∈ as) :
    ∃ b ∈ bs, R a b := by
  induction h with
  | nil => cases ha
  | cons hab _ ih =>
    rcases List.mem_cons.1 ha with rfl | ha
    · exact ⟨_, List.mem_cons_self, hab⟩
    · obtain ⟨b, hb, hab⟩ := ih ha
      exact ⟨b, List.mem_cons_of_mem _ hb, hab⟩

theorem exists_forall₂_subset (h : ∀ a ∈ as, ∃ b ∈ bs, R a b) :
    ∃ image, List.Forall₂ R as image ∧ image ⊆ bs := by
  induction as with
  | nil => exact ⟨[], .nil, List.nil_subset bs⟩
  | cons a as ih =>
    rw [List.forall_mem_cons] at h
    obtain ⟨b, hb, hab⟩ := h.1
    obtain ⟨image, himage, hsubset⟩ := ih h.2
    exact ⟨b :: image, .cons hab himage, List.cons_subset.2 ⟨hb, hsubset⟩⟩

/-- It does not matter which of the two lists is reordered. -/
theorem exists_perm_forall₂_iff : (∃ sorted, as.Perm sorted ∧ List.Forall₂ R sorted bs) ↔
    ∃ sorted, List.Forall₂ R as sorted ∧ sorted.Perm bs :=
  (iff_of_eq (congrFun (congrFun List.forall₂_comp_perm_eq_perm_comp_forall₂ as) bs)).symm

end Lists

/-! ## Fields in any order -/

namespace Fields

variable {α : Type} {R : α → α → Prop} {fields others : Fields α}

/-- The two fields have one key and related values. -/
def Agree (R : α → α → Prop) (field other : String × α) : Prop :=
  field.1 = other.1 ∧ R field.2 other.2

theorem keys_eq_of_agree (h : List.Forall₂ (Agree R) fields others) :
    fields.keys = others.keys := by
  induction h with
  | nil => rfl
  | cons hfield _ ih => exact congrArg₂ List.cons hfield.1 ih

/-- Lists of equal length agree in some order if each field of the first one has its partner in the
second one.  As the keys are distinct, there are too few fields for one without a partner. -/
theorem exists_perm_agree_iff (hfields : fields.keys.Nodup) :
    (∃ sorted, fields.Perm sorted ∧ List.Forall₂ (Agree R) sorted others) ↔
      fields.length = others.length ∧ ∀ field ∈ fields, ∃ other ∈ others, Agree R field other := by
  rw [exists_perm_forall₂_iff]
  constructor
  · rintro ⟨sorted, hsorted, hperm⟩
    refine ⟨hsorted.length_eq.trans hperm.length_eq, fun field hfield => ?_⟩
    obtain ⟨other, hother, hagree⟩ := exists_of_forall₂_of_mem hsorted hfield
    exact ⟨other, hperm.subset hother, hagree⟩
  · rintro ⟨hlength, hpartner⟩
    -- The partners are as distinct as the keys, and no fewer than the others that they come from.
    obtain ⟨image, himage, hsubset⟩ := exists_forall₂_subset hpartner
    rw [keys_eq_of_agree himage] at hfields
    have hnodup : image.Nodup := .of_map _ hfields
    have hle : others.length ≤ image.length := Nat.le_of_eq (hlength.symm.trans himage.length_eq)
    exact ⟨image, himage, (List.subperm_of_subset hnodup hsubset).perm_of_length_le hle⟩

end Fields

namespace Value

variable {items others : List Value} {u v w : Value}

/-! ## Values of one shape -/

variable {L M N : Binary64 → Binary64 → Prop} {O : Fields Value → Fields Value → Prop}

mutual

/-- The values differ in their numbers, which are related by `N`, and in the order of the fields of
their objects, which may be changed by `O`. -/
inductive Related (N : Binary64 → Binary64 → Prop) (O : Fields Value → Fields Value → Prop) :
    Value → Value → Prop where
  | null : Related N O null null
  | bool (b : Bool) : Related N O (bool b) (bool b)
  | number {x y : Binary64} : N x y → Related N O (number x) (number y)
  | string (content : String) : Related N O (string content) (string content)
  | array {items others : List Value} : List.Forall₂ (Related N O) items others →
      Related N O (array items) (array others)
  | object {fields sorted others : Fields Value} : O fields sorted →
      List.Forall₂ (RelatedField N O) sorted others → Related N O (object fields) (object others)

/-- The fields have one key and related values. -/
inductive RelatedField (N : Binary64 → Binary64 → Prop) (O : Fields Value → Fields Value → Prop) :
    String × Value → String × Value → Prop where
  | intro (key : String) {v w : Value} : Related N O v w → RelatedField N O (key, v) (key, w)

end

/-- The values are the same but for the order of the keys of objects at any depth. -/
def Reordered : Value → Value → Prop := Related (· = ·) List.Perm

/-- The values are the same, keys in the same order, number by number: a zero may have the other
sign, and a NaN is like nothing. -/
def Alike : Value → Value → Prop := Related Binary64.SameNumber (· = ·)

theorem relatedField_eq : RelatedField N O = Fields.Agree (Related N O) := by
  funext field other
  refine propext ⟨?_, ?_⟩
  · rintro ⟨key, h⟩
    exact ⟨rfl, h⟩
  · obtain ⟨key, v⟩ := field
    obtain ⟨key', w⟩ := other
    rintro ⟨rfl, h⟩
    exact .intro _ h

theorem related_array_iff :
    Related N O (array items) (array others) ↔ List.Forall₂ (Related N O) items others := by
  constructor
  · intro h
    cases h with
    | array h => exact h
  · exact .array

theorem related_object_iff {fields others : Fields Value} :
    Related N O (object fields) (object others) ↔
      ∃ sorted, O fields sorted ∧ List.Forall₂ (Fields.Agree (Related N O)) sorted others := by
  rw [← relatedField_eq]
  constructor
  · intro h
    cases h with
    | object hsorted h => exact ⟨_, hsorted, h⟩
  · rintro ⟨sorted, hsorted, h⟩
    exact .object hsorted h

/-! ## Equality up to the order of keys -/

theorem equalItems_iff : equalItems items others = true ↔
    List.Forall₂ (fun v w => v.equal w = true) items others := by
  induction items generalizing others with
  | nil => cases others <;> simp [equalItems]
  | cons item items ih => cases others <;> simp [equalItems, ih]

/-- Looking up the keys finds the partners of the fields. -/
theorem equalFields_iff {fields others : Fields Value} (hothers : others.keys.Nodup) :
    equalFields fields others = true ↔
      ∀ field ∈ fields, ∃ other ∈ others,
        Fields.Agree (fun v w => v.equal w = true) field other := by
  induction fields with
  | nil => simp [equalFields]
  | cons field fields ih =>
    obtain ⟨key, v⟩ := field
    rw [equalFields, Bool.and_eq_true, ih, List.forall_mem_cons]
    refine and_congr_left fun _ => ?_
    constructor
    · intro h
      split at h
      · next w hw => exact ⟨(key, w), Fields.mem_of_find? hw, rfl, h⟩
      · cases h
    · rintro ⟨⟨key, w⟩, hmem, rfl, h⟩
      rw [Fields.find?_of_mem hothers hmem]
      exact h

/-- No number in the value is a NaN. -/
def NaNFree (v : Value) : Prop := ∀ x, (number x).Within v → x.isNaN = false

/-- A value equals itself as long as no NaN is in it. -/
theorem equal_self_iff (v : Value) (h : v.DistinctKeys) : v.equal v = true ↔ v.NaNFree := by
  induction v using Value.induct with
  | null => exact iff_of_true rfl (forall_within_of_no_parts rfl rfl rfl)
  | bool b => exact iff_of_true (by simp [equal]) (forall_within_of_no_parts rfl rfl rfl)
  | string content => exact iff_of_true (by simp [equal]) (forall_within_of_no_parts rfl rfl rfl)
  | number x =>
    rw [NaNFree, forall_within_number_iff, equal, Binary64.equal_iff, Binary64.sameNumber_self_iff]
  | array items ih =>
    rw [distinctKeys_array_iff] at h
    rw [NaNFree, forall_within_array_iff, equal, equalItems_iff, List.forall₂_same]
    exact forall₂_congr fun item hitem => ih item hitem (h item hitem)
  | object fields ih =>
    rw [distinctKeys_object_iff] at h
    have hfields := equalFields_map_iff (f := id) h.1 fun _ hfield => hfield
    simp only [id_eq, List.map_id'] at hfields
    rw [NaNFree, forall_within_object_iff, equal, beq_self_eq_true, Bool.true_and, hfields]
    exact forall₂_congr fun field hfield => ih field hfield (h.2 field hfield)

/-- Values are equal if they are the same but for the order of keys and for equal numbers. -/
theorem equal_iff_related (hu : u.DistinctKeys) (hv : v.DistinctKeys) :
    u.equal v = true ↔ Related Binary64.SameNumber List.Perm u v := by
  induction u using Value.induct generalizing v with
  | null =>
    cases v with
    | null => exact iff_of_true rfl .null
    | _ => exact iff_of_false Bool.false_ne_true (by rintro ⟨⟩)
  | bool b =>
    cases v with
    | bool b' =>
      rw [equal, beq_iff_eq]
      constructor
      · rintro rfl
        exact .bool b
      · rintro ⟨⟩
        rfl
    | _ => exact iff_of_false Bool.false_ne_true (by rintro ⟨⟩)
  | number x =>
    cases v with
    | number y =>
      rw [equal, Binary64.equal_iff]
      constructor
      · exact fun h => .number h
      · intro h
        cases h with
        | number h => exact h
    | _ => exact iff_of_false Bool.false_ne_true (by rintro ⟨⟩)
  | string content =>
    cases v with
    | string content' =>
      rw [equal, beq_iff_eq]
      constructor
      · rintro rfl
        exact .string content
      · rintro ⟨⟩
        rfl
    | _ => exact iff_of_false Bool.false_ne_true (by rintro ⟨⟩)
  | array items ih =>
    cases v with
    | array others =>
      rw [distinctKeys_array_iff] at hu hv
      rw [equal, equalItems_iff, related_array_iff]
      constructor
      · exact fun h => forall₂_imp_of_mem h fun v hv' w hw => (ih v hv' (hu v hv') (hv w hw)).1
      · exact fun h => forall₂_imp_of_mem h fun v hv' w hw => (ih v hv' (hu v hv') (hv w hw)).2
    | _ => exact iff_of_false Bool.false_ne_true (by rintro ⟨⟩)
  | object fields ih =>
    cases v with
    | object others =>
      rw [distinctKeys_object_iff] at hu hv
      rw [equal, Bool.and_eq_true, beq_iff_eq, equalFields_iff hv.1, related_object_iff,
        Fields.exists_perm_agree_iff hu.1]
      refine and_congr_right fun _ => forall₂_congr fun field hfield => exists_congr fun other =>
        and_congr_right fun hother => and_congr_right fun _ => ?_
      exact ih field hfield (hu.2 field hfield) (hv.2 other hother)
    | _ => exact iff_of_false Bool.false_ne_true (by rintro ⟨⟩)

/-- Related values are proved to have a property by their common shape. -/
theorem related_induct {P : Value → Value → Prop} (null : P null null)
    (bool : ∀ b, P (bool b) (bool b)) (number : ∀ x y, N x y → P (number x) (number y))
    (string : ∀ content, P (string content) (string content))
    (array : ∀ items others, List.Forall₂ P items others → P (array items) (array others))
    (object : ∀ fields sorted others, O fields sorted →
      List.Forall₂ (Fields.Agree P) sorted others → P (object fields) (object others))
    (h : Related N O u v) : P u v := by
  refine @Related.rec N O (fun v w _ => P v w) (fun field other _ => Fields.Agree P field other)
    (fun items others _ => List.Forall₂ P items others)
    (fun fields others _ => List.Forall₂ (Fields.Agree P) fields others)
    null bool (fun h => number _ _ h) string (fun _ h => array _ _ h)
    (fun hsorted _ h => object _ _ _ hsorted h) ?_ ?_ ?_ ?_ ?_ u v h
  · exact fun key _ _ _ h => ⟨rfl, h⟩
  · exact .nil
  · exact fun _ _ h hs => .cons h hs
  · exact .nil
  · exact fun _ _ h hs => .cons h hs

theorem Related.symm (h : Related M List.Perm u v) (hN : ∀ x y, M x y → N y x) :
    Related N List.Perm v u := by
  refine related_induct (P := fun v w => Related N List.Perm w v) .null .bool
    (fun x y hxy => .number (hN x y hxy)) .string (fun _ _ h => .array h.flip) ?_ h
  intro fields sorted others hsorted h
  have hflip : List.Forall₂ (Fields.Agree (Related N List.Perm)) others sorted :=
    (h.imp fun _ _ hagree => ⟨hagree.1.symm, hagree.2⟩).flip
  exact related_object_iff.2 (exists_perm_forall₂_iff.2 ⟨sorted, hflip, hsorted.symm⟩)

theorem Related.trans (huv : Related M List.Perm u v) (hvw : Related N List.Perm v w)
    (hL : ∀ x y z, M x y → N y z → L x z) : Related L List.Perm u w := by
  refine related_induct (P := fun u v => ∀ w, Related N List.Perm v w → Related L List.Perm u w)
    ?_ ?_ ?_ ?_ ?_ ?_ huv w hvw
  · rintro _ ⟨⟩
    exact .null
  · rintro b _ ⟨⟩
    exact .bool b
  · intro x y hxy w hw
    cases hw with
    | number hyz => exact .number (hL _ _ _ hxy hyz)
  · rintro content _ ⟨⟩
    exact .string content
  · intro items others h w hw
    cases hw with
    | array hw => exact .array (forall₂_trans h hw fun _ _ _ htrans => htrans _)
  · intro fields sorted others hsorted h w hw
    cases w with
    | object thirds =>
      obtain ⟨sorted', hsorted', hw⟩ := related_object_iff.1 hw
      obtain ⟨mid, hmid, h⟩ := exists_perm_forall₂_iff.2 ⟨others, h, hsorted'⟩
      refine related_object_iff.2 ⟨mid, hsorted.trans hmid, forall₂_trans h hw ?_⟩
      exact fun _ _ _ hagree hagree' => ⟨hagree.1.trans hagree'.1, hagree.2 _ hagree'.2⟩
    | _ => cases hw

theorem Related.mono {O' : Fields Value → Fields Value → Prop} (h : Related N O u v)
    (hO : ∀ fields sorted, O fields sorted → O' fields sorted) : Related N O' u v := by
  refine related_induct (P := Related N O') .null .bool (fun _ _ => .number) .string
    (fun _ _ => .array) ?_ h
  exact fun fields sorted others hsorted h => related_object_iff.2 ⟨sorted, hO _ _ hsorted, h⟩

/-- Values are related if the keys can be brought into one order first, and the numbers then. -/
theorem related_iff_exists_reordered : Related N List.Perm u v ↔
    ∃ t, Reordered u t ∧ Related N (· = ·) t v := by
  constructor
  · refine related_induct (P := fun u v => ∃ t, Reordered u t ∧ Related N (· = ·) t v)
      ⟨_, .null, .null⟩ (fun b => ⟨_, .bool b, .bool b⟩)
      (fun x y hxy => ⟨_, .number rfl, .number hxy⟩)
      (fun content => ⟨_, .string content, .string content⟩) ?_ ?_
    · intro items others h
      obtain ⟨mid, hmid, h⟩ := exists_forall₂_of_comp h
      exact ⟨.array mid, .array hmid, .array h⟩
    · intro fields sorted others hsorted h
      have hcomp : List.Forall₂ (fun field other => ∃ mid, Fields.Agree Reordered field mid ∧
          Fields.Agree (Related N (· = ·)) mid other) sorted others := by
        refine h.imp fun field other hagree => ?_
        obtain ⟨hkey, t, ht, hto⟩ := hagree
        exact ⟨(field.1, t), ⟨rfl, ht⟩, ⟨hkey, hto⟩⟩
      obtain ⟨mid, hmid, h⟩ := exists_forall₂_of_comp hcomp
      exact ⟨.object mid, related_object_iff.2 ⟨sorted, hsorted, hmid⟩,
        related_object_iff.2 ⟨mid, rfl, h⟩⟩
  · rintro ⟨t, ht, h⟩
    exact Related.trans ht (h.mono fun _ _ => .of_eq) fun x y z hxy hyz => hxy ▸ hyz

theorem Related.distinctKeys (h : Related N List.Perm u v) (hu : u.DistinctKeys) :
    v.DistinctKeys := by
  refine related_induct (P := fun u v => u.DistinctKeys → v.DistinctKeys) id (fun _ => id)
    (fun _ _ _ _ => distinctKeys_of_no_parts rfl rfl) (fun _ => id) ?_ ?_ h hu
  · intro items others h hitems
    rw [distinctKeys_array_iff] at hitems ⊢
    intro other hother
    obtain ⟨item, hitem, hdistinct⟩ := exists_of_forall₂_of_mem (List.Forall₂.flip h) hother
    exact hdistinct (hitems item hitem)
  · intro fields sorted others hsorted h hfields
    rw [distinctKeys_object_iff] at hfields ⊢
    refine ⟨?_, fun other hother => ?_⟩
    · rw [← Fields.keys_eq_of_agree h]
      exact (hsorted.map _).nodup_iff.1 hfields.1
    · obtain ⟨field, hfield, hagree⟩ := exists_of_forall₂_of_mem (List.Forall₂.flip h) hother
      exact hagree.2 (hfields.2 field (hsorted.mem_iff.2 hfield))

/-- Equality is symmetric and transitive, and reflexive for values without NaNs.  It does not see
the order of keys: values are equal if some order of the keys makes them the same up to equal
numbers. -/
theorem equal_blind_to_key_order (hu : u.DistinctKeys) (hv : v.DistinctKeys)
    (hw : w.DistinctKeys) :
    u.equal v = v.equal u ∧
    (u.equal v = true → v.equal w = true → u.equal w = true) ∧
    (u.equal u = true ↔ u.NaNFree) ∧
    (∀ t, u.NaNFree → Reordered u t → u.equal t = true) ∧
    (u.equal v = true ↔ ∃ t, Reordered u t ∧ Alike t v) := by
  refine ⟨?_, fun huv hvw => ?_, equal_self_iff u hu, fun t hnan ht => ?_, ?_⟩
  · have hsymm {u v : Value} (h : Related Binary64.SameNumber List.Perm u v) :
        Related Binary64.SameNumber List.Perm v u := h.symm fun _ _ => Binary64.SameNumber.symm
    rw [Bool.eq_iff_iff, equal_iff_related hu hv, equal_iff_related hv hu]
    exact ⟨hsymm, hsymm⟩
  · rw [equal_iff_related hu hv] at huv
    rw [equal_iff_related hv hw] at hvw
    exact (equal_iff_related hu hw).2 (huv.trans hvw fun _ _ _ => Binary64.SameNumber.trans)
  · have hself := (equal_iff_related hu hu).1 ((equal_self_iff u hu).2 hnan)
    exact (equal_iff_related hu (ht.distinctKeys hu)).2
      (hself.trans ht fun x y z hxy hyz => hyz ▸ hxy)
  · rw [equal_iff_related hu hv]
    exact related_iff_exists_reordered

/-- Two fields in both orders, where a zero has either sign. -/
theorem equal_blind_to_key_order_signed_zeros : ∃ x y : Binary64, x ≠ y ∧
    (object [("a", number x), ("b", array [null])]).equal
      (object [("b", array [null]), ("a", number y)]) = true ∧
    (object [("b", array [null]), ("a", number y)]).equal
      (object [("a", number x), ("b", array [null])]) = true ∧
    NaNFree (object [("a", number x), ("b", array [null])]) ∧
    ∃ t, Reordered (object [("a", number x), ("b", array [null])]) t ∧
      Alike t (object [("b", array [null]), ("a", number y)]) := by
  have hnumber (x : Binary64) : (number x).DistinctKeys := distinctKeys_of_no_parts rfl rfl
  have harray : (array [null]).DistinctKeys :=
    distinctKeys_array_iff.2 (List.forall_mem_singleton.2 (distinctKeys_of_no_parts rfl rfl))
  have hu (x : Binary64) : (object [("a", number x), ("b", array [null])]).DistinctKeys :=
    distinctKeys_object_iff.2 ⟨by simp [Fields.keys], by simp [hnumber, harray]⟩
  have hv (y : Binary64) : (object [("b", array [null]), ("a", number y)]).DistinctKeys :=
    distinctKeys_object_iff.2 ⟨by simp [Fields.keys], by simp [hnumber, harray]⟩
  refine ⟨⟨false, 0, by decide⟩, ⟨true, 0, by decide⟩, by decide, ?_⟩
  obtain ⟨hsymm, htrans, hself, -, hordered⟩ := equal_blind_to_key_order
    (hu ⟨false, 0, by decide⟩) (hv ⟨true, 0, by decide⟩) (hu ⟨false, 0, by decide⟩)
  have huv : (object [("a", number ⟨false, 0, by decide⟩), ("b", array [null])]).equal
      (object [("b", array [null]), ("a", number ⟨true, 0, by decide⟩)]) = true := by decide
  exact ⟨huv, hsymm ▸ huv, hself.1 (htrans huv (hsymm ▸ huv)), hordered.1 huv⟩

end Value

end Json

end Descent
