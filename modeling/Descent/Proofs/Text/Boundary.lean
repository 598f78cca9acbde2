import Descent.Text.Bytes

/-!
# Offsets into the bytes of a string

An offset may lie inside a character.  Here are the three things that are done with offsets of a
string: to ask whether one is a character boundary, to round one up to the next boundary, and to
take the bytes between two of them, which only works at boundaries.  What they give is said in terms
of the characters of the string.
-/

namespace Descent.Text

/-! ## Boundaries -/

/-- Whether the offset is a character boundary: the end of the string, or before the end and in
front of a byte that starts a character. -/
def isBoundary (s : String) (i : Nat) : Bool := String.Pos.Raw.isValid s ⟨i⟩

theorem isBoundary_iff {s : String} {i : Nat} :
    isBoundary s i = true ↔ String.Pos.Raw.IsValid s ⟨i⟩ :=
  String.Pos.Raw.isValid_eq_true_iff

@[simp] theorem utf8ByteSize_ofList (cs : List Char) :
    (String.ofList cs).utf8ByteSize = byteLength cs := by
  induction cs with
  | nil => simp
  | cons c cs ih => simp [String.ofList_cons, ih]

theorem byteLength_toList (s : String) : byteLength s.toList = s.utf8ByteSize := by
  rw [← utf8ByteSize_ofList, String.ofList_toList]

/-- The boundaries of a string are the lengths of its initial segments. -/
theorem isBoundary_ofList_iff {cs : List Char} {i : Nat} :
    isBoundary (String.ofList cs) i = true ↔ ∃ u r, cs = u ++ r ∧ i = byteLength u := by
  rw [isBoundary_iff, String.Pos.Raw.isValid_ofList]
  constructor
  · rintro ⟨k, hk⟩
    exact ⟨cs.take k, cs.drop k, (cs.take_append_drop k).symm, by simpa using hk⟩
  · rintro ⟨u, r, rfl, rfl⟩
    exact ⟨u.length, by simp⟩

theorem isBoundary_byteLength (u r : List Char) :
    isBoundary (String.ofList (u ++ r)) (byteLength u) = true :=
  isBoundary_ofList_iff.2 ⟨u, r, rfl, rfl⟩

theorem isBoundary_utf8ByteSize (s : String) : isBoundary s s.utf8ByteSize = true := by
  have hend := isBoundary_byteLength s.toList []
  rwa [List.append_nil, String.ofList_toList, byteLength_toList] at hend

/-- Inside a character there is no boundary. -/
theorem not_isBoundary {u r : List Char} {c : Char} {i : Nat} (hlow : byteLength u < i)
    (hhigh : i < byteLength u + c.utf8Size) :
    isBoundary (String.ofList (u ++ c :: r)) i = false := by
  rw [Bool.eq_false_iff]
  intro h
  obtain ⟨v, s, heq, rfl⟩ := isBoundary_ofList_iff.1 h
  rcases List.append_eq_append_iff.1 heq with ⟨w, rfl, hw⟩ | ⟨w, rfl, hw⟩
  · cases w with
    | nil => simp at hlow
    | cons d w =>
      cases hw
      rw [byteLength_append, byteLength_cons] at hhigh
      omega
  · rw [byteLength_append] at hlow
    omega

/-! ## Rounding up -/

/-- The first boundary at or behind the offset. -/
def roundUp (s : String) (i : Nat) : Nat :=
  if isBoundary s i then i
  else if i < s.utf8ByteSize then roundUp s (i + 1)
  else i
termination_by s.utf8ByteSize - i

theorem roundUp_of_isBoundary {s : String} {i : Nat} (h : isBoundary s i = true) :
    roundUp s i = i := by
  rw [roundUp, if_pos h]

/-- Inside a character rounding up leads behind it. -/
theorem roundUp_inside {u r : List Char} {c : Char} {i : Nat} (hlow : byteLength u < i)
    (hhigh : i ≤ byteLength u + c.utf8Size) :
    roundUp (String.ofList (u ++ c :: r)) i = byteLength u + c.utf8Size := by
  induction hn : byteLength u + c.utf8Size - i generalizing i with
  | zero =>
    obtain rfl : i = byteLength u + c.utf8Size := by omega
    have h := isBoundary_byteLength (u ++ [c]) r
    rw [List.append_assoc] at h
    exact roundUp_of_isBoundary (by simpa using h)
  | succ n ih =>
    have hinside := not_isBoundary (r := r) hlow (show i < byteLength u + c.utf8Size by omega)
    have hsize : i < (String.ofList (u ++ c :: r)).utf8ByteSize := by
      simp
      omega
    rw [roundUp, hinside, if_neg (by decide), if_pos hsize]
    exact ih (by omega) (by omega) (by omega)

/-- Rounding up goes to where a cut at the offset goes. -/
theorem roundUp_eq (u t : List Char) {k : Nat} (hk : k ≤ byteLength t) :
    roundUp (String.ofList (u ++ t)) (byteLength u + k) =
      byteLength u + byteLength (splitBytes k t).1 := by
  fun_induction splitBytes k t generalizing u with
  | case1 t => exact roundUp_of_isBoundary (isBoundary_byteLength u t)
  | case2 n => simp at hk
  | case3 n c t parts ih =>
    rw [byteLength_cons] at hk ⊢
    by_cases hinside : n + 1 ≤ c.utf8Size
    · have hparts : parts.1 = [] := by
        simp [parts, Nat.sub_eq_zero_of_le hinside]
      rw [hparts, byteLength_nil, Nat.add_zero]
      exact roundUp_inside (by omega) (by omega)
    · have h := ih (u ++ [c]) (by omega)
      rw [List.append_assoc, byteLength_append] at h
      simp only [byteLength_cons, byteLength_nil, List.singleton_append, Nat.add_zero] at h
      have hsplit : byteLength u + (n + 1) = byteLength u + c.utf8Size + (n + 1 - c.utf8Size) := by
        omega
      rw [hsplit, h, Nat.add_assoc]

/-- A cut is the same for every count from the length of the text on. -/
theorem splitBytes_min (k : Nat) (t : List Char) :
    splitBytes (min k (byteLength t)) t = splitBytes k t := by
  rcases Nat.le_total k (byteLength t) with h | h
  · rw [Nat.min_eq_left h]
  · rw [Nat.min_eq_right h, splitBytes_byteLength]
    fun_induction splitBytes k t with
    | case1 t =>
      obtain rfl : t = [] := byteLength_eq_zero_iff.1 (by omega)
      rfl
    | case2 n => rfl
    | case3 n c t parts ih =>
      rw [byteLength_cons] at h
      simp [parts, ← ih (by omega)]

/-- A cut takes no more than an initial segment exactly if that has as many bytes as the cut asks
for, or all there are. -/
theorem byteLength_splitBytes_le_iff (n : Nat) (w r : List Char) :
    byteLength (splitBytes n (w ++ r)).1 ≤ byteLength w ↔
      min n (byteLength (w ++ r)) ≤ byteLength w := by
  induction w generalizing n with
  | nil =>
    cases n with
    | zero => simp
    | succ n =>
      cases r with
      | nil => simp
      | cons c r =>
        have hc := c.utf8Size_pos
        simp only [splitBytes, List.nil_append, byteLength_cons, byteLength_nil]
        omega
  | cons c w ih =>
    cases n with
    | zero => simp
    | succ n =>
      have hbehind := ih (n + 1 - c.utf8Size)
      simp only [splitBytes, List.cons_append, byteLength_cons]
      omega

/-! ## Slices -/

/-- The bytes from one offset to another as a string.  There is nothing if an offset is out of
range, if it is not a boundary, or if they are not in order. -/
def slice? (s : String) (i j : Nat) : Option String :=
  if h : i ≤ j ∧ isBoundary s i = true ∧ isBoundary s j = true then
    some (String.extract ⟨⟨i⟩, isBoundary_iff.1 h.2.1⟩ ⟨⟨j⟩, isBoundary_iff.1 h.2.2⟩)
  else none

theorem extract_toByteArray (u w r : List Char) :
    (String.ofList (u ++ (w ++ r))).toByteArray.extract (byteLength u) (byteLength (u ++ w)) =
      (String.ofList w).toByteArray := by
  have hsize (cs : List Char) : byteLength cs = (String.ofList cs).toByteArray.size := by
    rw [String.size_toByteArray, utf8ByteSize_ofList]
  rw [String.ofList_append, String.ofList_append, String.toByteArray_append,
    String.toByteArray_append, byteLength_append]
  exact (ByteArray.extract_append_size_add' (i := 0) (hsize u)).trans
    (ByteArray.extract_append_eq_left (hsize w))

/-- The slice between the ends of two initial segments is what the second one has more. -/
theorem slice?_ofList (u w r : List Char) :
    slice? (String.ofList (u ++ (w ++ r))) (byteLength u) (byteLength (u ++ w)) =
      some (String.ofList w) := by
  have hi := isBoundary_byteLength u (w ++ r)
  have hj := isBoundary_byteLength (u ++ w) r
  rw [List.append_assoc] at hj
  rw [slice?, dif_pos ⟨by simp, hi, hj⟩]
  congr 1
  rw [← String.toByteArray_inj, String.toByteArray_extract]
  exact extract_toByteArray u w r

end Descent.Text
