/-!
# Characters and the bytes that encode them

Lengths and offsets count the bytes of the UTF-8 encoding, while texts are read character by
character.  `byteLength` measures a list of characters, `splitBytes` cuts one at a byte count, and
a cut never falls inside a character.
-/

namespace Descent.Text

/-- The number of bytes in the UTF-8 encoding of the characters. -/
def byteLength : List Char → Nat
  | [] => 0
  | c :: cs => c.utf8Size + byteLength cs

/-- Cuts off the shortest initial segment of at least `n` bytes, or everything if there are fewer
bytes than that. -/
def splitBytes : Nat → List Char → List Char × List Char
  | 0, cs => ([], cs)
  | _ + 1, [] => ([], [])
  | n + 1, c :: cs =>
    let parts := splitBytes (n + 1 - c.utf8Size) cs
    (c :: parts.1, parts.2)

/-! ## Lengths -/

@[simp] theorem byteLength_nil : byteLength [] = 0 := rfl

@[simp] theorem byteLength_cons (c : Char) (cs : List Char) :
    byteLength (c :: cs) = c.utf8Size + byteLength cs := rfl

@[simp] theorem byteLength_append (as bs : List Char) :
    byteLength (as ++ bs) = byteLength as + byteLength bs := by
  induction as with
  | nil => simp
  | cons a as ih => simp [ih, Nat.add_assoc]

@[simp] theorem byteLength_reverse (cs : List Char) : byteLength cs.reverse = byteLength cs := by
  induction cs with
  | nil => rfl
  | cons c cs ih => simp [ih, Nat.add_comm]

@[simp] theorem byteLength_eq_zero_iff {cs : List Char} : byteLength cs = 0 ↔ cs = [] := by
  cases cs with
  | nil => simp
  | cons c cs => have := c.utf8Size_pos; simp; omega

theorem length_le_byteLength (cs : List Char) : cs.length ≤ byteLength cs := by
  induction cs with
  | nil => simp
  | cons c cs ih => have := c.utf8Size_pos; simp; omega

/-! ## Cuts -/

@[simp] theorem splitBytes_zero (cs : List Char) : splitBytes 0 cs = ([], cs) := by
  cases cs <;> rfl

@[simp] theorem splitBytes_nil (n : Nat) : splitBytes n [] = ([], []) := by
  cases n <;> rfl

/-- A cut loses nothing. -/
theorem splitBytes_append (n : Nat) (cs : List Char) :
    (splitBytes n cs).1 ++ (splitBytes n cs).2 = cs := by
  fun_induction splitBytes n cs with
  | case1 => rfl
  | case2 => rfl
  | case3 n c cs parts ih => simpa [parts] using ih

/-- A cut at the length of an initial segment gives back that segment. -/
@[simp] theorem splitBytes_byteLength_append (as bs : List Char) :
    splitBytes (byteLength as) (as ++ bs) = (as, bs) := by
  induction as with
  | nil => simp
  | cons a as ih =>
    obtain ⟨n, hn⟩ : ∃ n, byteLength (a :: as) = n + 1 :=
      Nat.exists_eq_add_one.2 (by have := a.utf8Size_pos; simp; omega)
    have hs : n + 1 - a.utf8Size = byteLength as := by simp at hn; omega
    rw [hn, List.cons_append, splitBytes, hs, ih]

@[simp] theorem splitBytes_byteLength (cs : List Char) :
    splitBytes (byteLength cs) cs = (cs, []) := by
  simpa using splitBytes_byteLength_append cs []

end Descent.Text
