import Mathlib.Algebra.Group.Nat.Defs
import Descent.Number.Decimal
import Descent.Proofs.Json.Separated
import Descent.Proofs.Json.Value

/-!
# Strict documents

The documents of RFC 8259 as syntax trees: every character of a document has its place in its tree,
white space included, and every tree is a document.  A tree has a text and a value, and the value
depends on how the strings in it are read.
-/

namespace Descent.Json.Strict

open Descent.Text

/-! ## White space -/

/-- The white space of strict documents. -/
def isSpace (c : Char) : Bool := " \t\n\r".toList.contains c

/-- A place where white space may stand. -/
structure Gap where
  text : List Char
  all_isSpace : All isSpace text

/-! ## Strings -/

/-- The characters that stand for themselves in a string. -/
def isPlain (c : Char) : Bool := 0x20 ≤ c.toNat && c != '"' && c != '\\'

/-- The escapes of a single character. -/
inductive Escape where
  | quote
  | backslash
  | slash
  | backspace
  | formFeed
  | lineFeed
  | carriageReturn
  | tab
deriving DecidableEq

/-- The character behind the backslash. -/
def Escape.letter : Escape → Char
  | quote => '"'
  | backslash => '\\'
  | slash => '/'
  | backspace => 'b'
  | formFeed => 'f'
  | lineFeed => 'n'
  | carriageReturn => 'r'
  | tab => 't'

/-- The character that the escape stands for. -/
def Escape.meaning : Escape → Char
  | quote => '"'
  | backslash => '\\'
  | slash => '/'
  | backspace => '\x08'
  | formFeed => '\x0c'
  | lineFeed => '\n'
  | carriageReturn => '\r'
  | tab => '\t'

/-- Whether the character is a hexadecimal digit. -/
def isHexDigit (c : Char) : Bool := "0123456789abcdefABCDEF".toList.contains c

/-- The value of a hexadecimal digit. -/
def hexValue (c : Char) : Nat :=
  if c.isDigit then c.toNat - '0'.toNat
  else if 'a' ≤ c then c.toNat - 'a'.toNat + 10
  else c.toNat - 'A'.toNat + 10

/-- Four hexadecimal digits. -/
structure CodeUnit where
  digits : List Char
  length_digits : digits.length = 4
  all_isHexDigit : All isHexDigit digits

/-- The number that the digits stand for. -/
def CodeUnit.code (u : CodeUnit) : Nat := u.digits.foldl (fun n c => 16 * n + hexValue c) 0

/-- What stands for a character or a half of one in a string. -/
inductive Letter where
  | plain (c : Char) (h : isPlain c = true)
  | escape (e : Escape)
  | unicode (u : CodeUnit)

/-- The text of a letter. -/
def Letter.text : Letter → List Char
  | plain c _ => [c]
  | escape e => ['\\', e.letter]
  | unicode u => '\\' :: 'u' :: u.digits

/-- The text of a letter without its backslash. -/
def Letter.bare : Letter → List Char
  | plain c _ => [c]
  | escape e => [e.letter]
  | unicode u => 'u' :: u.digits

/-- The text of letters without their backslashes. -/
def bareText (letters : List Letter) : List Char := letters.flatMap Letter.bare

/-- Whether the letter is no escape or one of a quote, a backslash or a slash. -/
def Letter.isSimple : Letter → Bool
  | plain _ _ => true
  | escape e => e = .quote ∨ e = .backslash ∨ e = .slash
  | unicode _ => false

/-- The characters that letters stand for, where two code units may be needed for one character.
Half a character on its own stands for none. -/
def decode? : List Letter → Option (List Char)
  | [] => some []
  | .plain c _ :: letters => (decode? letters).map (c :: ·)
  | .escape e :: letters => (decode? letters).map (e.meaning :: ·)
  | .unicode u :: letters =>
    if u.code < 0xD800 ∨ 0xE000 ≤ u.code then (decode? letters).map (Char.ofNat u.code :: ·)
    else
      match letters with
      | .unicode v :: letters =>
        if u.code < 0xDC00 ∧ 0xDC00 ≤ v.code ∧ v.code < 0xE000 then
          (decode? letters).map
            (Char.ofNat (0x10000 + (u.code - 0xD800) * 0x400 + (v.code - 0xDC00)) :: ·)
        else none
      | _ => none

/-! ## Numbers -/

/-- Digits, and at least one. -/
structure Digits where
  text : List Char
  all_isDigit : All Char.isDigit text
  text_ne_nil : text ≠ []

/-- An exponent. -/
structure Exponent where
  upper : Bool
  /-- The sign, if there is one: whether it is a minus. -/
  sign : Option Bool
  digits : Digits

/-- A number.  Its first digit is a zero only if that is its only digit before the point. -/
structure Number where
  negative : Bool
  whole : Digits
  head_ne_zero : whole.text ≠ ['0'] → whole.text.head? ≠ some '0'
  fraction : Option Digits
  exponent : Option Exponent

/-- The text of an optional sign. -/
def signText : Option Bool → List Char
  | none => []
  | some negative => [if negative then '-' else '+']

/-- The text of an exponent. -/
def Exponent.text (e : Exponent) : List Char :=
  (if e.upper then 'E' else 'e') :: (signText e.sign ++ e.digits.text)

/-- The value of an exponent. -/
def Exponent.value (e : Exponent) : Int :=
  if e.sign = some true then -(Decimal.digitsValue e.digits.text : Int)
  else Decimal.digitsValue e.digits.text

/-- The digits after the point. -/
def Number.fractionDigits (n : Number) : List Char := (n.fraction.map (·.text)).getD []

/-- The text of a number. -/
def Number.text (n : Number) : List Char :=
  (if n.negative then ['-'] else []) ++ (n.whole.text ++
    ((n.fraction.map fun f => '.' :: f.text).getD [] ++ (n.exponent.map (·.text)).getD []))

/-- The decimal that a number stands for. -/
def Number.decimal (n : Number) : Decimal where
  negative := n.negative
  digits := Decimal.digitsValue (n.whole.text ++ n.fractionDigits)
  exponent := (n.exponent.map (·.value)).getD 0 - n.fractionDigits.length

/-! ## Documents -/

/-- Something with white space around it. -/
structure Padded (α : Type) where
  before : Gap
  content : α
  after : Gap

/-- A key and what belongs to it, with white space around the colon. -/
structure Member (α : Type) where
  key : List Letter
  beforeColon : Gap
  afterColon : Gap
  content : α

/-- A value as it is written. -/
inductive Tree where
  | null
  | bool (b : Bool)
  | number (n : Number)
  | string (letters : List Letter)
  | emptyArray (gap : Gap)
  | array (first : Padded Tree) (others : List (Padded Tree))
  | emptyObject (gap : Gap)
  | object (first : Padded (Member Tree)) (others : List (Padded (Member Tree)))

/-- A value with white space around it. -/
abbrev Document : Type := Padded Tree

/-- The text of a string. -/
def stringText (letters : List Letter) : List Char := enquote (letters.flatMap Letter.text)

mutual

/-- The text of a value. -/
def Tree.text : Tree → List Char
  | .null => "null".toList
  | .bool b => (if b then "true" else "false").toList
  | .number n => n.text
  | .string letters => stringText letters
  | .emptyArray gap => '[' :: (gap.text ++ [']'])
  | .array ⟨before, item, after⟩ others =>
    '[' :: (before.text ++ (item.text ++ after.text) ++ itemsText others ++ [']'])
  | .emptyObject gap => '{' :: (gap.text ++ ['}'])
  | .object ⟨before, ⟨key, beforeColon, afterColon, item⟩, after⟩ others =>
    '{' :: (before.text ++ (stringText key ++ (beforeColon.text ++ (':' :: (afterColon.text ++
      item.text))) ++ after.text) ++ membersText others ++ ['}'])

/-- The texts of items, each with a comma in front of it. -/
def itemsText : List (Padded Tree) → List Char
  | [] => []
  | ⟨before, item, after⟩ :: others =>
    ',' :: (before.text ++ (item.text ++ after.text) ++ itemsText others)

/-- The texts of members, each with a comma in front of it. -/
def membersText : List (Padded (Member Tree)) → List Char
  | [] => []
  | ⟨before, ⟨key, beforeColon, afterColon, item⟩, after⟩ :: others =>
    ',' :: (before.text ++ (stringText key ++ (beforeColon.text ++ (':' :: (afterColon.text ++
      item.text))) ++ after.text) ++ membersText others)

end

mutual

/-- The value of a tree, with a way to read strings. -/
def Tree.value (read : List Letter → List Char) : Tree → Value
  | .null => .null
  | .bool b => .bool b
  | .number n => .number n.decimal.toBinary64
  | .string letters => .string (String.ofList (read letters))
  | .emptyArray _ => .array []
  | .array ⟨_, item, _⟩ others => .array (item.value read :: itemsValue read others)
  | .emptyObject _ => .object []
  | .object ⟨_, ⟨key, _, _, item⟩, _⟩ others =>
    .object (Fields.settle
      ((String.ofList (read key), item.value read) :: membersValue read others))

/-- The values of items. -/
def itemsValue (read : List Letter → List Char) : List (Padded Tree) → List Value
  | [] => []
  | ⟨_, item, _⟩ :: others => item.value read :: itemsValue read others

/-- The keys of members with their values. -/
def membersValue (read : List Letter → List Char) :
    List (Padded (Member Tree)) → List (String × Value)
  | [] => []
  | ⟨_, ⟨key, _, _, item⟩, _⟩ :: others =>
    (String.ofList (read key), item.value read) :: membersValue read others

end

/-- Trees are proved to have a property if those have it whose parts have it. -/
theorem Tree.induct {P : Tree → Prop} (null : P .null) (bool : ∀ b, P (.bool b))
    (number : ∀ n, P (.number n)) (string : ∀ letters, P (.string letters))
    (emptyArray : ∀ gap, P (.emptyArray gap))
    (array : ∀ first others, (∀ item ∈ first :: others, P item.content) → P (.array first others))
    (emptyObject : ∀ gap, P (.emptyObject gap))
    (object : ∀ first others, (∀ member ∈ first :: others, P member.content.content) →
      P (.object first others)) (t : Tree) : P t := by
  refine @Tree.rec P (fun item => P item.content) (fun items => ∀ item ∈ items, P item.content)
    (fun member => P member.content.content)
    (fun members => ∀ member ∈ members, P member.content.content) (fun member => P member.content)
    null bool number string emptyArray ?_ emptyObject ?_ ?_ ?_ ?_ ?_ ?_ ?_ ?_ t
  · exact fun first others hfirst hothers =>
      array first others (List.forall_mem_cons.2 ⟨hfirst, hothers⟩)
  · exact fun first others hfirst hothers =>
      object first others (List.forall_mem_cons.2 ⟨hfirst, hothers⟩)
  · exact fun _ _ _ h => h
  · exact List.forall_mem_nil _
  · exact fun item items hitem hitems => List.forall_mem_cons.2 ⟨hitem, hitems⟩
  · exact fun _ _ _ h => h
  · exact List.forall_mem_nil _
  · exact fun member members hmember hmembers => List.forall_mem_cons.2 ⟨hmember, hmembers⟩
  · exact fun _ _ _ _ h => h

/-! ## Containers as lists -/

/-- The text of something with white space around it. -/
def Padded.text {α : Type} (f : α → List Char) (p : Padded α) : List Char :=
  p.before.text ++ (f p.content ++ p.after.text)

/-- The text of a member. -/
def Member.text {α : Type} (f : α → List Char) (m : Member α) : List Char :=
  stringText m.key ++ (m.beforeColon.text ++ (':' :: (m.afterColon.text ++ f m.content)))

theorem itemsText_eq (items : List (Padded Tree)) :
    itemsText items = items.flatMap fun item => ',' :: item.text Tree.text := by
  induction items with
  | nil => rfl
  | cons item items ih => rw [itemsText, ih, List.flatMap_cons, Padded.text, List.cons_append]

theorem membersText_eq (members : List (Padded (Member Tree))) :
    membersText members =
      members.flatMap fun member => ',' :: member.text (Member.text Tree.text) := by
  induction members with
  | nil => rfl
  | cons member members ih =>
    rw [membersText, ih, List.flatMap_cons, Padded.text, Member.text, List.cons_append]

theorem Tree.text_array (first : Padded Tree) (others : List (Padded Tree)) :
    (array first others).text =
      '[' :: (separated (Padded.text Tree.text) (first :: others) ++ [']']) := by
  rw [Tree.text, itemsText_eq, separated_cons, Padded.text]

theorem Tree.text_object (first : Padded (Member Tree)) (others : List (Padded (Member Tree))) :
    (object first others).text =
      '{' :: (separated (Padded.text (Member.text Tree.text)) (first :: others) ++ ['}']) := by
  rw [Tree.text, membersText_eq, separated_cons, Padded.text, Member.text]

section Value

variable (read : List Letter → List Char)

/-- The key and the value of a member. -/
def Member.value (m : Member Tree) : String × Value :=
  (String.ofList (read m.key), m.content.value read)

theorem itemsValue_eq (items : List (Padded Tree)) :
    itemsValue read items = items.map fun item => item.content.value read := by
  induction items with
  | nil => rfl
  | cons item items ih => rw [itemsValue, ih, List.map_cons]

theorem membersValue_eq (members : List (Padded (Member Tree))) :
    membersValue read members = members.map fun member => member.content.value read := by
  induction members with
  | nil => rfl
  | cons member members ih => rw [membersValue, ih, List.map_cons, Member.value]

theorem Tree.value_array (first : Padded Tree) (others : List (Padded Tree)) :
    (array first others).value read =
      .array ((first :: others).map fun item => item.content.value read) := by
  rw [Tree.value, itemsValue_eq, List.map_cons]

theorem Tree.value_object (first : Padded (Member Tree)) (others : List (Padded (Member Tree))) :
    (object first others).value read =
      .object (Fields.settle ((first :: others).map fun member => member.content.value read)) := by
  rw [Tree.value, membersValue_eq, List.map_cons, Member.value]

end Value

/-! ## Parts -/

/-- The tree is the other one or stands anywhere inside it. -/
inductive Tree.Within (part : Tree) : Tree → Prop where
  | refl : Within part part
  | item {first : Padded Tree} {others : List (Padded Tree)} {item : Padded Tree} :
      item ∈ first :: others → Within part item.content → Within part (.array first others)
  | member {first : Padded (Member Tree)} {others : List (Padded (Member Tree))}
      {member : Padded (Member Tree)} : member ∈ first :: others →
      Within part member.content.content → Within part (.object first others)

/-- No empty array and no empty object in the tree has white space between its brackets. -/
def Tree.Tight (t : Tree) : Prop :=
  ∀ gap, (emptyArray gap).Within t ∨ (emptyObject gap).Within t → gap.text = []

/-- The letters are those of a string or of a key in the tree. -/
def Tree.Contains (t : Tree) (letters : List Letter) : Prop :=
  (string letters).Within t ∨
    ∃ first others, (object first others).Within t ∧
      ∃ member ∈ first :: others, member.content.key = letters

/-- Every escape in the tree is that of a quote, a backslash or a slash. -/
def Tree.HasSimpleEscapes (t : Tree) : Prop :=
  ∀ letters, t.Contains letters → ∀ letter ∈ letters, letter.isSimple = true

/-- The value is that of the tree with its escapes decoded, and every string in it can be. -/
def Tree.Denotes (t : Tree) (v : Value) : Prop :=
  (∀ letters, t.Contains letters → (decode? letters).isSome) ∧
    v = t.value fun letters => (decode? letters).getD []

end Descent.Json.Strict
