-- The text of a JSON value tells the value. An escape tells its character, quotes tell
-- where a text ends, a number ends before what is no digit, and the first character of a
-- value tells its sort. So two values with one text, whatever follows them, are the same.
import Mathlib.Algebra.Group.Nat.Defs
import LetPoly.Json

namespace LetPoly

/-! ## Hexadecimal digits -/

namespace Text

/-- The value of a hexadecimal digit in lower case. -/
def hexValue (c : Char) : Nat := if c.toNat < 58 then c.toNat - 48 else c.toNat - 87

/-- The number that hexadecimal digits write. -/
def ofHex (digits : List Char) : Nat := digits.foldl (fun n c => n * 16 + hexValue c) 0

theorem hexValue_hexDigit : ∀ n < 16, hexValue (hexDigit n) = n := by decide

theorem length_hex (width n : Nat) : (hex width n).length = width := by
  induction width generalizing n with
  | zero => rfl
  | succ width ih => simp [hex, ih]

theorem ofHex_hex (width n : Nat) : ofHex (hex width n) = n % 16 ^ width := by
  induction width generalizing n with
  | zero => simp [hex, ofHex, Nat.mod_one]
  | succ width ih =>
    have hfront : (hex width (n / 16)).foldl (fun n c => n * 16 + hexValue c) 0 =
        n / 16 % 16 ^ width := ih (n / 16)
    rw [hex, ofHex, List.foldl_append, hfront, Nat.pow_succ', Nat.mod_mul]
    simp only [List.foldl_cons, List.foldl_nil, hexValue_hexDigit _ (Nat.mod_lt n (by decide))]
    omega

end Text

namespace Json

/-! ## Escapes -/

/-- The character that a letter after a backslash stands for. -/
def ofLetter (c : Char) : Char :=
  if c = 'n' then '\n' else if c = 'r' then '\r' else if c = 't' then '\t'
  else if c = 'b' then '\x08' else if c = 'f' then '\x0c' else c

/-- The character whose units are at the front, the first without its mark, and what comes after.
A unit that no character has is the first of two. -/
def ofUnits (text : List Char) : Char × List Char :=
  let unit := Text.ofHex (text.take 4)
  if 0xD800 ≤ unit ∧ unit < 0xDC00 then
    let second := Text.ofHex ((text.drop 6).take 4)
    (Char.ofNat (0x10000 + (unit - 0xD800) * 0x400 + (second - 0xDC00)), text.drop 10)
  else (Char.ofNat unit, text.drop 4)

/-- The character whose escape is at the front of a text, and what comes after. -/
def unescape : List Char → Option (Char × List Char)
  | [] => none
  | c :: more =>
    if c = '\\' then
      match more with
      | [] => none
      | d :: more => if d = 'u' then some (ofUnits more) else some (ofLetter d, more)
    else some (c, more)

theorem ofHex_take_hex (n : Nat) (rest : List Char) (h : n < 0x10000) :
    Text.ofHex ((Text.hex 4 n ++ rest).take 4) = n := by
  rw [List.take_left' (Text.length_hex 4 n), Text.ofHex_hex]
  exact Nat.mod_eq_of_lt h

theorem drop_hex (n : Nat) (rest : List Char) : (Text.hex 4 n ++ rest).drop 4 = rest :=
  List.drop_left' (Text.length_hex 4 n)

theorem ofUnits_one {n : Nat} (h : n < 0x10000) (hone : ¬ (0xD800 ≤ n ∧ n < 0xDC00))
    (rest : List Char) : ofUnits (Text.hex 4 n ++ rest) = (Char.ofNat n, rest) := by
  rw [ofUnits, ofHex_take_hex n rest h, drop_hex, if_neg hone]

theorem ofUnits_two {n m : Nat} (hn : n < 0x400) (hm : m < 0x400) (rest : List Char) :
    ofUnits (Text.hex 4 (0xD800 + n) ++ (escapeUnit (0xDC00 + m) ++ rest)) =
      (Char.ofNat (0x10000 + n * 0x400 + m), rest) := by
  have hsix : (Text.hex 4 (0xD800 + n) ++ (escapeUnit (0xDC00 + m) ++ rest)).drop 6 =
      Text.hex 4 (0xDC00 + m) ++ rest := by
    rw [show 6 = 4 + 2 from rfl, ← List.drop_drop, drop_hex]
    rfl
  have hten : (Text.hex 4 (0xD800 + n) ++ (escapeUnit (0xDC00 + m) ++ rest)).drop 10 = rest := by
    rw [show 10 = 6 + 4 from rfl, ← List.drop_drop, hsix, drop_hex]
  rw [ofUnits, ofHex_take_hex _ _ (by omega), hsix, ofHex_take_hex _ _ (by omega), hten,
    if_pos (by omega)]
  simp

theorem unescape_escapeUnit (unit : Nat) (rest : List Char) :
    unescape (escapeUnit unit ++ rest) = some (ofUnits (Text.hex 4 unit ++ rest)) := by
  simp [escapeUnit, unescape]

/-- The characters that are written as a backslash and a letter. -/
def lettered : List Char := ['"', '\\', '\n', '\r', '\t', '\x08', '\x0c']

theorem unescape_lettered (rest : List Char) :
    ∀ c ∈ lettered, unescape (escape c ++ rest) = some (c, rest) := by
  simp [lettered, escape, unescape, ofLetter]

theorem escape_of_not_lettered {c : Char} (h : c ∉ lettered) :
    escape c =
      if ' ' ≤ c ∧ c ≤ '~' then [c]
      else if c.toNat < 0x10000 then escapeUnit c.toNat
      else escapeUnit (0xD800 + (c.toNat - 0x10000) / 0x400) ++
        escapeUnit (0xDC00 + (c.toNat - 0x10000) % 0x400) := by
  simp only [lettered, List.mem_cons, List.not_mem_nil, or_false, not_or] at h
  simp [escape, h]

/-- An escape tells its character. -/
theorem unescape_escape (c : Char) (rest : List Char) :
    unescape (escape c ++ rest) = some (c, rest) := by
  by_cases hletter : c ∈ lettered
  · exact unescape_lettered rest c hletter
  -- no character lies where first units do, so one unit is never taken for two
  have hvalid : c.toNat < 0xD800 ∨ 0xDFFF < c.toNat ∧ c.toNat < 0x110000 := c.valid
  rw [escape_of_not_lettered hletter]
  split
  · have hback : c ≠ '\\' := by
      rintro rfl
      simp [lettered] at hletter
    simp [unescape, hback]
  split
  · rw [unescape_escapeUnit, ofUnits_one (by assumption) (by omega), Char.ofNat_toNat]
  · rw [List.append_assoc, unescape_escapeUnit, ofUnits_two (by omega) (by omega)]
    have hsum : 0x10000 + (c.toNat - 0x10000) / 0x400 * 0x400 + (c.toNat - 0x10000) % 0x400 =
        c.toNat := by omega
    rw [hsum, Char.ofNat_toNat]

/-! ## Texts in quotes -/

theorem escape_append_ne_quote (c : Char) (rest after : List Char) :
    escape c ++ rest ≠ '"' :: after := by
  intro h
  have hfirst : some (c, rest) = some ('"', after) := by
    rw [← unescape_escape, h]
    rfl
  obtain ⟨rfl, rfl⟩ := Prod.mk.inj (Option.some.inj hfirst)
  cases h

theorem escapes_inj {as bs r s : List Char}
    (h : as.flatMap escape ++ '"' :: r = bs.flatMap escape ++ '"' :: s) : as = bs ∧ r = s := by
  induction as generalizing bs with
  | nil =>
    cases bs with
    | nil => simpa using h
    | cons b bs =>
      rw [List.flatMap_cons, List.append_assoc] at h
      exact absurd h.symm (escape_append_ne_quote b _ _)
  | cons a as ih =>
    rw [List.flatMap_cons, List.append_assoc] at h
    cases bs with
    | nil => exact absurd h (escape_append_ne_quote a _ _)
    | cons b bs =>
      rw [List.flatMap_cons, List.append_assoc] at h
      have hfirst := congrArg unescape h
      rw [unescape_escape, unescape_escape, Option.some.injEq, Prod.mk.injEq] at hfirst
      obtain ⟨rfl, hrest⟩ := hfirst
      obtain ⟨rfl, rfl⟩ := ih hrest
      exact ⟨rfl, rfl⟩

/-- A text in quotes tells where it ends. -/
theorem quote_inj {a b : String} {r s : List Char} (h : quote a ++ r = quote b ++ s) :
    a = b ∧ r = s := by
  simp only [quote, List.cons_append, List.append_assoc, List.nil_append, List.cons.injEq,
    true_and] at h
  obtain ⟨hlist, rfl⟩ := escapes_inj h
  exact ⟨String.toList_injective hlist, rfl⟩

/-! ## Numbers -/

/-- What may follow a value: nothing, a comma or a new line. -/
def MayFollow (rest : List Char) : Prop := ∀ c ∈ rest.head?, c = ',' ∨ c = '\n'

/-- The characters of numbers. -/
def numeric (c : Char) : Bool := c == '-' || c.isDigit

theorem numeric_of_mem {v : Int} : ∀ c ∈ (toString v).toList, numeric c := by
  have hdigits : ∀ n : Nat, ∀ c ∈ (Nat.repr n).toList, numeric c := by
    intro n c hc
    rw [Nat.toList_repr] at hc
    simp [numeric, Nat.isDigit_of_mem_toDigits (by decide) (by decide) hc]
  intro c hc
  rw [Int.toString_eq_repr, Int.repr_eq_if] at hc
  split at hc
  · exact hdigits _ c hc
  · rw [String.toList_append] at hc
    rcases List.mem_append.1 hc with hc | hc
    · obtain rfl : c = '-' := by simpa using hc
      rfl
    · exact hdigits _ c hc

theorem toList_int_ne_nil (v : Int) : (toString v).toList ≠ [] := by
  rw [Int.toString_eq_repr, Int.repr_eq_if]
  split <;> simp

theorem takeWhile_int (v : Int) {rest : List Char} (h : MayFollow rest) :
    ((toString v).toList ++ rest).takeWhile numeric = (toString v).toList := by
  rw [List.takeWhile_append_of_pos numeric_of_mem]
  rcases rest with _ | ⟨c, rest⟩
  · simp
  · rcases h c rfl with rfl | rfl <;> simp [numeric]

theorem repr_nat_inj {m n : Nat} (h : m.repr.toList = n.repr.toList) : m = n := by
  rw [Nat.toList_repr, Nat.toList_repr] at h
  rw [← Nat.ofDigitChars_ten_toDigits (n := m), h, Nat.ofDigitChars_ten_toDigits]

theorem repr_int_inj {v w : Int} (h : v.repr.toList = w.repr.toList) : v = w := by
  -- no digit is a sign
  have hsign : ∀ m n : Nat, m.repr.toList ≠ ("-" ++ n.repr).toList := by
    intro m n heq
    have hmem : '-' ∈ m.repr.toList := by simp [heq]
    rw [Nat.toList_repr] at hmem
    cases Nat.isDigit_of_mem_toDigits (by decide) (by decide) hmem
  rw [Int.repr_eq_if, Int.repr_eq_if] at h
  split at h <;> split at h
  · have := repr_nat_inj h
    omega
  · exact absurd h (hsign _ _)
  · exact absurd h.symm (hsign _ _)
  · rw [String.toList_append, String.toList_append, List.append_right_inj] at h
    have := repr_nat_inj h
    omega

/-- A number ends before what is no digit. -/
theorem int_inj {v w : Int} {r s : List Char} (hr : MayFollow r) (hs : MayFollow s)
    (h : (toString v).toList ++ r = (toString w).toList ++ s) : v = w ∧ r = s := by
  have hfront := congrArg (List.takeWhile numeric) h
  rw [takeWhile_int v hr, takeWhile_int w hs] at hfront
  rw [hfront, List.append_right_inj] at h
  rw [Int.toString_eq_repr, Int.toString_eq_repr] at hfront
  exact ⟨repr_int_inj hfront, h⟩

/-! ## The first character of a value -/

/-- The sorts of values. -/
inductive Shape where
  | null | bool | int | text | list | object
deriving DecidableEq

/-- The sort of a value. -/
def shape : Json → Shape
  | null => .null
  | bool _ => .bool
  | int _ => .int
  | text _ => .text
  | list _ => .list
  | object _ => .object

/-- The sort of the values whose text begins with a character. -/
def Shape.ofChar (c : Char) : Shape :=
  if c = 'n' then .null else if c = 't' ∨ c = 'f' then .bool else if c = '"' then .text
  else if c = '[' then .list else if c = '{' then .object else .int

theorem Shape.ofChar_of_numeric {c : Char} (h : numeric c) : ofChar c = .int := by
  have hne : ∀ d, numeric d = false → c ≠ d := by
    rintro d hd rfl
    simp [hd] at h
  simp [ofChar, hne 'n' rfl, hne 't' rfl, hne 'f' rfl, hne '"' rfl, hne '[' rfl, hne '{' rfl]

/-- The first character of a text tells the sort of the value. -/
theorem exists_chars (j : Json) (indent : Nat) :
    ∃ c tail, j.chars indent = c :: tail ∧ Shape.ofChar c = j.shape := by
  cases j with
  | null => exact ⟨'n', _, rfl, rfl⟩
  | bool value => cases value <;> exact ⟨_, _, rfl, rfl⟩
  | int value =>
    obtain ⟨c, tail, hc⟩ := List.exists_cons_of_ne_nil (toList_int_ne_nil value)
    have hmem : c ∈ (toString value).toList := by
      rw [hc]
      exact List.mem_cons_self
    exact ⟨c, tail, by rw [chars, hc], Shape.ofChar_of_numeric (numeric_of_mem c hmem)⟩
  | text value => exact ⟨'"', _, rfl, rfl⟩
  | list items => cases items <;> exact ⟨'[', _, by rw [chars], rfl⟩
  | object fields =>
    cases fields with
    | nil => exact ⟨'{', _, by rw [chars], rfl⟩
    | cons field more => exact ⟨'{', _, by rw [chars], rfl⟩

theorem shape_eq {a b : Json} {indent : Nat} {r s : List Char}
    (h : a.chars indent ++ r = b.chars indent ++ s) : a.shape = b.shape := by
  obtain ⟨c, tail, ha, hc⟩ := exists_chars a indent
  obtain ⟨d, tail', hb, hd⟩ := exists_chars b indent
  rw [ha, hb, List.cons_append, List.cons_append, List.cons.injEq] at h
  rw [← hc, ← hd, h.1]

/-! ## Values -/

theorem follows_items (indent outer : Nat) (items : List Json) (rest : List Char) :
    MayFollow (charsItems indent items ++ (newline outer ++ rest)) := by
  cases items <;> simp [MayFollow, charsItems, newline]

theorem follows_fields (indent outer : Nat) (fields : List (String × Json)) (rest : List Char) :
    MayFollow (charsFields indent fields ++ (newline outer ++ rest)) := by
  cases fields <;> simp [MayFollow, charsFields, newline]

mutual

/-- The text of a value tells the value and where it ends. -/
theorem chars_inj (a b : Json) {indent : Nat} {r s : List Char} (hr : MayFollow r)
    (hs : MayFollow s) (h : a.chars indent ++ r = b.chars indent ++ s) : a = b ∧ r = s := by
  have hshape := shape_eq h
  cases a with
  | null =>
    cases b with
    | null => exact ⟨rfl, List.append_cancel_left h⟩
    | _ => cases hshape
  | bool value =>
    cases b with
    | bool value' => cases value <;> cases value' <;> simp_all [chars]
    | _ => cases hshape
  | int value =>
    cases b with
    | int value' =>
      rw [chars, chars] at h
      obtain ⟨rfl, rfl⟩ := int_inj hr hs h
      exact ⟨rfl, rfl⟩
    | _ => cases hshape
  | text value =>
    cases b with
    | text value' =>
      rw [chars, chars] at h
      obtain ⟨rfl, rfl⟩ := quote_inj h
      exact ⟨rfl, rfl⟩
    | _ => cases hshape
  | list items =>
    cases b with
    | list items' =>
      cases items with
      | nil =>
        cases items' with
        | nil => simpa [chars] using h
        | cons item' more' => simp [chars, newline] at h
      | cons item more =>
        cases items' with
        | nil => simp [chars, newline] at h
        | cons item' more' =>
          -- what stands after the bracket is what stands after a comma elsewhere
          have hitems : charsItems (indent + 2) (item :: more) ++ (newline indent ++ ']' :: r) =
              charsItems (indent + 2) (item' :: more') ++ (newline indent ++ ']' :: s) := by
            simpa [chars, charsItems] using h
          simpa using charsItems_inj (item :: more) (item' :: more') hitems
    | _ => cases hshape
  | object fields =>
    cases b with
    | object fields' =>
      cases fields with
      | nil =>
        cases fields' with
        | nil => simpa [chars] using h
        | cons field' more' => simp [chars, newline] at h
      | cons field more =>
        cases fields' with
        | nil => simp [chars, newline] at h
        | cons field' more' =>
          have hfields : charsFields (indent + 2) (field :: more) ++ (newline indent ++ '}' :: r) =
              charsFields (indent + 2) (field' :: more') ++ (newline indent ++ '}' :: s) := by
            simpa [chars, charsFields] using h
          simpa using charsFields_inj (field :: more) (field' :: more') hfields
    | _ => cases hshape

theorem charsItems_inj (as bs : List Json) {indent outer : Nat} {r s : List Char}
    (h : charsItems indent as ++ (newline outer ++ r) =
      charsItems indent bs ++ (newline outer ++ s)) : as = bs ∧ r = s := by
  cases as with
  | nil =>
    cases bs with
    | nil => exact ⟨rfl, List.append_cancel_left h⟩
    | cons b bs => simp [charsItems, newline] at h
  | cons a as =>
    cases bs with
    | nil => simp [charsItems, newline] at h
    | cons b bs =>
      simp only [charsItems, List.cons_append, List.append_assoc, List.cons.injEq, true_and,
        List.append_cancel_left_eq] at h
      obtain ⟨rfl, hmore⟩ := chars_inj a b (follows_items _ _ _ _) (follows_items _ _ _ _) h
      obtain ⟨rfl, hrest⟩ := charsItems_inj as bs hmore
      exact ⟨rfl, hrest⟩

theorem charsFields_inj (as bs : List (String × Json)) {indent outer : Nat} {r s : List Char}
    (h : charsFields indent as ++ (newline outer ++ r) =
      charsFields indent bs ++ (newline outer ++ s)) : as = bs ∧ r = s := by
  cases as with
  | nil =>
    cases bs with
    | nil => exact ⟨rfl, List.append_cancel_left h⟩
    | cons b bs => simp [charsFields, newline] at h
  | cons a as =>
    cases bs with
    | nil => simp [charsFields, newline] at h
    | cons b bs =>
      obtain ⟨key, value⟩ := a
      obtain ⟨key', value'⟩ := b
      simp only [charsFields, List.cons_append, List.append_assoc, List.cons.injEq, true_and,
        List.append_cancel_left_eq] at h
      obtain ⟨rfl, hvalue⟩ := quote_inj h
      simp only [List.cons.injEq, true_and, List.nil_append] at hvalue
      obtain ⟨rfl, hmore⟩ :=
        chars_inj value value' (follows_fields _ _ _ _) (follows_fields _ _ _ _) hvalue
      obtain ⟨rfl, hrest⟩ := charsFields_inj as bs hmore
      exact ⟨rfl, hrest⟩

end

/-- Values with one text are the same. -/
theorem render_injective {a b : Json} (h : a.render = b.render) : a = b := by
  have hchars : a.chars 0 ++ [] = b.chars 0 ++ [] := by
    simpa [render] using congrArg String.toList h
  exact (chars_inj a b (by simp [MayFollow]) (by simp [MayFollow]) hchars).1

end Json

end LetPoly
