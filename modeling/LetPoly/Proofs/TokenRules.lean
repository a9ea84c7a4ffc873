-- The rules by which a piece of text is a token: names, names after a quote, rows of digits
-- and symbols. Reading takes the longest piece that some rule accepts, and the piece alone
-- tells the lexeme.
import LetPoly.Proofs.Places

namespace LetPoly

open Text (isDigit numeral maxDigits)

/-! ## Names -/

/-- A text that is read as one name. -/
def isName (text : String) : Bool :=
  match text.toList with
  | [] => false
  | c :: tail => startsName c && tail.all continuesName

/-- A name that is no reserved word. -/
def isIdentifier (text : String) : Bool := isName text && (Keyword.ofText? text).isNone

theorem exists_of_isName {text : String} (h : isName text) :
    ∃ c tail, text = String.ofList (c :: tail) ∧ startsName c ∧ ∀ d ∈ tail, continuesName d := by
  unfold isName at h
  split at h
  · cases h
  · rename_i c tail htext
    rw [Bool.and_eq_true, List.all_eq_true] at h
    exact ⟨c, tail, by rw [← htext, String.ofList_toList], h.1, h.2⟩

theorem isName_ofList {c : Char} {tail : List Char} (hc : startsName c)
    (htail : ∀ d ∈ tail, continuesName d) : isName (String.ofList (c :: tail)) := by
  unfold isName
  rw [String.toList_ofList]
  simpa [hc] using htail

theorem Keyword.isName_text (word : Keyword) : isName word.text := by
  cases word <;> decide

theorem Keyword.text_of_ofText? {name : String} {word : Keyword} (h : ofText? name = some word) :
    word.text = name := by
  simpa using List.find?_some h

/-! ## The rules -/

/-- A piece of text that some rule accepts as that of a token. -/
inductive IsToken : List Char → Prop
  | name {name : String} (h : isName name) : IsToken name.toList
  | quoted {name : String} (h : isName name) : IsToken ('\'' :: name.toList)
  | digits {digits : List Char} (hne : digits ≠ []) (h : ∀ d ∈ digits, isDigit d) : IsToken digits
  | symbol (mark : Symbol) : IsToken mark.text.toList

/-- A lexeme is written as the given piece of text. -/
inductive Lexeme.Written : Lexeme → List Char → Prop
  | identifier {name : String} (h : isIdentifier name) : Written (.identifier name) name.toList
  | typeVariable {name : String} (h : isName name) :
    Written (.typeVariable name) ('\'' :: name.toList)
  | number {digits : List Char} (hne : digits ≠ []) (h : ∀ d ∈ digits, isDigit d)
      (hfit : digits.length ≤ maxDigits) : Written (.number (Text.numeral digits)) digits
  | keyword (word : Keyword) : Written (.keyword word) word.text.toList
  | symbol (mark : Symbol) : Written (.symbol mark) mark.text.toList

theorem Lexeme.Written.isToken {l : Lexeme} {piece : List Char} (h : l.Written piece) :
    IsToken piece := by
  cases h with
  | identifier h => exact .name ((Bool.and_eq_true _ _).mp h).1
  | typeVariable h => exact .quoted h
  | number hne h _ => exact .digits hne h
  | keyword word => exact .name word.isName_text
  | symbol mark => exact .symbol mark

theorem Lexeme.written_ofName {name : String} (h : isName name) :
    (ofName name).Written name.toList := by
  unfold ofName
  split
  · rename_i word hword
    rw [← Keyword.text_of_ofText? hword]
    exact .keyword word
  · rename_i hnone
    exact .identifier (by simp [isIdentifier, h, hnone])

/-! ## The rules tell each other apart -/

/-- Letters are among the first characters, and none of these is a digit. -/
theorem isDigit_of_startsName {c : Char} (h : startsName c) : isDigit c = false := by
  have hall : ∀ n < 128, startsName (Char.ofNat n) → isDigit (Char.ofNat n) = false := by decide
  have hlt : c.toNat < 128 := by
    simp only [startsName, Bool.or_eq_true, Bool.and_eq_true, decide_eq_true_eq, beq_iff_eq,
      Char.le_def, UInt32.le_iff_toNat_le] at h
    rcases h with (⟨-, h⟩ | ⟨-, h⟩) | rfl
    · exact Nat.lt_of_le_of_lt h (by decide)
    · exact Nat.lt_of_le_of_lt h (by decide)
    · decide
  have hc : Char.ofNat c.toNat = c := Char.ofNat_toNat c
  rw [← hc] at h ⊢
  exact hall _ hlt h

theorem Symbol.exists_text (mark : Symbol) : ∃ c tail, mark.text.toList = c :: tail ∧
    startsName c = false ∧ isDigit c = false ∧ c ≠ '\'' := by
  cases mark <;> exact ⟨_, _, rfl, by decide, by decide, by decide⟩

namespace IsToken

variable {c : Char} {tail : List Char}

/-- By its first character, a token is a name, a quoted name, a number or a symbol. -/
theorem cases_head (h : IsToken (c :: tail)) :
    (startsName c ∧ ∀ d ∈ tail, continuesName d) ∨
    (c = '\'' ∧ ∃ d more, tail = d :: more ∧ startsName d ∧ ∀ e ∈ more, continuesName e) ∨
    (isDigit c ∧ ∀ d ∈ tail, isDigit d) ∨
    ∃ mark : Symbol, mark.text.toList = c :: tail := by
  generalize htext : c :: tail = text at h
  cases h with
  | name h =>
    obtain ⟨d, more, rfl, hd, hmore⟩ := exists_of_isName h
    rw [String.toList_ofList] at htext
    obtain ⟨rfl, rfl⟩ := List.cons.inj htext
    exact .inl ⟨hd, hmore⟩
  | quoted h =>
    obtain ⟨d, more, rfl, hd, hmore⟩ := exists_of_isName h
    rw [String.toList_ofList] at htext
    obtain ⟨rfl, rfl⟩ := List.cons.inj htext
    exact .inr (.inl ⟨rfl, d, more, rfl, hd, hmore⟩)
  | digits hne h =>
    subst htext
    exact .inr (.inr (.inl (List.forall_mem_cons.1 h)))
  | symbol mark => exact .inr (.inr (.inr ⟨mark, rfl⟩))

theorem ne_nil {piece : List Char} (h : IsToken piece) : piece ≠ [] := by
  cases h with
  | name h =>
    obtain ⟨c, tail, rfl, -⟩ := exists_of_isName h
    simp
  | quoted h => simp
  | digits hne h => exact hne
  | symbol mark =>
    obtain ⟨c, tail, htext, -⟩ := mark.exists_text
    simp [htext]

theorem of_startsName (h : IsToken (c :: tail)) (hc : startsName c) :
    ∀ d ∈ tail, continuesName d := by
  rcases h.cases_head with ⟨-, htail⟩ | ⟨rfl, -⟩ | ⟨hdigit, -⟩ | ⟨mark, hmark⟩
  · exact htail
  · cases hc
  · rw [isDigit_of_startsName hc] at hdigit
    cases hdigit
  · obtain ⟨d, more, htext, hname, -⟩ := mark.exists_text
    obtain ⟨rfl, -⟩ := List.cons.inj (hmark.symm.trans htext)
    rw [hc] at hname
    cases hname

theorem of_quote (h : IsToken ('\'' :: tail)) :
    ∃ d more, tail = d :: more ∧ startsName d ∧ ∀ e ∈ more, continuesName e := by
  rcases h.cases_head with ⟨hname, -⟩ | ⟨-, htail⟩ | ⟨hdigit, -⟩ | ⟨mark, hmark⟩
  · cases hname
  · exact htail
  · cases hdigit
  · obtain ⟨d, more, htext, -, -, hquote⟩ := mark.exists_text
    obtain ⟨rfl, -⟩ := List.cons.inj (hmark.symm.trans htext)
    exact absurd rfl hquote

theorem of_isDigit (h : IsToken (c :: tail)) (hc : isDigit c) : ∀ d ∈ tail, isDigit d := by
  rcases h.cases_head with ⟨hname, -⟩ | ⟨rfl, -⟩ | ⟨-, htail⟩ | ⟨mark, hmark⟩
  · rw [isDigit_of_startsName hname] at hc
    cases hc
  · cases hc
  · exact htail
  · obtain ⟨d, more, htext, -, hdigit, -⟩ := mark.exists_text
    obtain ⟨rfl, -⟩ := List.cons.inj (hmark.symm.trans htext)
    rw [hc] at hdigit
    cases hdigit

/-- What is neither a name nor a number, with or without a quote, can only be a symbol. -/
theorem exists_symbol (h : IsToken (c :: tail)) (hname : ¬ startsName c)
    (hquote : c = '\'' → ∀ d ∈ tail.head?, ¬ startsName d) (hdigit : ¬ isDigit c) :
    ∃ mark : Symbol, mark.text.toList = c :: tail := by
  rcases h.cases_head with ⟨hc, -⟩ | ⟨rfl, d, more, rfl, hd, -⟩ | ⟨hc, -⟩ | hmark
  · exact absurd hc hname
  · exact absurd hd (hquote rfl d rfl)
  · exact absurd hc hdigit
  · exact hmark

end IsToken

/-! ## What ends a token -/

/-- A blank, a newline, or the mark with which a comment starts. -/
def isBreak (c : Char) : Bool := Token.isSpace c || c == '\n' || c == '#'

theorem isBreak_of {p : Char → Bool} {c : Char}
    (h : [' ', '\t', '\r', '\n', '#'].any p = false) (hc : p c) : isBreak c = false := by
  by_contra hbreak
  rw [Bool.not_eq_false] at hbreak
  have hmem : c ∈ [' ', '\t', '\r', '\n', '#'] := by
    simpa [isBreak, Token.isSpace, or_assoc] using hbreak
  exact List.any_eq_false.1 h c hmem hc

/-- No token goes over a break. -/
theorem IsToken.isBreak {piece : List Char} (h : IsToken piece) :
    ∀ c ∈ piece, isBreak c = false := by
  have hname : ∀ {name}, isName name → ∀ c ∈ name.toList, LetPoly.isBreak c = false := by
    intro name h
    obtain ⟨c, tail, rfl, hc, htail⟩ := exists_of_isName h
    rw [String.toList_ofList]
    exact List.forall_mem_cons.2 ⟨isBreak_of rfl hc, fun d hd => isBreak_of rfl (htail d hd)⟩
  cases h with
  | name h => exact hname h
  | quoted h => exact List.forall_mem_cons.2 ⟨rfl, hname h⟩
  | digits hne h => exact fun d hd => isBreak_of rfl (h d hd)
  | symbol mark =>
    have hmark : mark.text.toList.any LetPoly.isBreak = false := by cases mark <;> rfl
    simpa using hmark

/-! ## Symbols -/

namespace Symbol

/-- The symbol that is read is written at the start of the text. -/
theorem text_of_first? {text : List Char} {mark : Symbol} {length : Nat}
    (h : first? text = some (mark, length)) :
    mark.text.toList <+: text ∧ mark.text.toList.length = length := by
  unfold first? at h
  split at h <;> cases h <;> exact ⟨⟨_, rfl⟩, rfl⟩

/-- A character that is a symbol, and starts a longer one with another. -/
theorem first?_of_short {c d : Char} (short long : Symbol) (rest : List Char)
    (hshort : ∀ rest, (∀ tail, rest ≠ d :: tail) → first? (c :: rest) = some (short, 1))
    (hlong : ∀ rest, first? (c :: d :: rest) = some (long, 2)) :
    ∃ mark length, first? (c :: rest) = some (mark, length) ∧ 1 ≤ length := by
  by_cases h : ∃ tail, rest = d :: tail
  · obtain ⟨tail, rfl⟩ := h
    exact ⟨long, 2, hlong tail, by decide⟩
  · exact ⟨short, 1, hshort rest (by simpa using h), le_rfl⟩

/-- If a symbol is written at the start of a text, one is read that is at least as long. -/
theorem first?_of_text {mark : Symbol} {text : List Char} (h : mark.text.toList <+: text) :
    ∃ mark' length, first? text = some (mark', length) ∧ mark.text.toList.length ≤ length := by
  obtain ⟨rest, rfl⟩ := h
  cases mark with
  | equals =>
    refine first?_of_short (c := '=') (d := '=') equals equalEqual rest ?_ fun _ => rfl
    intro rest h
    rw [first?]
    exact h
  | less =>
    refine first?_of_short (c := '<') (d := '=') less lessEqual rest ?_ fun _ => rfl
    intro rest h
    rw [first?]
    exact h
  | greater =>
    refine first?_of_short (c := '>') (d := '=') greater greaterEqual rest ?_ fun _ => rfl
    intro rest h
    rw [first?]
    exact h
  | minus =>
    refine first?_of_short (c := '-') (d := '>') minus arrow rest ?_ fun _ => rfl
    intro rest h
    rw [first?]
    exact h
  | _ => exact ⟨_, _, rfl, by decide⟩

end Symbol

/-! ## The longest piece -/

/-- The longest piece at the start of a text that some rule accepts. -/
structure Longest (text piece : List Char) : Prop where
  starts : piece <+: text
  isToken : IsToken piece
  most : ∀ other, other <+: text → IsToken other → other.length ≤ piece.length

theorem Longest.unique {text piece piece' : List Char} (h : Longest text piece)
    (h' : Longest text piece') : piece = piece' := by
  have hle : piece.length ≤ piece'.length := h'.most piece h.starts h.isToken
  have hge : piece'.length ≤ piece.length := h.most piece' h'.starts h'.isToken
  exact (List.prefix_of_prefix_length_le h.starts h'.starts hle).eq_of_length (by omega)

theorem longest_cons {c : Char} {rest : List Char} {k : Nat} (hk : k ≤ rest.length)
    (htoken : IsToken (c :: rest.take k))
    (hmost : ∀ tail, tail <+: rest → IsToken (c :: tail) → tail.length ≤ k) :
    Longest (c :: rest) (c :: rest.take k) := by
  refine ⟨List.cons_prefix_cons.2 ⟨rfl, List.take_prefix k rest⟩, htoken, fun other h hother => ?_⟩
  rcases List.prefix_cons_iff.1 h with rfl | ⟨tail, rfl, htail⟩
  · exact absurd rfl hother.ne_nil
  · have := hmost tail htail hother
    simp only [List.length_cons, List.length_take]
    omega

/-- Of the characters that a run accepts, none is left at its end. -/
theorem length_le_run {p : Char → Bool} {piece rest : List Char} (h : piece <+: rest)
    (hp : ∀ d ∈ piece, p d) : piece.length ≤ (rest.takeWhile p).length := by
  obtain ⟨tail, rfl⟩ := h
  rw [List.takeWhile_append_of_pos hp, List.length_append]
  exact Nat.le_add_right _ _

/-- A run of digits is the longest piece at its start. -/
theorem longest_digits {c : Char} (hc : isDigit c) (rest : List Char) :
    Longest (c :: rest) (c :: rest.take (rest.takeWhile isDigit).length) := by
  have hdigits : ∀ d ∈ c :: rest.takeWhile isDigit, isDigit d :=
    List.forall_mem_cons.2 ⟨hc, fun _ => List.mem_takeWhile_imp⟩
  refine longest_cons (List.takeWhile_prefix _).length_le ?_ fun tail htail h => ?_
  · rw [take_run]
    exact .digits (by simp) hdigits
  · exact length_le_run htail (h.of_isDigit hc)

namespace Lexeme

variable {c : Char} {rest : List Char}

/-- The lexeme that is read is that of the longest piece. -/
theorem first_ok {l : Lexeme} {length : Nat} (h : first c rest = .ok (l, length)) :
    Longest (c :: rest) (c :: rest.take (length - 1)) ∧
      l.Written (c :: rest.take (length - 1)) := by
  have hreads := reads_first c rest
  rw [h] at hreads
  cases hreads with
  | name hname =>
    have htext : isName (String.ofList (c :: rest.takeWhile continuesName)) :=
      isName_ofList hname fun _ => List.mem_takeWhile_imp
    have hwritten := written_ofName htext
    rw [String.toList_ofList] at hwritten
    rw [Nat.add_sub_cancel]
    refine ⟨longest_cons (List.takeWhile_prefix _).length_le ?_ fun tail htail ht => ?_, ?_⟩
    · rw [take_run]
      exact hwritten.isToken
    · exact length_le_run htail (ht.of_startsName hname)
    · rwa [take_run]
  | @quoted d more hname =>
    have htext : isName (String.ofList (d :: more.takeWhile continuesName)) :=
      isName_ofList hname fun _ => List.mem_takeWhile_imp
    have hwritten := Written.typeVariable htext
    rw [String.toList_ofList] at hwritten
    have htake : (d :: more).take ((more.takeWhile continuesName).length + 2 - 1) =
        d :: more.takeWhile continuesName := by
      rw [Nat.add_sub_assoc (by decide), List.take_succ_cons, take_run]
    refine ⟨longest_cons ?_ ?_ fun tail htail ht => ?_, ?_⟩
    · simpa using (List.takeWhile_prefix _).length_le
    · rw [htake]
      exact hwritten.isToken
    · obtain ⟨e, more', rfl, -, hmore⟩ := ht.of_quote
      have := length_le_run (List.cons_prefix_cons.1 htail).2 hmore
      simp only [List.length_cons]
      omega
    · rwa [htake]
  | number hdigit hfit =>
    rw [List.length_cons, Nat.add_sub_cancel]
    refine ⟨longest_digits hdigit rest, ?_⟩
    rw [take_run]
    exact .number (by simp) (List.forall_mem_cons.2 ⟨hdigit, fun _ => List.mem_takeWhile_imp⟩) hfit
  | @symbol _ _ mark length hsymbol =>
    obtain ⟨hpos, hle⟩ := Symbol.length_first? hsymbol
    obtain ⟨htext, hlength⟩ := Symbol.text_of_first? hsymbol
    have hpiece : c :: rest.take (length - 1) = mark.text.toList := by
      rw [List.prefix_iff_eq_take.1 htext, hlength, ← List.take_succ_cons, Nat.sub_add_cancel hpos]
    obtain ⟨d, more, hmark, hname, hdigit, hquote⟩ := mark.exists_text
    obtain ⟨rfl, -⟩ := List.cons.inj (hpiece.trans hmark)
    refine ⟨longest_cons hle ?_ fun tail htail ht => ?_, ?_⟩
    · rw [hpiece]
      exact .symbol mark
    · obtain ⟨mark', hmark'⟩ := ht.exists_symbol (by simp [hname]) (fun h => absurd h hquote)
        (by simp [hdigit])
      have hstarts : mark'.text.toList <+: c :: rest := by
        rw [hmark']
        exact List.cons_prefix_cons.2 ⟨rfl, htail⟩
      obtain ⟨_, _, hread, hmost⟩ := Symbol.first?_of_text hstarts
      cases hsymbol.symm.trans hread
      rw [hmark', List.length_cons] at hmost
      omega
    · rw [hpiece]
      exact .symbol mark

/-- Where a character is illegal, no rule accepts a piece. -/
theorem first_illegal {d : Char} (h : first c rest = .error (.illegal d)) :
    d = c ∧ ∀ piece, piece <+: c :: rest → ¬ IsToken piece := by
  have hreads := reads_first c rest
  rw [h] at hreads
  cases hreads with
  | nothing hname hquote hdigit hsymbol =>
    refine ⟨rfl, fun piece hpiece htoken => ?_⟩
    rcases List.prefix_cons_iff.1 hpiece with rfl | ⟨tail, rfl, htail⟩
    · exact htoken.ne_nil rfl
    · have hquote' : c = '\'' → ∀ d ∈ tail.head?, ¬ startsName d := by
        intro hc d hd
        obtain ⟨more, rfl⟩ := List.head?_eq_some_iff.1 hd
        obtain ⟨rest', rfl⟩ := htail
        exact hquote hc d rfl
      obtain ⟨mark, hmark⟩ := htoken.exists_symbol hname hquote' hdigit
      rw [← hmark] at hpiece
      obtain ⟨_, _, hread, -⟩ := Symbol.first?_of_text hpiece
      cases hsymbol.symm.trans hread

/-- Where a number is too long, its digits are the longest piece. -/
theorem first_tooLong {count : Nat} (h : first c rest = .error (.tooManyDigits count)) :
    ∃ digits, Longest (c :: rest) digits ∧ (∀ d ∈ digits, isDigit d) ∧ digits.length = count ∧
      maxDigits < count := by
  have hreads := reads_first c rest
  rw [h] at hreads
  cases hreads with
  | tooLong hdigit hlong =>
    refine ⟨_, longest_digits hdigit rest, ?_, ?_, hlong⟩ <;> rw [take_run]
    exact List.forall_mem_cons.2 ⟨hdigit, fun _ => List.mem_takeWhile_imp⟩

/-! ## What a piece stands for -/

theorem first_digits (hc : isDigit c) : first c rest =
    if (c :: rest.takeWhile isDigit).length ≤ maxDigits then
      .ok (number (Text.numeral (c :: rest.takeWhile isDigit)),
        (c :: rest.takeWhile isDigit).length)
    else
      .error (.tooManyDigits (c :: rest.takeWhile isDigit).length) := by
  have hname : ¬ startsName c := by
    intro hname
    rw [isDigit_of_startsName hname] at hc
    cases hc
  have hquote : ¬ c == '\'' := by
    intro hquote
    rw [beq_iff_eq.1 hquote] at hc
    cases hc
  unfold first
  rw [if_neg hname, if_neg hquote, if_pos hc]

/-- What is written is read as itself. -/
theorem first_of_written {l : Lexeme} (h : l.Written (c :: rest)) :
    first c rest = .ok (l, rest.length + 1) := by
  generalize hpiece : c :: rest = piece at h
  cases h with
  | identifier h =>
    obtain ⟨hname, hword⟩ := (Bool.and_eq_true _ _).mp h
    obtain ⟨d, tail, rfl, hd, htail⟩ := exists_of_isName hname
    rw [String.toList_ofList] at hpiece
    cases hpiece
    simp only [first, if_pos hd, List.takeWhile_eq_self_iff.2 htail, ofName,
      Option.isNone_iff_eq_none.1 hword]
  | typeVariable h =>
    obtain ⟨d, tail, rfl, hd, htail⟩ := exists_of_isName h
    rw [String.toList_ofList] at hpiece
    cases hpiece
    unfold first
    rw [if_neg (by decide), if_pos (by decide)]
    simp only [if_pos hd, List.takeWhile_eq_self_iff.2 htail, List.length_cons]
  | number hne h hfit =>
    subst hpiece
    obtain ⟨hc, hrest⟩ := List.forall_mem_cons.1 h
    rw [first_digits hc, List.takeWhile_eq_self_iff.2 hrest, if_pos hfit, List.length_cons]
  | keyword word => cases word <;> (cases hpiece; rfl)
  | symbol mark => cases mark <;> (cases hpiece; rfl)

theorem Written.unique {l l' : Lexeme} {piece : List Char} (h : l.Written piece)
    (h' : l'.Written piece) : l = l' := by
  obtain ⟨c, rest, rfl⟩ := List.exists_cons_of_ne_nil h.isToken.ne_nil
  cases (first_of_written h).symm.trans (first_of_written h')
  rfl

/-- A number that is written has not too many digits. -/
theorem Written.digits_fit {l : Lexeme} {piece : List Char} (h : l.Written piece)
    (hdigits : ∀ d ∈ piece, isDigit d) : piece.length ≤ maxDigits := by
  obtain ⟨c, rest, rfl⟩ := List.exists_cons_of_ne_nil h.isToken.ne_nil
  obtain ⟨hc, hrest⟩ := List.forall_mem_cons.1 hdigits
  have hread := first_of_written h
  rw [first_digits hc, List.takeWhile_eq_self_iff.2 hrest] at hread
  by_contra hlong
  rw [if_neg hlong] at hread
  cases hread

/-- The longest piece is read as what it stands for. -/
theorem first_of_longest {l : Lexeme} {piece : List Char} (h : Longest (c :: rest) piece)
    (hl : l.Written piece) : first c rest = .ok (l, piece.length) := by
  rcases hfirst : first c rest with (d | count) | ⟨l', length⟩
  · exact absurd h.isToken ((first_illegal hfirst).2 piece h.starts)
  · obtain ⟨digits, hlongest, hdigits, rfl, hmax⟩ := first_tooLong hfirst
    obtain rfl := h.unique hlongest
    exact absurd (hl.digits_fit hdigits) (Nat.not_le_of_lt hmax)
  · obtain ⟨hlongest, hwritten⟩ := first_ok hfirst
    obtain rfl := h.unique hlongest
    obtain rfl := hl.unique hwritten
    obtain ⟨hpos, hle, -⟩ := first_cut hfirst
    rw [List.length_cons, List.length_take, Nat.min_eq_left hle, Nat.sub_add_cancel hpos]

end Lexeme

end LetPoly
