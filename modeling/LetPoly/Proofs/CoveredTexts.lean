-- What becomes of each character of a text. Reading goes over the text in steps, each over a
-- token or over something that is skipped, until the end or a place that lets no step. So the
-- tokens stand in order and apart, and what stands outside them is blank or in a comment.
import Mathlib.Logic.Relation
import LetPoly.Proofs.TokenRules

namespace LetPoly

open Text (isDigit maxDigits)

/-! ## Rows -/

/-- The part of its row that stands before an offset of a text. -/
def rowBefore (text : List Char) (k : Nat) : List Char := (text.take k).rtakeWhile (· != '\n')

theorem bne_newline_of_not_mem {row : List Char} (h : '\n' ∉ row) :
    ∀ c ∈ row, (c != '\n') = true := by
  intro c hc
  rw [bne_iff_ne]
  rintro rfl
  exact h hc

theorem rtakeWhile_append_of_pos {p : Char → Bool} {front back : List Char}
    (h : ∀ c ∈ back, p c) : (front ++ back).rtakeWhile p = front.rtakeWhile p ++ back := by
  unfold List.rtakeWhile
  rw [List.reverse_append, List.takeWhile_append_of_pos (by simpa using h), List.reverse_append,
    List.reverse_reverse]

section

variable {text piece rest : List Char} {k : Nat}

theorem take_of_drop (h : text.drop k = piece ++ rest) :
    text.take (k + piece.length) = text.take k ++ piece := by
  rw [List.take_add, h, List.take_left]

theorem drop_of_drop (h : text.drop k = piece ++ rest) : text.drop (k + piece.length) = rest := by
  rw [← List.drop_drop, h, List.drop_left]

theorem add_length_le (h : text.drop k = piece ++ rest) (hk : k ≤ text.length) :
    k + piece.length ≤ text.length := by
  have hlength := congrArg List.length h
  rw [List.length_drop, List.length_append] at hlength
  omega

/-- Within a row, the part before grows with what is passed over. -/
theorem rowBefore_add (h : text.drop k = piece ++ rest) (hpiece : '\n' ∉ piece) :
    rowBefore text (k + piece.length) = rowBefore text k ++ piece := by
  unfold rowBefore
  rw [take_of_drop h]
  exact rtakeWhile_append_of_pos (bne_newline_of_not_mem hpiece)

theorem rowBefore_newline (h : text.drop k = '\n' :: rest) : rowBefore text (k + 1) = [] := by
  have hsplit : text.drop k = ['\n'] ++ rest := h
  change (text.take (k + ['\n'].length)).rtakeWhile _ = []
  rw [take_of_drop hsplit]
  exact List.rtakeWhile_concat_neg _ _ _ (by decide)

end

namespace Place.Marks

variable {place : Place} {text rest : List Char}

theorem take_offset (h : place.Marks text rest) : ∃ earlier row,
    text.take place.offset = List.flatMap (· ++ ['\n']) earlier ++ row ∧
      (∀ r ∈ earlier, '\n' ∉ r) ∧ '\n' ∉ row ∧ place.line = earlier.length + 1 ∧
      place.column = row.length + 1 := by
  obtain ⟨earlier, row, htext, hearlier, hrow, hline, hcolumn, hoffset⟩ := h
  refine ⟨earlier, row, ?_, hearlier, hrow, hline, hcolumn⟩
  rw [← List.append_assoc] at htext
  rw [htext] at hoffset ⊢
  rw [List.length_append] at hoffset
  exact List.take_left' (by omega)

/-- The number of a line is one more than the number of newlines before it. -/
theorem line_eq (h : place.Marks text rest) :
    place.line = 1 + (text.take place.offset).count '\n' := by
  obtain ⟨earlier, row, htake, hearlier, hrow, hline, -⟩ := h.take_offset
  have hcount : (List.flatMap (· ++ ['\n']) earlier).count '\n' = earlier.length := by
    clear htake hline
    induction earlier with
    | nil => rfl
    | cons r earlier ih =>
      obtain ⟨hr, hmore⟩ := List.forall_mem_cons.1 hearlier
      rw [List.flatMap_cons, List.count_append, ih hmore, List.count_append,
        List.count_eq_zero.2 hr, List.length_cons, List.count_singleton_self]
      omega
  rw [htake, List.count_append, hcount, List.count_eq_zero.2 hrow, hline]
  omega

/-- The number of a column is one more than the length of the row before it. -/
theorem column_eq (h : place.Marks text rest) :
    place.column = 1 + (rowBefore text place.offset).length := by
  obtain ⟨earlier, row, htake, -, hrow, -, hcolumn⟩ := h.take_offset
  have hstop : (List.flatMap (· ++ ['\n']) earlier).rtakeWhile (· != '\n') = [] := by
    rcases List.eq_nil_or_concat earlier with rfl | ⟨front, r, rfl⟩
    · rfl
    · rw [List.concat_eq_append, List.flatMap_append, List.flatMap_singleton, ← List.append_assoc]
      exact List.rtakeWhile_concat_neg _ _ _ (by decide)
  unfold rowBefore
  rw [htake, rtakeWhile_append_of_pos (bne_newline_of_not_mem hrow), hstop, hcolumn,
    List.nil_append, Nat.add_comm]

end Place.Marks

/-! ## Steps -/

/-- What is skipped at the start of a text: a blank, a newline, or a comment, which goes on to the
end of its row. -/
inductive Skips : List Char → List Char → Prop
  | blank {c : Char} {rest : List Char} (h : Token.isSpace c) : Skips (c :: rest) [c]
  | newline {rest : List Char} : Skips ('\n' :: rest) ['\n']
  | comment {rest : List Char} : Skips ('#' :: rest) ('#' :: rest.takeWhile (· != '\n'))

/-- One step of reading, from an offset of a text to a later one: over something that is skipped, or
over the longest piece that some rule accepts, which has to stand for a lexeme. -/
inductive ReadStep (text : List Char) : Nat → Nat → Prop
  | skip {k : Nat} {piece : List Char} (h : Skips (text.drop k) piece) :
    ReadStep text k (k + piece.length)
  | token {k : Nat} {piece : List Char} {l : Lexeme} (h : Longest (text.drop k) piece)
      (hl : l.Written piece) : ReadStep text k (k + piece.length)

/-- An offset to which reading comes from the start of a text, step by step. -/
def Reached (text : List Char) (k : Nat) : Prop := Relation.ReflTransGen (ReadStep text) 0 k

/-- Why a text lets no step at its start: nothing is skipped and no rule accepts a piece, or the
longest piece is a number with too many digits. -/
inductive LexFault.Blocks : LexFault → List Char → Prop
  | illegal {c : Char} {rest : List Char} (hskip : ∀ piece, ¬ Skips (c :: rest) piece)
      (hnone : ∀ piece, piece <+: c :: rest → ¬ IsToken piece) : Blocks (.illegal c) (c :: rest)
  | tooManyDigits {text digits : List Char} (h : Longest text digits)
      (hdigits : ∀ d ∈ digits, isDigit d) (hlong : maxDigits < digits.length) :
    Blocks (.tooManyDigits digits.length) text

/-- A token and its piece of text. -/
abbrev Span := Token × List Char

/-- From one offset of a text to another in steps, over the given tokens. -/
inductive Walks (text : List Char) : Nat → List Span → Nat → Prop
  | stop {k : Nat} : Walks text k [] k
  | skip {k reach : Nat} {piece : List Char} {spans : List Span} (h : Skips (text.drop k) piece)
      (hmore : Walks text (k + piece.length) spans reach) : Walks text k spans reach
  | token {t : Token} {piece : List Char} {spans : List Span} {reach : Nat}
      (h : Longest (text.drop t.offset) piece) (hl : t.lexeme.Written piece)
      (hmore : Walks text (t.offset + piece.length) spans reach) :
    Walks text t.offset ((t, piece) :: spans) reach

/-- How far a text is read. -/
def Lexed.reach (lexed : Lexed) (text : List Char) : Nat :=
  match lexed.ending with
  | .complete _ => text.length
  | .fault _ place => place.offset

namespace LexFault

variable {c : Char} {rest : List Char}

theorem not_skips (h : isBreak c = false) (piece : List Char) : ¬ Skips (c :: rest) piece := by
  intro hskip
  cases hskip with
  | blank hc => simp [isBreak, hc] at h
  | newline => cases h
  | comment => cases h

theorem blocks_of_first {why : LexFault} (hc : isBreak c = false)
    (h : Lexeme.first c rest = .error why) : why.Blocks (c :: rest) := by
  cases why with
  | illegal d =>
    obtain ⟨rfl, hnone⟩ := Lexeme.first_illegal h
    exact .illegal (not_skips hc) hnone
  | tooManyDigits count =>
    obtain ⟨digits, hlongest, hdigits, rfl, hlong⟩ := Lexeme.first_tooLong h
    exact .tooManyDigits hlongest hdigits hlong

theorem Blocks.exists_cons {text : List Char} {why : LexFault} (h : why.Blocks text) :
    ∃ c rest, text = c :: rest ∧ isBreak c = false := by
  cases h with
  | @illegal c rest hskip _ =>
    refine ⟨c, rest, rfl, ?_⟩
    by_contra hbreak
    simp only [isBreak, Bool.not_eq_false, Bool.or_eq_true, beq_iff_eq] at hbreak
    rcases hbreak with (hspace | rfl) | rfl
    · exact hskip _ (.blank hspace)
    · exact hskip _ .newline
    · exact hskip _ .comment
  | tooManyDigits h _ _ =>
    obtain ⟨rest, rfl⟩ := h.starts
    obtain ⟨c, tail, rfl⟩ := List.exists_cons_of_ne_nil h.isToken.ne_nil
    exact ⟨c, tail ++ rest, rfl, h.isToken.isBreak c List.mem_cons_self⟩

/-- Where a text lets no step, reading faults. -/
theorem Blocks.first {why : LexFault} (h : why.Blocks (c :: rest)) :
    Lexeme.first c rest = .error why := by
  rcases hfirst : Lexeme.first c rest with (d | count) | ⟨l, length⟩
  · obtain ⟨rfl, hnone⟩ := Lexeme.first_illegal hfirst
    cases h with
    | illegal hskip _ => rfl
    | tooManyDigits hlongest _ _ => exact absurd hlongest.isToken (hnone _ hlongest.starts)
  · obtain ⟨digits, hlongest, hdigits, rfl, -⟩ := Lexeme.first_tooLong hfirst
    cases h with
    | illegal _ hnone => exact absurd hlongest.isToken (hnone digits hlongest.starts)
    | tooManyDigits hlongest' _ _ => rw [hlongest.unique hlongest']
  · obtain ⟨hlongest, hwritten⟩ := Lexeme.first_ok hfirst
    cases h with
    | illegal _ hnone => exact absurd hlongest.isToken (hnone _ hlongest.starts)
    | tooManyDigits hlongest' hdigits hlong =>
      obtain rfl := hlongest.unique hlongest'
      exact absurd (hwritten.digits_fit hdigits) (Nat.not_le_of_lt hlong)

end LexFault

namespace Lexed

variable {text : List Char} {k : Nat} {lexed : Lexed}

/-- The tokens are those of a walk that starts at an offset, and where it ends in a fault the text
lets no step. -/
def WalkedFrom (lexed : Lexed) (text : List Char) (k : Nat) : Prop :=
  (∃ spans : List Span, lexed.tokens = spans.map Prod.fst ∧ Walks text k spans (lexed.reach text)) ∧
    ∀ why place, lexed.ending = .fault why place → why.Blocks (text.drop place.offset)

theorem walkedFrom_skip {piece : List Char} (hskip : Skips (text.drop k) piece)
    (h : lexed.WalkedFrom text (k + piece.length)) : lexed.WalkedFrom text k := by
  obtain ⟨⟨spans, htokens, hwalks⟩, hfault⟩ := h
  exact ⟨⟨spans, htokens, .skip hskip hwalks⟩, hfault⟩

theorem walkedFrom_token {t : Token} {piece : List Char}
    (hlongest : Longest (text.drop t.offset) piece) (hl : t.lexeme.Written piece)
    (h : lexed.WalkedFrom text (t.offset + piece.length)) :
    WalkedFrom ⟨t :: lexed.tokens, lexed.ending⟩ text t.offset := by
  obtain ⟨⟨spans, htokens, hwalks⟩, hfault⟩ := h
  refine ⟨⟨(t, piece) :: spans, ?_, .token hlongest hl hwalks⟩, hfault⟩
  rw [htokens]
  rfl

end Lexed

/-- Reading a text is a walk over its tokens, to the end or to a place that lets no step. -/
theorem Token.walkedFrom_scan {text : List Char} {place : Place} {rest : List Char}
    (h : text.drop place.offset = rest) (hle : place.offset ≤ text.length) :
    (scan place rest).WalkedFrom text place.offset := by
  fun_induction scan place rest with
  | case1 place =>
    have hend : place.offset = text.length := Nat.le_antisymm hle (List.drop_eq_nil_iff.1 h)
    refine ⟨⟨[], rfl, hend ▸ .stop⟩, fun _ _ hfault => ?_⟩
    cases hfault
  | case2 place c rest hspace ih =>
    have hskip : Skips (text.drop place.offset) [c] := by
      rw [h]
      exact .blank hspace
    have hsplit : text.drop place.offset = [c] ++ rest := h
    exact Lexed.walkedFrom_skip hskip (ih (drop_of_drop hsplit) (add_length_le hsplit hle))
  | case3 place c rest hspace hline ih =>
    obtain rfl : c = '\n' := by simpa using hline
    have hskip : Skips (text.drop place.offset) ['\n'] := by
      rw [h]
      exact .newline
    have hsplit : text.drop place.offset = ['\n'] ++ rest := h
    exact Lexed.walkedFrom_skip hskip (ih (drop_of_drop hsplit) (add_length_le hsplit hle))
  | case4 place c rest hspace hline hcomment comment ih =>
    obtain rfl : c = '#' := by simpa using hcomment
    have hskip : Skips (text.drop place.offset) ('#' :: comment) := by
      rw [h]
      exact .comment
    have hsplit : text.drop place.offset = ('#' :: comment) ++ rest.drop comment.length := by
      have hrest : comment ++ rest.drop comment.length = rest :=
        List.prefix_iff_eq_append.1 (List.takeWhile_prefix _)
      rw [h, List.cons_append, hrest]
    exact Lexed.walkedFrom_skip hskip (ih (drop_of_drop hsplit) (add_length_le hsplit hle))
  | case5 place c rest hspace hline hcomment why hfirst =>
    have hbreak : isBreak c = false := by simp_all [isBreak]
    refine ⟨⟨[], rfl, .stop⟩, fun why' place' hfault => ?_⟩
    cases hfault
    rw [h]
    exact LexFault.blocks_of_first hbreak hfirst
  | case6 place c rest hspace hline hcomment lexeme length hfirst later ih =>
    obtain ⟨hpos, hlength, -⟩ := Lexeme.first_cut hfirst
    obtain ⟨hlongest, hwritten⟩ := Lexeme.first_ok hfirst
    rw [← h] at hlongest
    have hsplit : text.drop place.offset =
        (c :: rest.take (length - 1)) ++ rest.drop (length - 1) := by
      rw [h, List.cons_append, List.take_append_drop]
    have hpiece : (c :: rest.take (length - 1)).length = length := by
      rw [List.length_cons, List.length_take, Nat.min_eq_left hlength, Nat.sub_add_cancel hpos]
    have hdrop := drop_of_drop hsplit
    have hadd := add_length_le hsplit hle
    rw [hpiece] at hdrop hadd
    have hmore := ih hdrop hadd
    refine Lexed.walkedFrom_token (t := ⟨lexeme, place.line, place.column, place.offset⟩) hlongest
      hwritten ?_
    rw [hpiece]
    exact hmore

/-! ## What a walk covers -/

/-- The offset is within one of the tokens. -/
def Covered (spans : List Span) (k : Nat) : Prop :=
  ∃ span ∈ spans, span.1.offset ≤ k ∧ k < span.1.offset + span.2.length

/-- The character at an offset is blank or a newline, or a comment has started in its row. -/
def Skipped (text : List Char) (k : Nat) : Prop :=
  ∃ c ∈ text[k]?, Token.isSpace c ∨ c = '\n' ∨ '#' ∈ rowBefore text (k + 1)

/-- No comment has started in the row of an offset, unless the row ends there. -/
def Clear (text : List Char) (k : Nat) : Prop :=
  '#' ∈ rowBefore text k → ∀ c ∈ text[k]?, c = '\n'

section

variable {text piece rest : List Char} {k : Nat}

theorem getElem?_of_drop (h : text.drop k = piece ++ rest) {i : Nat} (hi : i < piece.length) :
    text[k + i]? = piece[i]? := by
  rw [← List.getElem?_drop, h, List.getElem?_append_left hi]

/-- In the middle of a piece, the row before has grown by the start of the piece. -/
theorem rowBefore_within (h : text.drop k = piece ++ rest) (hpiece : '\n' ∉ piece) {i : Nat}
    (hi : i < piece.length) :
    rowBefore text (k + i + 1) = rowBefore text k ++ piece.take (i + 1) := by
  have hsplit : text.drop k = piece.take (i + 1) ++ (piece.drop (i + 1) ++ rest) := by
    rw [h, ← List.append_assoc, List.take_append_drop]
  have hlength : (piece.take (i + 1)).length = i + 1 := by
    rw [List.length_take, Nat.min_eq_left hi]
  have hrow := rowBefore_add hsplit fun hmem => hpiece (List.mem_of_mem_take hmem)
  rwa [hlength] at hrow

theorem newline_not_mem_comment (rest : List Char) : '\n' ∉ rest.takeWhile (· != '\n') := by
  rw [← take_run]
  exact newline_not_mem_run (by decide) rest

namespace Skips

theorem starts {text : List Char} (h : Skips text piece) : piece <+: text := by
  cases h with
  | blank h => exact List.cons_prefix_cons.2 ⟨rfl, List.nil_prefix⟩
  | newline => exact List.cons_prefix_cons.2 ⟨rfl, List.nil_prefix⟩
  | comment => exact List.cons_prefix_cons.2 ⟨rfl, List.takeWhile_prefix _⟩

/-- What a step skips is skipped. -/
theorem skipped (h : Skips (text.drop k) piece) {i : Nat} (hi : i < piece.length) :
    Skipped text (k + i) := by
  obtain ⟨rest, hsplit⟩ := h.starts
  refine ⟨piece[i], by rw [getElem?_of_drop hsplit.symm hi, List.getElem?_eq_getElem hi]; rfl, ?_⟩
  generalize text.drop k = back at h
  cases h with
  | blank h =>
    obtain rfl : i = 0 := by simpa using hi
    exact .inl h
  | newline =>
    obtain rfl : i = 0 := by simpa using hi
    exact .inr (.inl rfl)
  | comment =>
    -- the comment starts the part of the row that is passed over
    refine .inr (.inr ?_)
    rw [rowBefore_within hsplit.symm (by simp [newline_not_mem_comment]) hi, List.take_succ_cons]
    exact List.mem_append_right _ List.mem_cons_self

/-- After something that is skipped, no comment has started, or the row ends. -/
theorem clear (h : Skips (text.drop k) piece) (hclear : Clear text k) :
    Clear text (k + piece.length) := by
  generalize hback : text.drop k = back at h
  cases h with
  | @blank c rest h =>
    have hsplit : text.drop k = [c] ++ rest := hback
    have hc : c ≠ '#' ∧ c ≠ '\n' := by
      constructor <;> (rintro rfl; cases h)
    intro hmem
    rw [rowBefore_add hsplit (by simp [hc.2.symm]), List.mem_append] at hmem
    rcases hmem with hmem | hmem
    · have hhead : c ∈ text[k]? := by rw [← List.head?_drop, hback]; rfl
      exact absurd (hclear hmem c hhead) hc.2
    · exact absurd (List.mem_singleton.1 hmem).symm hc.1
  | newline =>
    intro hmem
    rw [List.length_singleton, rowBefore_newline hback] at hmem
    cases hmem
  | @comment rest =>
    intro _ c hc
    have hsplit : text.drop k = ('#' :: rest.takeWhile (· != '\n')) ++
        rest.drop (rest.takeWhile (· != '\n')).length := by
      rw [hback, List.cons_append, List.prefix_iff_eq_append.1 (List.takeWhile_prefix _)]
    rw [← List.head?_drop, drop_of_drop hsplit] at hc
    simpa using stops_at_drop hc

end Skips

namespace IsToken

theorem newline_not_mem (h : IsToken piece) : '\n' ∉ piece := by
  intro hmem
  cases h.isBreak _ hmem

theorem hash_not_mem (h : IsToken piece) : '#' ∉ piece := by
  intro hmem
  cases h.isBreak _ hmem

/-- A token is in no comment. -/
theorem hash_not_mem_rowBefore (h : IsToken piece) (hsplit : text.drop k = piece ++ rest)
    (hclear : Clear text k) : '#' ∉ rowBefore text k := by
  obtain ⟨c, tail, rfl⟩ := List.exists_cons_of_ne_nil h.ne_nil
  intro hmem
  have hhead : c ∈ text[k]? := by
    rw [← List.head?_drop, hsplit]
    rfl
  obtain rfl := hclear hmem c hhead
  exact h.newline_not_mem List.mem_cons_self

/-- What a token covers is not skipped. -/
theorem not_skipped (h : IsToken piece) (hsplit : text.drop k = piece ++ rest)
    (hclear : Clear text k) {i : Nat} (hi : i < piece.length) : ¬ Skipped text (k + i) := by
  rintro ⟨c, hc, hskipped⟩
  rw [getElem?_of_drop hsplit hi] at hc
  have hbreak := h.isBreak c (List.mem_of_getElem? hc)
  rcases hskipped with hspace | rfl | hmem
  · simp [LetPoly.isBreak, hspace] at hbreak
  · cases hbreak
  · rw [rowBefore_within hsplit h.newline_not_mem hi, List.mem_append] at hmem
    rcases hmem with hmem | hmem
    · exact h.hash_not_mem_rowBefore hsplit hclear hmem
    · exact h.hash_not_mem (List.mem_of_mem_take hmem)

theorem clear (h : IsToken piece) (hsplit : text.drop k = piece ++ rest)
    (hclear : Clear text k) : Clear text (k + piece.length) := by
  intro hmem
  rw [rowBefore_add hsplit h.newline_not_mem, List.mem_append] at hmem
  rcases hmem with hmem | hmem
  · exact absurd hmem (h.hash_not_mem_rowBefore hsplit hclear)
  · exact absurd hmem h.hash_not_mem

end IsToken

end

namespace Walks

variable {text : List Char} {k reach : Nat} {spans : List Span}

/-- A walk is made of steps. -/
theorem steps (h : Walks text k spans reach) : Relation.ReflTransGen (ReadStep text) k reach := by
  induction h with
  | stop => exact .refl
  | skip h _ ih => exact .head (.skip h) ih
  | token h hl _ ih => exact .head (.token h hl) ih

theorem le_offset (h : Walks text k spans reach) : ∀ span ∈ spans, k ≤ span.1.offset := by
  induction h with
  | stop => simp
  | skip h _ ih => exact fun span hspan => (Nat.le_add_right _ _).trans (ih span hspan)
  | token h hl _ ih =>
    refine List.forall_mem_cons.2 ⟨le_rfl, fun span hspan => ?_⟩
    exact (Nat.le_add_right _ _).trans (ih span hspan)

/-- The tokens stand in order and apart. -/
theorem pairwise (h : Walks text k spans reach) : spans.Pairwise fun a b =>
    a.1.offset < b.1.offset ∧ a.1.offset + a.2.length ≤ b.1.offset := by
  induction h with
  | stop => exact .nil
  | skip h _ ih => exact ih
  | token h hl hmore ih =>
    refine .cons (fun span hspan => ?_) ih
    have hlater := hmore.le_offset span hspan
    have hpos := List.length_pos_iff.2 h.isToken.ne_nil
    exact ⟨Nat.lt_of_lt_of_le (Nat.lt_add_of_pos_right hpos) hlater, hlater⟩

/-- The tokens are the longest pieces, and these stand for their lexemes. -/
theorem longest (h : Walks text k spans reach) : ∀ span ∈ spans,
    Longest (text.drop span.1.offset) span.2 ∧ span.1.lexeme.Written span.2 := by
  induction h with
  | stop => simp
  | skip h _ ih => exact ih
  | token h hl _ ih => exact List.forall_mem_cons.2 ⟨⟨h, hl⟩, ih⟩

/-- As far as a walk goes, the characters outside the tokens are those that are skipped. -/
theorem covers (h : Walks text k spans reach) (hclear : Clear text k) {j : Nat} (hk : k ≤ j)
    (hj : j < reach) : ¬ Covered spans j ↔ Skipped text j := by
  induction h with
  | stop => omega
  | @skip k reach piece spans h hmore ih =>
    by_cases hi : j < k + piece.length
    · obtain ⟨i, rfl⟩ := Nat.exists_eq_add_of_le hk
      refine iff_of_true ?_ (h.skipped (by omega))
      rintro ⟨span, hspan, hle, -⟩
      have hlater := hmore.le_offset span hspan
      omega
    · exact ih (h.clear hclear) (by omega) hj
  | @token t piece spans reach h hl hmore ih =>
    obtain ⟨rest, hsplit⟩ := h.starts
    by_cases hi : j < t.offset + piece.length
    · obtain ⟨i, rfl⟩ := Nat.exists_eq_add_of_le hk
      refine iff_of_false ?_ (h.isToken.not_skipped hsplit.symm hclear (by omega))
      exact not_not_intro ⟨(t, piece), List.mem_cons_self, hk, hi⟩
    · rw [← ih (h.isToken.clear hsplit.symm hclear) (by omega) hj]
      refine not_congr ⟨?_, ?_⟩
      · rintro ⟨span, hspan, hle, hlt⟩
        rcases List.mem_cons.1 hspan with rfl | hspan
        · exact absurd hlt hi
        · exact ⟨span, hspan, hle, hlt⟩
      · rintro ⟨span, hspan, hle, hlt⟩
        exact ⟨span, List.mem_cons_of_mem _ hspan, hle, hlt⟩

end Walks

/-! ## Where reading stops -/

namespace Token

theorem scan_token {c : Char} {rest : List Char} (hc : isBreak c = false) {l : Lexeme}
    {length : Nat} (h : Lexeme.first c rest = .ok (l, length)) (place : Place) :
    scan place (c :: rest) =
      ⟨⟨l, place.line, place.column, place.offset⟩ ::
          (scan (place.advance length) (rest.drop (length - 1))).tokens,
        (scan (place.advance length) (rest.drop (length - 1))).ending⟩ := by
  simp only [isBreak, Bool.or_eq_false_iff] at hc
  exact scan_lexeme hc.1.1 hc.1.2 hc.2 h place

/-- What is skipped changes nothing but the place. -/
theorem exists_scan_of_skips {text back piece : List Char} {place : Place} (h : Skips back piece)
    (hmarks : place.Marks text back) : ∃ place' : Place,
      place'.offset = place.offset + piece.length ∧ place'.Marks text (back.drop piece.length) ∧
        scan place back = scan place' (back.drop piece.length) := by
  cases h with
  | @blank c rest h =>
    have hc : '\n' ∉ [c] := by
      rw [List.mem_singleton]
      rintro rfl
      cases h
    exact ⟨place.advance 1, rfl, Place.Marks.advance hmarks hc, scan_space h place rest⟩
  | newline => exact ⟨place.newline, rfl, hmarks.newline, scan_newline place _⟩
  | @comment rest =>
    refine ⟨place.advance ((rest.takeWhile (· != '\n')).length + 1), rfl, ?_,
      scan_comment place rest⟩
    refine hmarks.skip (List.takeWhile_prefix _).length_le ?_
    rw [take_run, List.mem_cons, not_or]
    exact ⟨by decide, newline_not_mem_comment rest⟩

/-- A token is read, and reading ends as it does after it. -/
theorem exists_scan_of_longest {text back piece : List Char} {l : Lexeme} {place : Place}
    (h : Longest back piece) (hl : l.Written piece) (hmarks : place.Marks text back) :
    ∃ place' : Place, place'.offset = place.offset + piece.length ∧
      place'.Marks text (back.drop piece.length) ∧
        (scan place back).ending = (scan place' (back.drop piece.length)).ending := by
  obtain ⟨rest, rfl⟩ := h.starts
  obtain ⟨c, tail, rfl⟩ := List.exists_cons_of_ne_nil h.isToken.ne_nil
  have hfirst : Lexeme.first c (tail ++ rest) = .ok (l, (c :: tail).length) :=
    Lexeme.first_of_longest h hl
  have hbreak := h.isToken.isBreak c List.mem_cons_self
  refine ⟨place.advance (c :: tail).length, rfl, ?_, ?_⟩
  · rw [List.drop_left]
    exact hmarks.advance h.isToken.newline_not_mem
  · rw [List.cons_append, scan_token hbreak hfirst]
    rfl

/-- How reading ends is settled at each offset to which it comes. -/
theorem ending_of_reached {text : List Char} {k : Nat} (h : Reached text k) :
    ∃ place : Place, place.offset = k ∧ place.Marks text (text.drop k) ∧
      (scan .start text).ending = (scan place (text.drop k)).ending := by
  induction h with
  | refl => exact ⟨.start, rfl, Place.marks_start text, rfl⟩
  | tail _ hstep ih =>
    obtain ⟨place, rfl, hmarks, hending⟩ := ih
    cases hstep with
    | skip h =>
      obtain ⟨place', hoffset, hmarks', hscan⟩ := exists_scan_of_skips h hmarks
      refine ⟨place', hoffset, ?_, ?_⟩
      · rwa [← List.drop_drop]
      · rw [hending, hscan, List.drop_drop]
    | token h hl =>
      obtain ⟨place', hoffset, hmarks', hscan⟩ := exists_scan_of_longest h hl hmarks
      refine ⟨place', hoffset, ?_, ?_⟩
      · rwa [← List.drop_drop]
      · rw [hending, hscan, List.drop_drop]

theorem scan_fault {c : Char} {rest : List Char} (hc : isBreak c = false) {why : LexFault}
    (h : Lexeme.first c rest = .error why) (place : Place) :
    scan place (c :: rest) = ⟨[], .fault why place⟩ := by
  simp only [isBreak, Bool.or_eq_false_iff] at hc
  rw [scan, if_neg (by simp [hc]), if_neg (by simp [hc]), if_neg (by simp [hc]), h]

/-- Reading faults where it comes to a place that lets no step. -/
theorem fault_of_blocks {text : List Char} {k : Nat} {why : LexFault} (h : Reached text k)
    (hblocks : why.Blocks (text.drop k)) : ∃ place : Place, place.offset = k ∧
      place.Marks text (text.drop k) ∧ (scan .start text).ending = .fault why place := by
  obtain ⟨place, hoffset, hmarks, hending⟩ := ending_of_reached h
  obtain ⟨c, rest, hback, hbreak⟩ := hblocks.exists_cons
  rw [hback] at hblocks hending
  rw [scan_fault hbreak hblocks.first] at hending
  exact ⟨place, hoffset, hmarks, hending⟩

end Token

/-! ## The law of reading tokens -/

/-- A token as it stands in a text: its piece is the longest that some rule accepts at its offset,
the piece stands for its lexeme and for nothing else, and its line and its column are counted from
the newlines before it. -/
structure Token.Stands (text : List Char) (t : Token) (piece : List Char) : Prop where
  longest : Longest (text.drop t.offset) piece
  lexeme : ∀ l : Lexeme, l.Written piece ↔ l = t.lexeme
  line : t.line = 1 + (text.take t.offset).count '\n'
  column : t.column = 1 + (rowBefore text t.offset).length

/-- The tokens of a text are those of a walk from its start. -/
theorem Token.exists_walk (source : String) : ∃ spans : List Span,
    (lex source).tokens = spans.map Prod.fst ∧
      Walks source.toList 0 spans ((lex source).reach source.toList) ∧
      ∀ span ∈ spans, span.1.Stands source.toList span.2 := by
  have hstart : source.toList.drop Place.start.offset = source.toList := rfl
  obtain ⟨⟨spans, htokens, hwalks⟩, -⟩ := walkedFrom_scan hstart (Nat.zero_le _)
  refine ⟨spans, htokens, hwalks, fun span hspan => ?_⟩
  have hmem : span.1 ∈ (lex source).tokens := by
    unfold lex
    rw [htokens]
    exact List.mem_map_of_mem hspan
  obtain ⟨c, rest, -, hplace⟩ := (marks_of_scan (Place.marks_start source.toList)).1 span.1 hmem
  obtain ⟨hlongest, hwritten⟩ := hwalks.longest span hspan
  refine ⟨hlongest, fun l => ⟨fun hl => hl.unique hwritten, ?_⟩, hplace.line_eq, hplace.column_eq⟩
  rintro rfl
  exact hwritten

/-- No token comes twice. -/
theorem Token.nodup_lex (source : String) : (lex source).tokens.Nodup := by
  obtain ⟨spans, htokens, hwalks, -⟩ := exists_walk source
  rw [htokens, List.Nodup, List.pairwise_map]
  refine hwalks.pairwise.imp fun hlt heq => ?_
  rw [heq] at hlt
  omega

theorem Token.exists_stands {source : String} {t : Token} (h : t ∈ (lex source).tokens) :
    ∃ piece, t.Stands source.toList piece := by
  obtain ⟨spans, htokens, -, hstands⟩ := exists_walk source
  rw [htokens] at h
  obtain ⟨span, hspan, rfl⟩ := List.mem_map.1 h
  exact ⟨span.2, hstands span hspan⟩

/-- The tokens of a text, up to its end or to a place that lets no step, stand in order and apart.
Each is the longest that can be read where it stands, and the characters outside them are just
those that are blank, newlines, or in comments. Reading faults at a place exactly if it comes to
the place and nothing is skipped there and no rule accepts a piece, or the longest piece is a number
with too many digits. -/
theorem the_tokens_of_a_text_are_the_longest_and_cover_it (source : String) :
    (∃ spans : List Span, (Token.lex source).tokens = spans.map Prod.fst ∧
      (spans.Pairwise fun a b =>
        a.1.offset < b.1.offset ∧ a.1.offset + a.2.length ≤ b.1.offset) ∧
      (∀ span ∈ spans, span.1.Stands source.toList span.2) ∧
      ∀ k < (Token.lex source).reach source.toList,
        ¬ Covered spans k ↔ Skipped source.toList k) ∧
    ∀ why line column k, (Token.lex source).ending = .fault why ⟨line, column, k⟩ ↔
      Reached source.toList k ∧ why.Blocks (source.toList.drop k) ∧
        line = 1 + (source.toList.take k).count '\n' ∧
        column = 1 + (rowBefore source.toList k).length := by
  obtain ⟨spans, htokens, hwalks, hstands⟩ := Token.exists_walk source
  refine ⟨⟨spans, htokens, hwalks.pairwise, hstands, fun k hk => ?_⟩,
    fun why line column k => ⟨fun hending => ?_, ?_⟩⟩
  · have hclear : Clear source.toList 0 := by
      intro hmem
      cases hmem
    exact hwalks.covers hclear (Nat.zero_le k) hk
  · obtain ⟨c, rest, -, hplace, -⟩ :=
      (Token.marks_of_scan (Place.marks_start source.toList)).2 why _ hending
    have hstart : source.toList.drop Place.start.offset = source.toList := rfl
    obtain ⟨-, hblocks⟩ := Token.walkedFrom_scan hstart (Nat.zero_le _)
    have hsteps := hwalks.steps
    rw [Lexed.reach, hending] at hsteps
    exact ⟨hsteps, hblocks why _ hending, hplace.line_eq, hplace.column_eq⟩
  · rintro ⟨hreached, hblock, rfl, rfl⟩
    obtain ⟨⟨line, column, offset⟩, rfl, hplace, hending⟩ := Token.fault_of_blocks hreached hblock
    rw [← hplace.line_eq, ← hplace.column_eq]
    exact hending

end LetPoly
