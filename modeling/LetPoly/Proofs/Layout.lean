-- Layout. Lexemes can be written in order with any blanks, newlines and comments around them,
-- as long as there is something between neighbours, and are read back as they were. So layout
-- changes nothing but the places of what is read.
import LetPoly.Proofs.RelabeledTokens

namespace LetPoly

open Token (Yields)

/-! ## Layout -/

/-- Blanks, newlines, and comments that end with a newline. -/
inductive IsLayout : List Char → Prop
  | nil : IsLayout []
  | blank {c : Char} {rest : List Char} (hc : Token.isSpace c) (h : IsLayout rest) :
    IsLayout (c :: rest)
  | newline {rest : List Char} (h : IsLayout rest) : IsLayout ('\n' :: rest)
  | comment (body : List Char) {rest : List Char} (hbody : '\n' ∉ body) (h : IsLayout rest) :
    IsLayout ('#' :: (body ++ '\n' :: rest))

/-- Layout starts with a break, if there is any. -/
theorem IsLayout.isBreak_head {gap : List Char} (h : IsLayout gap) :
    ∀ c ∈ gap.head?, isBreak c := by
  cases h with
  | nil => simp
  | blank hc _ => simp [isBreak, hc]
  | newline _ => simp [isBreak]
  | comment _ _ _ => simp [isBreak]

/-- A comment goes up to the newline that ends it. -/
theorem takeWhile_comment {body : List Char} (h : '\n' ∉ body) (rest : List Char) :
    (body ++ '\n' :: rest).takeWhile (· != '\n') = body := by
  rw [List.takeWhile_append_of_pos (bne_newline_of_not_mem h),
    List.takeWhile_cons_of_neg (by decide), List.append_nil]

/-- Layout is read as no lexeme. -/
theorem IsLayout.yields {gap : List Char} (h : IsLayout gap) (rest : List Char) :
    Yields gap rest [] := by
  induction h with
  | nil => exact Token.yields_nil rest
  | blank hc _ ih =>
    intro place
    rw [List.cons_append, Token.scan_space hc]
    exact ih (place.advance 1)
  | newline _ ih =>
    intro place
    rw [List.cons_append, Token.scan_newline]
    exact ih place.newline
  | comment body hbody _ ih =>
    intro place
    rw [List.cons_append, List.append_assoc, List.cons_append, Token.scan_comment,
      takeWhile_comment hbody, List.drop_left, Token.scan_newline]
    exact ih (place.advance (body.length + 1)).newline

/-! ## Lexemes with layout -/

/-- A token before a break, or at the end, is the longest piece. -/
theorem longest_of_break {piece rest : List Char} (h : IsToken piece)
    (hrest : ∀ c ∈ rest.head?, isBreak c) : Longest (piece ++ rest) piece := by
  refine ⟨List.prefix_append piece rest, h, fun other hother htoken => ?_⟩
  by_contra hlong
  have hle : piece.length ≤ other.length := Nat.le_of_lt (Nat.lt_of_not_le hlong)
  obtain ⟨tail, rfl⟩ := List.prefix_of_prefix_length_le (List.prefix_append piece rest) hother hle
  rcases tail with _ | ⟨c, tail⟩
  · simp at hlong
  · -- the longer piece would go over the break
    obtain ⟨more, rfl⟩ := (List.prefix_append_right_inj piece).1 hother
    have hbreak := htoken.isBreak c (List.mem_append_right piece List.mem_cons_self)
    rw [hrest c rfl] at hbreak
    cases hbreak

theorem Lexeme.Written.yields {l : Lexeme} {piece rest : List Char} (h : l.Written piece)
    (hrest : ∀ c ∈ rest.head?, isBreak c) : Yields piece rest [l] := by
  have hlongest := longest_of_break h.isToken hrest
  obtain ⟨c, tail, rfl⟩ := List.exists_cons_of_ne_nil h.isToken.ne_nil
  have hbreak := h.isToken.isBreak c List.mem_cons_self
  simp only [isBreak, Bool.or_eq_false_iff] at hbreak
  exact Token.yields_lexeme hbreak.1.1 hbreak.1.2 hbreak.2 (Lexeme.first_of_longest hlongest h)

/-- Lexemes written in order, each with layout after it, of which only the last may go without. -/
inductive Lexeme.InOrder : List Lexeme → List Char → Prop
  | nil : InOrder [] []
  | last {l : Lexeme} (piece gap : List Char) (hl : l.Written piece) (hgap : IsLayout gap) :
    InOrder [l] (piece ++ gap)
  | cons {l next : Lexeme} {ls : List Lexeme} {more : List Char} (piece gap : List Char)
      (hl : l.Written piece) (hgap : IsLayout gap) (hne : gap ≠ [])
      (hmore : InOrder (next :: ls) more) : InOrder (l :: next :: ls) (piece ++ (gap ++ more))

/-- A text that writes lexemes in order, with layout between neighbours, and maybe before the first
and after the last. -/
def Lexeme.LaidOut (ls : List Lexeme) (text : List Char) : Prop :=
  ∃ lead body, text = lead ++ body ∧ IsLayout lead ∧ InOrder ls body

namespace Lexeme

theorem InOrder.yields {ls : List Lexeme} {text : List Char} (h : InOrder ls text) :
    Yields text [] ls := by
  induction h with
  | nil => exact Token.yields_nil []
  | last piece gap hl hgap =>
    have hpiece : Yields piece (gap ++ []) _ := hl.yields (by simpa using hgap.isBreak_head)
    exact hpiece.append (hgap.yields [])
  | @cons l next ls more piece gap hl hgap hne _ ih =>
    have hhead : ∀ c ∈ ((gap ++ more) ++ []).head?, isBreak c := by
      obtain ⟨d, tail, rfl⟩ := List.exists_cons_of_ne_nil hne
      exact hgap.isBreak_head
    have hpiece : Yields piece ((gap ++ more) ++ []) [l] := hl.yields hhead
    exact hpiece.append ((hgap.yields (more ++ [])).append ih)

/-- What is written with layout is read back. -/
theorem LaidOut.lexemes {ls : List Lexeme} {source : String} (h : LaidOut ls source.toList) :
    (Token.lex source).tokens.map (·.lexeme) = ls ∧
      ∃ line, (Token.lex source).ending = .complete line := by
  obtain ⟨lead, body, hsource, hlead, hbody⟩ := h
  have hyields : Yields (lead ++ body) [] ([] ++ ls) := (hlead.yields _).append hbody.yields
  obtain ⟨ts, place, hts, hscan⟩ := hyields .start
  rw [List.append_nil, ← hsource] at hscan
  unfold Token.lex
  rw [hscan, Token.scan]
  exact ⟨by rw [List.append_nil, hts]; rfl, _, rfl⟩

end Lexeme

/-! ## The law of layout -/

/-- Lexemes that are written with any layout are read back as they were, and two texts that differ
in nothing but layout are read alike: as the same program up to locations, or both are refused at
the tokens of one index, or at their ends. -/
theorem layout_changes_nothing_but_places {ls : List Lexeme} {source source' : String}
    (h : Lexeme.LaidOut ls source.toList) (h' : Lexeme.LaidOut ls source'.toList) (file : String) :
    (Token.lex source).tokens.map (·.lexeme) = ls ∧
      (∃ line, (Token.lex source).ending = .complete line) ∧ ReadAlike source source' file := by
  obtain ⟨hlexemes, hending⟩ := h.lexemes
  obtain ⟨hlexemes', hending'⟩ := h'.lexemes
  have hsame := hlexemes.trans hlexemes'.symm
  exact ⟨hlexemes, hending, readAlike_of_lexemes hsame file hending hending'⟩

/-- A sum, with blanks between its parts, and with a tab, comments, and a zero more. -/
theorem layout_changes_nothing_but_places_of_a_sum :
    Lexeme.LaidOut [.identifier "x", .symbol .plus, .number 1] "x + 1".toList ∧
      Lexeme.LaidOut [.identifier "x", .symbol .plus, .number 1] "# a\nx\t+#\n01\r\n".toList ∧
      (Token.lex "# a\nx\t+#\n01\r\n").tokens.map (·.lexeme) =
        [.identifier "x", .symbol .plus, .number 1] ∧
      ReadAlike "# a\nx\t+#\n01\r\n" "x + 1" "" := by
  have hname : (Lexeme.identifier "x").Written ['x'] := .identifier (by decide)
  have hone : (Lexeme.number (Text.numeral ['1'])).Written ['1'] :=
    .number (by simp) (List.all_eq_true.1 rfl) (by decide)
  have hzeroOne : (Lexeme.number (Text.numeral ['0', '1'])).Written ['0', '1'] :=
    .number (by simp) (List.all_eq_true.1 rfl) (by decide)
  have hplain : Lexeme.LaidOut [.identifier "x", .symbol .plus, .number 1] "x + 1".toList := by
    refine ⟨[], "x + 1".toList, rfl, .nil, ?_⟩
    refine .cons ['x'] [' '] hname (.blank rfl .nil) (by simp) ?_
    refine .cons ['+'] [' '] (.symbol .plus) (.blank rfl .nil) (by simp) ?_
    exact .last ['1'] [] hone .nil
  have hbusy : Lexeme.LaidOut [.identifier "x", .symbol .plus, .number 1]
      "# a\nx\t+#\n01\r\n".toList := by
    have hcomment : IsLayout ['#', ' ', 'a', '\n'] := .comment [' ', 'a'] (by decide) .nil
    refine ⟨['#', ' ', 'a', '\n'], "x\t+#\n01\r\n".toList, rfl, hcomment, ?_⟩
    refine .cons ['x'] ['\t'] hname (.blank rfl .nil) (by simp) ?_
    refine .cons ['+'] ['#', '\n'] (.symbol .plus) (.comment [] (by decide) .nil) (by simp) ?_
    exact .last ['0', '1'] ['\r', '\n'] hzeroOne (.blank rfl (.newline .nil))
  obtain ⟨hlexemes, -, halike⟩ := layout_changes_nothing_but_places hbusy hplain ""
  exact ⟨hplain, hbusy, hlexemes, halike⟩

end LetPoly
