-- The places that are reported for the tokens of a text. A newline ends a row
-- of the text, and a place has the number of a row and a column in it; the
-- lines of an excerpt are the rows as long as no row has a line break of
-- another kind.
import LetPoly.Proofs.Excerpts
import LetPoly.Proofs.TokenTexts

namespace LetPoly

open Text

/-! ## Rows -/

/-- The pieces of a text between its newlines. -/
def rows (text : List Char) : List (List Char) := text.splitOn '\n'

theorem rows_flatMap_append {earlier : List (List Char)} (h : ∀ row ∈ earlier, '\n' ∉ row)
    (text : List Char) : rows (earlier.flatMap (· ++ ['\n']) ++ text) = earlier ++ rows text := by
  induction earlier with
  | nil => rfl
  | cons row earlier ih =>
    have hrow := h row List.mem_cons_self
    have hmore := ih fun r hr => h r (List.mem_cons_of_mem row hr)
    rw [List.flatMap_cons, List.append_assoc, List.append_assoc, List.singleton_append, rows,
      List.splitOn_append_cons_self_of_not_mem hrow, List.cons_append]
    exact congrArg (row :: ·) hmore

theorem rows_append_of_not_mem {front : List Char} (h : '\n' ∉ front) (text : List Char) :
    rows (front ++ text) = (rows text).modifyHead (front ++ ·) := by
  induction front with
  | nil => cases htext : rows text <;> simp [htext]
  | cons c front ih =>
    simp only [List.mem_cons, not_or] at h
    have hc : (c == '\n') = false := beq_eq_false_iff_ne.2 (Ne.symm h.1)
    rw [List.cons_append, rows, List.splitOn_cons_eq_if_modifyHead, hc]
    change (rows (front ++ text)).modifyHead _ = _
    rw [ih h.2]
    cases rows text <;> rfl

/-! ## Where a place stands -/

namespace Place

/-- A place in a source before the given rest: so many rows precede its own, and so many
characters of its row precede it. -/
def Marks (place : Place) (source rest : List Char) : Prop :=
  ∃ (earlier : List (List Char)) (row : List Char),
    source = earlier.flatMap (· ++ ['\n']) ++ (row ++ rest) ∧
    (∀ r ∈ earlier, '\n' ∉ r) ∧ '\n' ∉ row ∧ place.line = earlier.length + 1 ∧
    place.column = row.length + 1 ∧ place.offset + rest.length = source.length

theorem marks_start (source : List Char) : start.Marks source source :=
  ⟨[], [], by simp [start]⟩

theorem Marks.newline {place : Place} {source rest : List Char}
    (h : place.Marks source ('\n' :: rest)) : place.newline.Marks source rest := by
  obtain ⟨earlier, row, hsource, hearlier, hrow, hline, hcolumn, hoffset⟩ := h
  refine ⟨earlier ++ [row], [], ?_, ?_, by simp, ?_, rfl, ?_⟩
  · simp [hsource]
  · intro r hr
    rcases List.mem_append.1 hr with hr | hr
    · exact hearlier r hr
    · rwa [List.mem_singleton.1 hr]
  · simp [Place.newline, hline]
  · simp only [Place.newline, List.length_cons] at hoffset ⊢
    omega

theorem Marks.advance {place : Place} {source piece rest : List Char}
    (h : place.Marks source (piece ++ rest)) (hpiece : '\n' ∉ piece) :
    (place.advance piece.length).Marks source rest := by
  obtain ⟨earlier, row, hsource, hearlier, hrow, hline, hcolumn, hoffset⟩ := h
  refine ⟨earlier, row ++ piece, ?_, hearlier, ?_, hline, ?_, ?_⟩
  · rw [hsource, List.append_assoc]
  · simp [hrow, hpiece]
  · simp only [Place.advance, List.length_append]
    omega
  · simp only [Place.advance, List.length_append] at hoffset ⊢
    omega

/-- A character and some of those after it are passed over. -/
theorem Marks.skip {place : Place} {source rest : List Char} {c : Char} {k : Nat}
    (h : place.Marks source (c :: rest)) (hk : k ≤ rest.length) (hpiece : '\n' ∉ c :: rest.take k) :
    (place.advance (k + 1)).Marks source (rest.drop k) := by
  have hsplit : c :: rest = (c :: rest.take k) ++ rest.drop k := by simp
  rw [hsplit] at h
  simpa [Nat.min_eq_left hk] using h.advance hpiece

theorem Marks.drop_offset {place : Place} {source rest : List Char}
    (h : place.Marks source rest) : source.drop place.offset = rest := by
  obtain ⟨earlier, row, hsource, -, -, -, -, hoffset⟩ := h
  rw [← List.append_assoc] at hsource
  rw [hsource] at hoffset ⊢
  rw [List.length_append] at hoffset
  exact List.drop_left' (by omega)

/-- The row of a place holds, in the place's column, the character that the source has there. -/
theorem Marks.exists_row {place : Place} {source rest : List Char} {c : Char}
    (h : place.Marks source (c :: rest)) (hc : c ≠ '\n') :
    1 ≤ place.line ∧ ∃ row, (rows source)[place.line - 1]? = some row ∧
      row[place.column - 1]? = some c ∧ source[place.offset]? = some c := by
  have hoffset : source[place.offset]? = some c := by
    rw [← List.head?_drop, h.drop_offset]
    rfl
  obtain ⟨earlier, row, hsource, hearlier, hrow, hline, hcolumn, -⟩ := h
  obtain ⟨first, later, hrest⟩ := List.exists_cons_of_ne_nil
    (show rows rest ≠ [] from List.splitOn_ne_nil '\n' rest)
  have hfront : '\n' ∉ row ++ [c] := by simp [hrow, Ne.symm hc]
  have hrows : rows source = earlier ++ (row ++ c :: first) :: later := by
    rw [hsource, rows_flatMap_append hearlier,
      show row ++ c :: rest = row ++ [c] ++ rest by simp, rows_append_of_not_mem hfront, hrest]
    simp
  refine ⟨by omega, row ++ c :: first, ?_, ?_, hoffset⟩
  · rw [hrows, hline, Nat.add_sub_cancel, List.getElem?_append_right le_rfl]
    simp
  · rw [hcolumn, Nat.add_sub_cancel, List.getElem?_append_right le_rfl]
    simp

end Place

/-! ## The places of a text -/

/-- The place of a token. -/
def Token.place (t : Token) : Place := ⟨t.line, t.column, t.offset⟩

namespace Lexed

/-- The places of the tokens, and the place where nothing can be read if there is one. -/
def places (lexed : Lexed) : List Place :=
  lexed.tokens.map Token.place ++
    match lexed.ending with
    | .complete _ => []
    | .fault _ place => [place]

theorem place_mem_places {lexed : Lexed} {t : Token} (h : t ∈ lexed.tokens) :
    t.place ∈ lexed.places :=
  List.mem_append_left _ (List.mem_map_of_mem h)

theorem fault_mem_places {lexed : Lexed} {why : LexFault} {place : Place}
    (h : lexed.ending = .fault why place) : place ∈ lexed.places := by
  simp [places, h]

end Lexed

/-- Characters taken for what a newline is not are no newlines. -/
theorem newline_not_mem_run {p : Char → Bool} (hp : p '\n' = false) (text : List Char) :
    '\n' ∉ text.take (text.takeWhile p).length := by
  rw [take_run]
  intro h
  have := List.mem_takeWhile_imp h
  simp [hp] at this

theorem newline_ne_of {p : Char → Bool} {c : Char} (hp : p '\n' = false) (hc : p c) : '\n' ≠ c := by
  rintro rfl
  simp [hp] at hc

theorem Symbol.newline_not_mem_first? {c : Char} {rest : List Char} {mark : Symbol} {length : Nat}
    (h : first? (c :: rest) = some (mark, length)) : '\n' ∉ c :: rest.take (length - 1) := by
  unfold first? at h
  split at h <;> cases h
  all_goals (rename_i heq; cases heq)
  all_goals simp

namespace Lexeme

/-- What is read at the start of the text `c :: rest`: a name, a quoted name, a number, a number
that is too long, a symbol, or nothing. -/
inductive Reads : Char → List Char → Except LexFault (Lexeme × Nat) → Prop
  | name {c : Char} {rest : List Char} (hname : startsName c) :
    Reads c rest (.ok (ofName (String.ofList (c :: rest.takeWhile continuesName)),
      (rest.takeWhile continuesName).length + 1))
  | quoted {d : Char} {more : List Char} (hname : startsName d) :
    Reads '\'' (d :: more) (.ok (typeVariable (String.ofList (d :: more.takeWhile continuesName)),
      (more.takeWhile continuesName).length + 2))
  | number {c : Char} {rest : List Char} (hdigit : isDigit c)
      (hfit : (c :: rest.takeWhile isDigit).length ≤ maxDigits) :
    Reads c rest (.ok (number (Text.numeral (c :: rest.takeWhile isDigit)),
      (c :: rest.takeWhile isDigit).length))
  | tooLong {c : Char} {rest : List Char} (hdigit : isDigit c)
      (hlong : maxDigits < (c :: rest.takeWhile isDigit).length) :
    Reads c rest (.error (.tooManyDigits (c :: rest.takeWhile isDigit).length))
  | symbol {c : Char} {rest : List Char} {mark : Symbol} {length : Nat}
      (hsymbol : Symbol.first? (c :: rest) = some (mark, length)) :
    Reads c rest (.ok (symbol mark, length))
  | nothing {c : Char} {rest : List Char} (hname : ¬ startsName c)
      (hquote : c = '\'' → ∀ d ∈ rest.head?, ¬ startsName d) (hdigit : ¬ isDigit c)
      (hsymbol : Symbol.first? (c :: rest) = none) : Reads c rest (.error (.illegal c))

theorem reads_first (c : Char) (rest : List Char) : Reads c rest (first c rest) := by
  unfold first
  by_cases hname : startsName c
  · rw [if_pos hname]
    exact .name hname
  rw [if_neg hname]
  by_cases hquote : c == '\''
  · rw [if_pos hquote]
    obtain rfl : c = '\'' := by simpa using hquote
    rcases rest with _ | ⟨d, more⟩
    · exact .nothing hname (by simp) (by decide) rfl
    · dsimp only
      by_cases hd : startsName d
      · rw [if_pos hd]
        exact .quoted hd
      · rw [if_neg hd]
        exact .nothing hname (by simpa using hd) (by decide) rfl
  rw [if_neg hquote]
  by_cases hdigit : isDigit c
  · rw [if_pos hdigit]
    dsimp only
    by_cases hfit : (c :: rest.takeWhile isDigit).length ≤ maxDigits
    · rw [if_pos hfit]
      exact .number hdigit hfit
    · rw [if_neg hfit]
      exact .tooLong hdigit (Nat.lt_of_not_le hfit)
  rw [if_neg hdigit]
  rcases hsymbol : Symbol.first? (c :: rest) with _ | ⟨mark, length⟩
  · exact .nothing hname (fun h => absurd h (by simpa using hquote)) hdigit hsymbol
  · exact .symbol hsymbol

/-- No lexeme goes over the end of a row. -/
theorem newline_not_mem_first {c : Char} {rest : List Char} {lexeme : Lexeme} {length : Nat}
    (h : first c rest = .ok (lexeme, length)) : '\n' ∉ c :: rest.take (length - 1) := by
  have hreads := reads_first c rest
  rw [h] at hreads
  cases hreads with
  | name hname =>
    rw [Nat.add_sub_cancel, List.mem_cons, not_or]
    exact ⟨newline_ne_of (by decide) hname, newline_not_mem_run (by decide) rest⟩
  | @quoted d more hname =>
    change '\n' ∉ '\'' :: d :: more.take (more.takeWhile continuesName).length
    simp only [List.mem_cons, not_or]
    exact ⟨by decide, newline_ne_of (by decide) hname, newline_not_mem_run (by decide) more⟩
  | number hdigit _ =>
    rw [List.length_cons, Nat.add_sub_cancel, List.mem_cons, not_or]
    exact ⟨newline_ne_of (by decide) hdigit, newline_not_mem_run (by decide) rest⟩
  | symbol hsymbol => exact Symbol.newline_not_mem_first? hsymbol

/-- A number that cannot be read is a run of digits that is too long. -/
theorem first_tooManyDigits {c : Char} {rest : List Char} {count : Nat}
    (h : first c rest = .error (.tooManyDigits count)) :
    count = ((c :: rest).takeWhile isDigit).length ∧ maxDigits < count := by
  have hreads := reads_first c rest
  rw [h] at hreads
  cases hreads with
  | tooLong hdigit hlong => exact ⟨by rw [List.takeWhile_cons_of_pos hdigit], hlong⟩

end Lexeme

/-- The tokens of the rest of a source, and the fault in it if there is one, are at places in the
source, before characters that are no newlines. -/
theorem Token.marks_of_scan {source : List Char} {place : Place} {text : List Char}
    (h : place.Marks source text) :
    (∀ t ∈ (scan place text).tokens, ∃ c rest, c ≠ '\n' ∧ t.place.Marks source (c :: rest)) ∧
    ∀ why p, (scan place text).ending = .fault why p →
      ∃ c rest, c ≠ '\n' ∧ p.Marks source (c :: rest) ∧ Lexeme.first c rest = .error why := by
  fun_induction scan place text with
  | case1 place => simp
  | case2 place c rest hspace ih =>
    have hc : c ≠ '\n' := by rintro rfl; cases hspace
    have hpiece : '\n' ∉ [c] := by simpa using Ne.symm hc
    exact ih (Place.Marks.advance h hpiece)
  | case3 place c rest hspace hline ih =>
    obtain rfl : c = '\n' := by simpa using hline
    exact ih h.newline
  | case4 place c rest hspace hline hcomment comment ih =>
    obtain rfl : c = '#' := by simpa using hcomment
    have hpiece : '\n' ∉ '#' :: rest.take comment.length := by
      rw [List.mem_cons, not_or]
      exact ⟨by decide, newline_not_mem_run (by decide) rest⟩
    exact ih (h.skip (List.takeWhile_prefix _).length_le hpiece)
  | case5 place c rest hspace hline hcomment why hfirst =>
    refine ⟨by simp, fun why' p hfault => ?_⟩
    cases hfault
    exact ⟨c, rest, by simpa using hline, h, hfirst⟩
  | case6 place c rest hspace hline hcomment lexeme length hfirst later ih =>
    obtain ⟨hpos, hlength, -⟩ := Lexeme.first_cut hfirst
    have hlater := h.skip hlength (Lexeme.newline_not_mem_first hfirst)
    rw [Nat.sub_add_cancel hpos] at hlater
    obtain ⟨htokens, hfault⟩ := ih hlater
    exact ⟨List.forall_mem_cons.2 ⟨⟨c, rest, by simpa using hline, h⟩, htokens⟩, hfault⟩

/-- A place reported for a text is that of a character in one of its rows. -/
theorem Lexed.exists_row_of_mem_places {source : String} {place : Place}
    (h : place ∈ (Token.lex source).places) :
    1 ≤ place.line ∧ ∃ row c, (rows source.toList)[place.line - 1]? = some row ∧
      row[place.column - 1]? = some c ∧ source.toList[place.offset]? = some c := by
  obtain ⟨htokens, hfault⟩ := Token.marks_of_scan (Place.marks_start source.toList)
  obtain ⟨c, rest, hc, hmarks⟩ :
      ∃ c rest, c ≠ '\n' ∧ place.Marks source.toList (c :: rest) := by
    rcases List.mem_append.1 h with h | h
    · obtain ⟨t, ht, rfl⟩ := List.mem_map.1 h
      exact htokens t ht
    · split at h
      · cases h
      · rename_i why p hending
        obtain rfl := List.mem_singleton.1 h
        obtain ⟨c, rest, hc, hmarks, -⟩ := hfault why place hending
        exact ⟨c, rest, hc, hmarks⟩
  obtain ⟨hline, row, hrow, hcolumn, hoffset⟩ := hmarks.exists_row hc
  exact ⟨hline, row, c, hrow, hcolumn, hoffset⟩

/-! ## Lines and rows -/

namespace Text

/-- No line ends within the text. -/
def Unbroken (text : List Char) : Prop := ∀ c ∈ text, isLineBreak c = false

instance (text : List Char) : Decidable (Unbroken text) :=
  List.decidableBAll (fun c => isLineBreak c = false) text

/-- A row that is one line: no line ends within it, but a carriage return may stand before the
newline. -/
def IsOneLine (row : List Char) : Prop :=
  Unbroken row ∨ row.getLast? = some '\r' ∧ Unbroken row.dropLast

instance (row : List Char) : Decidable (IsOneLine row) :=
  inferInstanceAs (Decidable (_ ∨ _ ∧ _))

/-- The first line of a text goes up to its first line break. -/
theorem headD_lines (text : List Char) :
    (lines text).headD [] = text.takeWhile fun c => !isLineBreak c := by
  fun_induction lines text with
  | case1 => rfl
  | case2 rest ih => rfl
  | case3 c rest hpair hbreak ih => simp [hbreak]
  | case4 c rest hpair hbreak hlines ih =>
    rw [hlines] at ih
    simp [hbreak, ← ih]
  | case5 c rest hpair hbreak first more hlines ih =>
    rw [hlines] at ih
    simp [hbreak, ← ih]

theorem lines_ne_nil {text : List Char} (h : text ≠ []) : lines text ≠ [] := by
  fun_cases lines text <;> simp_all

theorem Unbroken.lines_append {front rest : List Char} {more : List (List Char)}
    (h : Unbroken front) (hrest : lines rest = [] :: more) :
    lines (front ++ rest) = front :: more := by
  induction front with
  | nil => exact hrest
  | cons c front ih =>
    have hc : isLineBreak c = false := h c List.mem_cons_self
    have hfront := ih fun d hd => h d (List.mem_cons_of_mem c hd)
    rw [List.cons_append, lines, hfront]
    · simp [hc]
    · rintro tail rfl
      cases hc

/-- The first row of a text is its first line, and the lines of the rest follow. -/
theorem IsOneLine.lines_append {row : List Char} (h : IsOneLine row) (rest : List Char) :
    ∃ line, lines (row ++ '\n' :: rest) = line :: lines rest := by
  rcases h with hrow | ⟨hlast, hfront⟩
  · exact ⟨row, hrow.lines_append rfl⟩
  · obtain ⟨front, rfl⟩ := List.getLast?_eq_some_iff.1 hlast
    rw [List.dropLast_concat] at hfront
    refine ⟨front, ?_⟩
    rw [List.append_assoc]
    exact hfront.lines_append rfl

theorem trimRight_append_blanks {text blanks : List Char} (h : ∀ c ∈ blanks, isBlank c) :
    trimRight (text ++ blanks) = trimRight text := by
  unfold trimRight
  rw [List.reverse_append, List.dropWhile_append_of_pos]
  simpa using h

theorem exists_blanks (row : List Char) :
    ∃ blanks, row = trimRight row ++ blanks ∧ ∀ c ∈ blanks, isBlank c :=
  ⟨row.rtakeWhile isBlank, List.rdropWhile_append_rtakeWhile.symm,
    fun _ hc => List.mem_rtakeWhile_imp hc⟩

/-- What the first line of a text has beyond the first row, or the row beyond the line, is blank. -/
theorem exists_first_line {row : List Char} (tail : List Char) (hrow : row ≠ [])
    (htail : ∀ c ∈ tail.head?, c = '\n') (h : Unbroken (trimRight row)) :
    ∃ line more, lines (row ++ tail) = line :: more ∧ trimRight line = trimRight row := by
  have hne : row ++ tail ≠ [] := by simp [hrow]
  obtain ⟨line, more, hlines⟩ := List.exists_cons_of_ne_nil (lines_ne_nil hne)
  obtain ⟨blanks, hblanks, hblank⟩ := exists_blanks row
  refine ⟨line, more, hlines, ?_⟩
  have hline : line = (row ++ tail).takeWhile fun c => !isLineBreak c := by
    rw [← headD_lines, hlines]
    rfl
  have hfront : ∀ c ∈ trimRight row, (!isLineBreak c) = true := fun c hc => by simp [h c hc]
  -- the row goes on with blanks, and the line stops at the tail at the latest
  have hstop : ∀ c ∈ (blanks ++ tail).takeWhile (fun c => !isLineBreak c), isBlank c := by
    have hend : tail.takeWhile (fun c => !isLineBreak c) = [] := by
      rcases tail with _ | ⟨c, rest⟩
      · rfl
      · obtain rfl := htail c rfl
        rfl
    intro c hc
    rw [List.takeWhile_append, hend, List.append_nil] at hc
    split at hc
    · exact hblank c hc
    · exact hblank c ((List.takeWhile_prefix _).subset hc)
  rw [hblanks, List.append_assoc, List.takeWhile_append_of_pos hfront] at hline
  rw [hline, trimRight_append_blanks hstop]
  exact List.rdropWhile_idempotent isBlank row

/-- Where each row up to a given one is one line, the line of that number is the row. -/
theorem exists_line {text row : List Char} {k : Nat} (hk : (rows text)[k]? = some row)
    (hrow : row ≠ []) (hearlier : ∀ r ∈ (rows text).take k, IsOneLine r)
    (h : Unbroken (trimRight row)) :
    ∃ line, (lines text)[k]? = some line ∧ trimRight line = trimRight row := by
  induction k generalizing text with
  | zero =>
    by_cases hnewline : '\n' ∈ text
    · obtain ⟨first, rest, rfl, hfirst⟩ := List.eq_append_cons_of_mem hnewline
      rw [rows, List.splitOn_append_cons_self_of_not_mem hfirst] at hk
      obtain rfl : first = row := by simpa using hk
      obtain ⟨line, more, hlines, htrim⟩ := exists_first_line ('\n' :: rest) hrow (by simp) h
      exact ⟨line, by rw [hlines]; rfl, htrim⟩
    · rw [rows, List.splitOn_eq_singleton hnewline] at hk
      obtain rfl : text = row := by simpa using hk
      obtain ⟨line, more, hlines, htrim⟩ := exists_first_line [] hrow (by simp) h
      rw [List.append_nil] at hlines
      exact ⟨line, by rw [hlines]; rfl, htrim⟩
  | succ k ih =>
    have hnewline : '\n' ∈ text := by
      by_contra hnot
      rw [rows, List.splitOn_eq_singleton hnot] at hk
      simp at hk
    obtain ⟨first, rest, rfl, hfirst⟩ := List.eq_append_cons_of_mem hnewline
    rw [rows, List.splitOn_append_cons_self_of_not_mem hfirst] at hk hearlier
    rw [List.getElem?_cons_succ] at hk
    rw [List.take_succ_cons] at hearlier
    obtain ⟨line, hline, htrim⟩ := ih hk fun r hr => hearlier r (List.mem_cons_of_mem first hr)
    obtain ⟨before, hlines⟩ := (hearlier first List.mem_cons_self).lines_append rest
    exact ⟨line, by rw [hlines, List.getElem?_cons_succ, hline], htrim⟩

end Text

end LetPoly
