-- The excerpt in a report: the lines ahead of the line in question, that line
-- with a mark, and a caret below it. The room ahead of a line's text holds
-- numbers of up to four digits, and from line 10000 on the caret falls behind.
import LetPoly.Diagnostic
import Mathlib.Data.List.DropRight

namespace LetPoly

open Text

/-! ## Lines without their blanks -/

namespace Text

theorem trimRight_isPrefix (line : List Char) : trimRight line <+: line :=
  List.rdropWhile_prefix isBlank line

/-- Cutting the blanks off a line leaves the characters before them in their places. -/
theorem getElem?_trimRight {text : List Char} {i : Nat} (h : i < (trimRight text).length) :
    (trimRight text)[i]? = text[i]? := by
  obtain ⟨blanks, htext⟩ := trimRight_isPrefix text
  rw [← List.getElem?_append_left h, htext]

theorem joinWith_cons_cons (separator text next : String) (more : List String) :
    joinWith separator (text :: next :: more) =
      text ++ separator ++ joinWith separator (next :: more) := rfl

/-- Joined texts begin with the first of them. -/
theorem exists_joinWith_cons (separator text : String) (more : List String) :
    ∃ rest, joinWith separator (text :: more) = text ++ rest := by
  cases more with
  | nil => exact ⟨"", by simp [joinWith]⟩
  | cons next more =>
    exact ⟨separator ++ joinWith separator (next :: more), by
      rw [joinWith_cons_cons, String.append_assoc]⟩

/-- Joined texts end with the last of them. -/
theorem exists_joinWith_concat (separator text : String) (front : List String) :
    ∃ ahead, joinWith separator (front ++ [text]) = ahead ++ text := by
  induction front with
  | nil => exact ⟨"", by simp [joinWith]⟩
  | cons first front ih =>
    obtain ⟨ahead, hahead⟩ := ih
    obtain ⟨next, more, hmore⟩ := List.exists_cons_of_ne_nil (l := front ++ [text]) (by simp)
    refine ⟨first ++ separator ++ ahead, ?_⟩
    rw [List.cons_append, hmore, joinWith_cons_cons, ← hmore, hahead]
    simp only [String.append_assoc]

theorem length_padLeft (width : Nat) (text : String) :
    (padLeft width text).length = max width text.length := by
  unfold padLeft
  rw [String.length_append, String.length_ofList, List.length_replicate]
  omega

end Text

/-! ## The lines of an excerpt -/

/-- The lines that an excerpt shows ahead of the given one. -/
def linesAhead (source : String) (line : Nat) : List String :=
  (((lines source.toList).take (line - 1)).drop (line - 3)).zipIdx.map fun (text, i) =>
    excerptLine false (line - 3 + i + 1) text

/-- No line ahead has the mark. -/
theorem exists_of_mem_linesAhead {source : String} {line : Nat} {shown : String}
    (h : shown ∈ linesAhead source line) :
    ∃ number text, shown = excerptLine false number text := by
  obtain ⟨⟨text, i⟩, -, rfl⟩ := List.mem_map.1 h
  exact ⟨_, text, rfl⟩

theorem take_succ_drop_eq {α : Type} {xs : List α} {x : α} {n k : Nat} (h : xs[n]? = some x)
    (hk : k ≤ n) : (xs.take (n + 1)).drop k = (xs.take n).drop k ++ [x] := by
  have hn : n < xs.length := (List.getElem?_eq_some_iff.1 h).1
  rw [List.take_add_one, h, List.drop_append_of_le_length (by simp; omega)]
  rfl

/-- An excerpt is the lines ahead and then the line in question, which alone has the mark. -/
theorem excerpt_eq {source : String} {line : Nat} {text : List Char} (hline : 1 ≤ line)
    (h : (lines source.toList)[line - 1]? = some text) :
    excerpt source line 2 =
      some (joinWith "\n" (linesAhead source line ++ [excerptLine true line text])) := by
  obtain ⟨n, rfl⟩ : ∃ n, line = n + 1 := ⟨line - 1, by omega⟩
  rw [Nat.add_sub_cancel] at h
  have hn : n < (lines source.toList).length := (List.getElem?_eq_some_iff.1 h).1
  have hstart : (((n + 1 : Nat) : Int) - 2 - 1).toNat = n + 1 - 3 := by omega
  have hshown := take_succ_drop_eq h (show n + 1 - 3 ≤ n by omega)
  have hlength : (((lines source.toList).take n).drop (n + 1 - 3)).length = n - (n + 1 - 3) := by
    rw [List.length_drop, List.length_take, Nat.min_eq_left hn.le]
  unfold excerpt
  simp only [hstart, Int.toNat_natCast, hshown]
  rw [if_pos (by omega), List.zipIdx_append, List.map_append, hlength]
  congr 2
  -- of the numbers of the lines shown only the last is the line's own
  have hahead : ∀ pair ∈ (((lines source.toList).take n).drop (n + 1 - 3)).zipIdx,
      (n + 1 - 3 + pair.2 + 1 == n + 1) = false := by
    intro pair hpair
    have hindex : pair.2 < n - (n + 1 - 3) := by
      have := List.snd_lt_of_mem_zipIdx hpair
      omega
    exact beq_eq_false_iff_ne.2 (by omega)
  have hlast : n + 1 - 3 + (0 + (n - (n + 1 - 3))) = n := by omega
  congr 1
  · unfold linesAhead
    apply List.map_congr_left
    intro pair hpair
    rw [hahead pair hpair]
  · simp only [List.zipIdx_cons, List.zipIdx_nil, List.map_cons, List.map_nil, hlast,
      beq_self_eq_true]

/-! ## The caret -/

/-- The part of an excerpt's line ahead of its text. -/
def gutter (marked : Bool) (number : Nat) : String :=
  (if marked then "> " else "  ") ++ padLeft 4 (toString number) ++ " | "

theorem excerptLine_eq (marked : Bool) (number : Nat) (text : List Char) :
    excerptLine marked number text = gutter marked number ++ String.ofList (trimRight text) := rfl

theorem length_gutter (marked : Bool) (number : Nat) :
    (gutter marked number).length = 9 + ((toString number).length - 4) := by
  unfold gutter
  rw [String.length_append, String.length_append, length_padLeft]
  have hmark : (if marked then "> " else "  ").length = 2 := by cases marked <;> rfl
  have hbar : (" | ").length = 3 := rfl
  omega

/-- The text of an excerpt's line starts after the gutter. -/
theorem getElem?_excerptLine (marked : Bool) (number : Nat) {text : List Char} {i : Nat}
    (h : i < (trimRight text).length) :
    (excerptLine marked number text).toList[9 + ((toString number).length - 4) + i]? =
      text[i]? := by
  rw [excerptLine_eq, String.toList_append, String.toList_ofList, ← length_gutter marked number,
    ← String.length_toList, List.getElem?_append_right (by omega), Nat.add_sub_cancel_left]
  exact getElem?_trimRight h

theorem caret_eq {column : Nat} (h : 1 ≤ column) :
    Diagnostic.caret column = String.ofList (List.replicate (8 + column) ' ') ++ "^" := by
  unfold Diagnostic.caret excerptGutter
  have hwidth : ((9 : Int) + column - 1).toNat = 8 + column := by omega
  rw [hwidth]

/-- A number has at most four digits just if it is below 10000. -/
theorem shift_eq_zero_iff (number : Nat) : (toString number).length - 4 = 0 ↔ number ≤ 9999 := by
  have h := Nat.length_repr_le_iff (n := number) (k := 4) (by decide)
  rw [Nat.toString_eq_repr, Nat.sub_eq_zero_iff_le, h]
  omega

namespace Diagnostic

/-- The context that a report gets, where its line is one of the source. -/
theorem context_withContext {d : Diagnostic} {source file : String} {line : Nat} {column : Int}
    {text : List Char} (hcontext : d.context = none)
    (hlocation : d.location = some ⟨file, line, column⟩)
    (hline : 1 ≤ line) (htext : (lines source.toList)[line - 1]? = some text) :
    d.withContext source = { d with
      context := some <|
        joinWith "\n" (linesAhead source line ++ [excerptLine true line text]) } := by
  unfold withContext
  simp only [hcontext, hlocation, excerpt_eq hline htext]

/-- A report with a line of the source: the headline, the excerpt, the caret, and what follows. -/
theorem render_withContext {d : Diagnostic} {source file : String} {line column : Nat}
    {text : List Char} (hcontext : d.context = none)
    (hlocation : d.location = some ⟨file, line, column⟩) (hline : 1 ≤ line)
    (htext : (lines source.toList)[line - 1]? = some text) (hcolumn : 1 ≤ column) :
    ∃ below, (d.withContext source).render =
      d.headline ++ "\n\nContext:\n" ++
        joinWith "\n" (linesAhead source line ++ [excerptLine true line text]) ++ "\n" ++
        String.ofList (List.replicate (8 + column) ' ') ++ "^" ++ below := by
  rw [context_withContext hcontext hlocation hline htext]
  obtain ⟨ahead, hahead⟩ :=
    exists_joinWith_concat "\n" (excerptLine true line text) (linesAhead source line)
  generalize joinWith "\n" (linesAhead source line ++ [excerptLine true line text]) = shown
    at hahead ⊢
  have hshown : ¬shown.isEmpty := by
    rw [hahead, excerptLine_eq]
    simp [gutter]
  have hparts : ({ d with context := some shown } : Diagnostic).contextParts =
      ["\nContext:", shown, caret column] := by
    unfold contextParts
    simp only [hlocation, if_neg hshown]
    rw [if_neg (by omega)]
    rfl
  obtain ⟨rest, hrest⟩ := exists_joinWith_cons "\n" (caret column) d.noteParts
  refine ⟨rest ++ d.appendix, ?_⟩
  calc ({ d with context := some shown } : Diagnostic).render
      = joinWith "\n" (d.headline :: "\nContext:" :: shown :: caret column :: d.noteParts) ++
          d.appendix := by
        unfold render
        rw [hparts]
        rfl
    _ = d.headline ++ "\n" ++ ("\nContext:" ++ "\n" ++ (shown ++ "\n" ++
          (caret column ++ rest))) ++ d.appendix := by
        rw [joinWith_cons_cons, joinWith_cons_cons, joinWith_cons_cons, hrest]
    _ = d.headline ++ "\n\nContext:\n" ++ shown ++ "\n" ++
          String.ofList (List.replicate (8 + column) ' ') ++ "^" ++ (rest ++ d.appendix) := by
        have hhead : "\n" ++ ("\nContext:" ++ "\n") = "\n\nContext:\n" := rfl
        rw [caret_eq hcolumn, ← hhead]
        simp only [String.append_assoc]

end Diagnostic

/-! ## What stands above the caret -/

theorem isLineBreak_of_mem_lines {source line : List Char} (h : line ∈ lines source) :
    ∀ c ∈ line, isLineBreak c = false := by
  fun_induction lines source generalizing line with
  | case1 => cases h
  | case2 rest ih =>
    rcases List.mem_cons.1 h with rfl | hrest
    · simp
    · exact ih hrest
  | case3 c rest hpair hbreak ih =>
    rcases List.mem_cons.1 h with rfl | hrest
    · simp
    · exact ih hrest
  | case4 c rest hpair hbreak hlines ih =>
    obtain rfl := List.mem_singleton.1 h
    simpa using hbreak
  | case5 c rest hpair hbreak first more hlines ih =>
    rw [hlines] at ih
    rcases List.mem_cons.1 h with rfl | hrest
    · simpa [hbreak] using ih List.mem_cons_self
    · exact ih (List.mem_cons_of_mem _ hrest)

theorem newline_not_mem_gutter (marked : Bool) (number : Nat) :
    '\n' ∉ (gutter marked number).toList := by
  have hmark : '\n' ∉ (if marked then "> " else "  ").toList := by cases marked <;> decide
  have hnumber : '\n' ∉ Nat.toDigits 10 number := fun h =>
    absurd (Nat.isDigit_of_mem_toDigits (by decide) (by decide) h) (by decide)
  unfold gutter padLeft
  simp [hmark, hnumber]

/-- A line of an excerpt is one line. -/
theorem newline_not_mem_excerptLine {source : String} {line number : Nat} {text : List Char}
    (marked : Bool) (h : (lines source.toList)[line]? = some text) :
    '\n' ∉ (excerptLine marked number text).toList := by
  rw [excerptLine_eq, String.toList_append, List.mem_append, String.toList_ofList]
  rintro (hgutter | htext)
  · exact newline_not_mem_gutter marked number hgutter
  · have hbreak := isLineBreak_of_mem_lines (List.mem_of_getElem? h) '\n'
      ((trimRight_isPrefix text).subset htext)
    exact absurd hbreak (by decide)

/-- In a report on a column of a line of the source, the excerpt ends with that line, and below it
stands a caret. Up to line 9999 the character right above the caret is the one in that column.
Further down it stands to the right of the caret, by the digits that the line's number has beyond
four. -/
theorem the_caret_points_at_the_character (source : String) (d : Diagnostic) (file : String)
    (line column : Nat) (text : List Char) (hcontext : d.context = none)
    (hlocation : d.location = some ⟨file, line, column⟩) (hline : 1 ≤ line)
    (htext : (lines source.toList)[line - 1]? = some text) (hcolumn : 1 ≤ column)
    (hwidth : column ≤ (trimRight text).length) :
    ∃ (ahead : List String) (indent : Nat) (below : String),
      (d.withContext source).render =
        d.headline ++ "\n\nContext:\n" ++ joinWith "\n" (ahead ++ [excerptLine true line text]) ++
          "\n" ++ String.ofList (List.replicate indent ' ') ++ "^" ++ below ∧
      (∀ shown ∈ ahead, ∃ number text, shown = excerptLine false number text) ∧
      '\n' ∉ (excerptLine true line text).toList ∧ text[column - 1]?.isSome ∧
      (line ≤ 9999 → (excerptLine true line text).toList[indent]? = text[column - 1]?) ∧
      (excerptLine true line text).toList[indent + ((toString line).length - 4)]? =
        text[column - 1]? := by
  obtain ⟨below, hrender⟩ :=
    Diagnostic.render_withContext hcontext hlocation hline htext hcolumn
  have hindex : column - 1 < (trimRight text).length := by omega
  have habove := getElem?_excerptLine true line hindex
  have hplace : 9 + ((toString line).length - 4) + (column - 1) =
      8 + column + ((toString line).length - 4) := by omega
  rw [hplace] at habove
  refine ⟨linesAhead source line, 8 + column, below, hrender,
    fun shown => exists_of_mem_linesAhead, newline_not_mem_excerptLine true htext, ?_, ?_, habove⟩
  · have hlength := (trimRight_isPrefix text).length_le
    rw [List.getElem?_eq_getElem (by omega)]
    rfl
  · intro hfit
    have hshift := (shift_eq_zero_iff line).2 hfit
    simpa only [hshift, Nat.add_zero] using habove

/-- On line 2 the caret is right below the character in column 8. -/
theorem the_caret_points_at_the_character_on_line_two :
    ∃ (ahead : List String) (indent : Nat) (below : String),
      ((Diagnostic.plain "TypeError" "unknown type 'm'" (some ⟨"a.sfl", 2, 8⟩)).withContext
          "let x = 1;\nlet y: m = 2; \n").render =
        "TypeError at a.sfl:2:8: unknown type 'm'" ++ "\n\nContext:\n" ++
          joinWith "\n" (ahead ++ [">    2 | let y: m = 2;"]) ++
          "\n" ++ String.ofList (List.replicate indent ' ') ++ "^" ++ below ∧
      ">    2 | let y: m = 2;".toList[indent]? = some 'm' := by
  obtain ⟨ahead, indent, below, hrender, -, -, -, habove, -⟩ :=
    the_caret_points_at_the_character "let x = 1;\nlet y: m = 2; \n"
      (Diagnostic.plain "TypeError" "unknown type 'm'" (some ⟨"a.sfl", 2, 8⟩)) "a.sfl" 2 8
      "let y: m = 2; ".toList rfl rfl (by decide) (by decide +kernel) (by decide)
      (by decide +kernel)
  exact ⟨ahead, indent, below, hrender, habove (by decide)⟩

/-! ## A number with five digits -/

theorem lines_replicate_newline (n : Nat) (rest : List Char) :
    lines (List.replicate n '\n' ++ rest) = List.replicate n [] ++ lines rest := by
  induction n with
  | zero => rfl
  | succ n ih =>
    rw [List.replicate_succ, List.replicate_succ, List.cons_append, List.cons_append, ← ih]
    rfl

/-- The report on a character after newlines alone, from the third line on. -/
theorem render_after_newlines {d : Diagnostic} {file : String} {n : Nat} {column : Int} (c : Char)
    (hc : isLineBreak c = false) (hcontext : d.context = none)
    (hlocation : d.location = some ⟨file, (n + 3 : Nat), column⟩) :
    d.withContext (String.ofList (List.replicate (n + 2) '\n' ++ [c])) = { d with
      context := some (joinWith "\n" [excerptLine false (n + 1) [], excerptLine false (n + 2) [],
        excerptLine true (n + 3) [c]]) } := by
  have hlines : lines (String.ofList (List.replicate (n + 2) '\n' ++ [c])).toList =
      List.replicate (n + 2) [] ++ [[c]] := by
    rw [String.toList_ofList, lines_replicate_newline]
    simp [lines, hc]
  have htext : (lines (String.ofList (List.replicate (n + 2) '\n' ++ [c])).toList)[n + 3 - 1]? =
      some [c] := by
    rw [hlines]
    simp
  have hahead : linesAhead (String.ofList (List.replicate (n + 2) '\n' ++ [c])) (n + 3) =
      [excerptLine false (n + 1) [], excerptLine false (n + 2) []] := by
    unfold linesAhead
    rw [hlines]
    simp
  rw [Diagnostic.context_withContext hcontext hlocation (by omega) htext, hahead]
  rfl

/-- On line 10000 the caret is below the blank before the character. -/
theorem the_caret_falls_behind_on_line_10000 :
    ((Diagnostic.plain "LexError" "Illegal character '?'"
        (some ⟨"<unknown>", 10000, 1⟩)).withContext
          (String.ofList (List.replicate 9999 '\n' ++ ['?']))).render =
      "LexError at <unknown>:10000:1: Illegal character '?'\n\nContext:\n" ++
        "  9998 | \n" ++
        "  9999 | \n" ++
        "> 10000 | ?\n" ++
        "         ^" ∧
      "> 10000 | ?".toList[9]? = some ' ' := by
  refine ⟨?_, by decide⟩
  rw [render_after_newlines (n := 9997) '?' (by decide) rfl rfl]
  decide +kernel

end LetPoly
