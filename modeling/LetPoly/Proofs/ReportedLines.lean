-- The line that a report shows. The place of an error is that of a token or of a
-- character that cannot be read, and the excerpt ends with the row of that place,
-- unless the rows up to it have line breaks other than newlines.
import LetPoly.Proofs.ErrorLocations
import LetPoly.Proofs.Places

namespace LetPoly

open Text

/-! ## Excerpts at places -/

/-- The rows of a text before the given one are one line each, and so is that row up to the blanks
at its end. -/
structure Text.RowsAreLines (text : List Char) (line : Nat) : Prop where
  earlier : ∀ row ∈ (rows text).take (line - 1), IsOneLine row
  last : ∀ row, (rows text)[line - 1]? = some row → Unbroken (trimRight row)

theorem excerptLine_congr {line row : List Char} (h : trimRight line = trimRight row)
    (marked : Bool) (number : Nat) :
    excerptLine marked number line = excerptLine marked number row := by
  rw [excerptLine_eq, excerptLine_eq, h]

/-- The excerpt at a place ends with the row of the place. -/
theorem Diagnostic.context_at_place {d : Diagnostic} {source file : String} {place : Place}
    {row : List Char} {c : Char} (hcontext : d.context = none)
    (hlocation : d.location = some (place.location file)) (hline : 1 ≤ place.line)
    (hrow : (rows source.toList)[place.line - 1]? = some row)
    (hcolumn : row[place.column - 1]? = some c)
    (hrows : RowsAreLines source.toList place.line) :
    (d.withContext source).context =
      some (joinWith "\n" (linesAhead source place.line ++ [excerptLine true place.line row])) := by
  have hne : row ≠ [] := by
    rintro rfl
    simp at hcolumn
  obtain ⟨line, htext, htrim⟩ := exists_line hrow hne hrows.earlier (hrows.last row hrow)
  rw [context_withContext hcontext hlocation hline htext, excerptLine_congr htrim]

/-! ## Where reports are located -/

/-- A report on a source that is located in it: on a character that cannot be read, on a token
that is refused, on an error of types, or on an error of a run that was not cut off. -/
inductive Reported (source file : String) : Diagnostic → Prop
  | unreadable {why : LexFault} {place : Place}
      (hread : Program.read source file = .error (.lexical why place)) :
    Reported source file ((ReadFault.lexical why place).diagnostic file)
  | refused {t : Token} (hread : Program.read source file = .error (.unexpectedToken t)) :
    Reported source file ((ReadFault.unexpectedToken t).diagnostic file)
  | mistyped {p : Program} {options : CheckOptions} {c : Checked} {e : TypeError}
      (hread : Program.read source file = .ok p) (hcheck : p.check options = .ok c)
      (he : e ∈ c.errors) : Reported source file e.diagnostic
  | failed {p : Program} {depth : Nat} {e : EvalError}
      (hread : Program.read source file = .ok p) (hrun : p.run depth = .error (.error e))
      (he : e ≠ ⟨.depthExceeded, p.tag⟩) : Reported source file e.diagnostic

theorem TokenLocation.exists_place {source file : String} {l : Option Location}
    (h : TokenLocation source file l) :
    ∃ place ∈ (Token.lex source).places, l = some (place.location file) := by
  obtain ⟨t, ht, hl⟩ := h
  exact ⟨t.place, Lexed.place_mem_places ht, hl⟩

/-- Such a report is located at a place of its source. -/
theorem Reported.exists_place {source file : String} {d : Diagnostic}
    (h : Reported source file d) : d.context = none ∧
      ∃ place ∈ (Token.lex source).places, d.location = some (place.location file) := by
  cases h with
  | @unreadable why place hread =>
    exact ⟨rfl, place, Lexed.fault_mem_places (unreadable_place hread).1, rfl⟩
  | @refused t hread =>
    obtain ⟨k, ht, -⟩ := refused_token hread
    exact ⟨rfl, t.place, Lexed.place_mem_places (List.mem_of_getElem? ht), rfl⟩
  | mistyped hread hcheck he =>
    have hlocated := Program.located_of_check (Program.located_of_read hread) hcheck _ he
    exact ⟨rfl, TokenLocation.exists_place hlocated⟩
  | failed hread hrun he =>
    rcases Program.located_of_run (Program.located_of_read hread) hrun with hlocated | hcut
    · exact ⟨rfl, TokenLocation.exists_place hlocated⟩
    · exact absurd hcut he

/-! ## The law of the line shown -/

/-- A place that is reported for a token, or for a character that cannot be read, is that of a
character in one of the rows. A report at the place gets an excerpt that ends with this row, with
the mark that no other line has, if the rows up to it are lines: apart from newlines and a carriage
return before one, they hold no line break but among the blanks at the end. All located reports
are at such places. -/
theorem the_excerpt_ends_with_the_line_of_the_error (source file : String) :
    (∀ place ∈ (Token.lex source).places, ∃ row c,
      (rows source.toList)[place.line - 1]? = some row ∧ row[place.column - 1]? = some c ∧
      source.toList[place.offset]? = some c ∧
      (RowsAreLines source.toList place.line → ∀ d : Diagnostic, d.context = none →
        d.location = some (place.location file) → ∃ ahead,
          (d.withContext source).context =
            some (joinWith "\n" (ahead ++ [excerptLine true place.line row])) ∧
          ∀ shown ∈ ahead, ∃ number text, shown = excerptLine false number text)) ∧
    ∀ d, Reported source file d → d.context = none ∧
      ∃ place ∈ (Token.lex source).places, d.location = some (place.location file) := by
  refine ⟨fun place hplace => ?_, fun d hd => hd.exists_place⟩
  obtain ⟨hline, row, c, hrow, hcolumn, hoffset⟩ := Lexed.exists_row_of_mem_places hplace
  refine ⟨row, c, hrow, hcolumn, hoffset, fun hrows d hcontext hlocation => ?_⟩
  refine ⟨linesAhead source place.line, ?_, fun shown => exists_of_mem_linesAhead⟩
  exact Diagnostic.context_at_place hcontext hlocation hline hrow hcolumn hrows

/-- The report on a question mark in the second line, after a comment and a carriage return. -/
theorem the_excerpt_ends_with_the_line_of_the_error_after_a_comment :
    ⟨2, 3, 7⟩ ∈ (Token.lex "# a\r\n1 ? \n").places ∧ RowsAreLines "# a\r\n1 ? \n".toList 2 ∧
    ∃ ahead, (((ReadFault.lexical (.illegal '?') ⟨2, 3, 7⟩).diagnostic "").withContext
        "# a\r\n1 ? \n").context =
      some (joinWith "\n" (ahead ++ [">    2 | 1 ?"])) := by
  have hmem : ⟨2, 3, 7⟩ ∈ (Token.lex "# a\r\n1 ? \n").places := by
    have hplaces : (Token.lex "# a\r\n1 ? \n").places = [⟨2, 1, 5⟩, ⟨2, 3, 7⟩] := by cbv
    rw [hplaces]
    simp
  have hsecond : (rows "# a\r\n1 ? \n".toList)[1]? = some "1 ? ".toList := by decide +kernel
  have hrows : RowsAreLines "# a\r\n1 ? \n".toList 2 := by
    refine ⟨by decide +kernel, fun row hrow => ?_⟩
    cases hsecond.symm.trans hrow
    decide
  obtain ⟨hplace, -⟩ := the_excerpt_ends_with_the_line_of_the_error "# a\r\n1 ? \n" ""
  obtain ⟨row, c, hrow, -, -, hcontext⟩ := hplace ⟨2, 3, 7⟩ hmem
  cases hsecond.symm.trans hrow
  obtain ⟨ahead, hahead, -⟩ :=
    hcontext hrows ((ReadFault.lexical (.illegal '?') ⟨2, 3, 7⟩).diagnostic "") rfl rfl
  exact ⟨hmem, hrows, ahead, hahead⟩

/-- A vertical tab ends a line of an excerpt, and a comment may hold one. The report on the
question mark in the second row then shows the empty line after the tab. -/
theorem a_vertical_tab_moves_the_excerpt_off_the_line_of_the_error :
    Program.read "#\x0b\n?" "<unknown>" = .error (.lexical (.illegal '?') ⟨2, 1, 3⟩) ∧
      (rows "#\x0b\n?".toList)[1]? = some ['?'] ∧
      (((ReadFault.lexical (.illegal '?') ⟨2, 1, 3⟩).diagnostic "<unknown>").withContext
        "#\x0b\n?").context = some "     1 | #\n>    2 | " := by
  refine ⟨by cbv, by decide +kernel, by decide +kernel⟩

end LetPoly
