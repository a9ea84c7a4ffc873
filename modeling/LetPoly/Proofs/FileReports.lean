-- What is written about a file. A failure of the source is told in reports that say
-- where it is. The command itself fails on numbers only: on one in the source that is
-- too long to read, and on a result that is too long to show.
import Mathlib.Data.Nat.Digits.Lemmas
import LetPoly.CommandLine
import LetPoly.Proofs.ReportedLines
import LetPoly.Proofs.SettledStages
import LetPoly.Proofs.TypeSafety

namespace LetPoly

open Text (joinWith isDigit maxDigits showInt?)

/-! ## Numbers that are too long -/

/-- Of all values only a number can be too long to show. -/
theorem Value.text?_eq_none {v : Value} :
    v.text? = none ↔ ∃ n, v = .number n ∧ maxDigits < (Nat.digits 10 n.natAbs).length := by
  cases v with
  | unit => simp [text?]
  | boolean b => cases b <;> simp [text?]
  | closure => simp [text?]
  | number n =>
    have hlong : maxDigits < (Nat.digits 10 n.natAbs).length ↔
        ¬ n.natAbs < Nat.pow 10 maxDigits := by
      rw [Nat.lt_digits_length_iff (by decide), not_lt, Nat.pow_eq]
    simp only [text?, showInt?, number.injEq, exists_eq_left', hlong]
    split <;> simp_all

/-- A number with more digits than can be read is reached in a text, after tokens with which a
program can start. -/
def LongNumeral (source : String) (count : Nat) : Prop :=
  ∃ place, (Token.lex source).ending = .fault (.tooManyDigits count) place ∧
    count = ((source.toList.drop place.offset).takeWhile isDigit).length ∧ maxDigits < count ∧
    ∃ more, Grammatical ((Token.lex source).tokens ++ more)

theorem StartsProgram.grammatical {file : String} {ts : List Token} (h : StartsProgram file ts) :
    ∃ more, Grammatical (ts ++ more) := by
  obtain ⟨text, p, more, hread, htokens⟩ := h
  obtain ⟨d, hword, -⟩ := Parser.derivation_of_ok (of_read_eq_ok hread).1
  exact ⟨more, d, hword.trans htokens⟩

/-- A place where nothing can be read is what reading fails at, if the tokens before it start a
program. -/
theorem read_of_fault {source file : String} {why : LexFault} {place : Place} {more : List Token}
    (hending : (Token.lex source).ending = .fault why place)
    (hmore : Grammatical ((Token.lex source).tokens ++ more)) :
    Program.read source file = .error (.lexical why place) := by
  rcases read_cases source file with ⟨_, _, -, hcomplete, -⟩ | ⟨t, _, -, herror⟩ |
    ⟨_, -, hcomplete, -⟩ | ⟨why', place', -, hending', herror⟩
  · cases hending.symm.trans hcomplete
  · obtain ⟨k, -, -, hnone, -⟩ := refused_token herror
    refine absurd ?_ (hnone ((Token.lex source).tokens.drop (k + 1) ++ more))
    rwa [← List.append_assoc, List.take_append_drop]
  · cases hending.symm.trans hcomplete
  · cases hending.symm.trans hending'
    exact herror

theorem read_eq_tooManyDigits {source file : String} {count : Nat} :
    (∃ place, Program.read source file = .error (.lexical (.tooManyDigits count) place)) ↔
      LongNumeral source count := by
  constructor
  · rintro ⟨place, hread⟩
    obtain ⟨hending, hstarts⟩ := unreadable_place hread
    obtain ⟨c, rest, -, hmarks, hfirst⟩ :=
      (Token.marks_of_scan (Place.marks_start source.toList)).2 _ place hending
    obtain ⟨hcount, hlong⟩ := Lexeme.first_tooManyDigits hfirst
    exact ⟨place, hending, by rw [hmarks.drop_offset, hcount], hlong, hstarts.grammatical⟩
  · rintro ⟨place, hending, -, -, more, hmore⟩
    exact ⟨place, read_of_fault hending hmore⟩

namespace CommandLine

/-! ## Ordinary output -/

/-- The labels of reports on failures of the source. -/
def failureLabels : List String := ["LexError", "ParseError", "TypeError", "RuntimeError"]

/-- A report on a failure of the source, which tells where in the file it is. -/
structure Located (file : String) (d : Diagnostic) : Prop where
  label : d.label ∈ failureLabels
  location : ∃ l, d.location = some l ∧ l.file = file

/-- What is written when the command itself does not fail: results, the log if it is asked for,
and located reports. -/
inductive Ordinary (o : Options) (source file : String) : Write → Prop
  | result {text : String} : Ordinary o source file (.out text)
  | log {line : LogLine} : o.debug = true → Ordinary o source file (complain line.text)
  | report {d : Diagnostic} : Located file d →
    Ordinary o source file (complain (d.withContext source).render)

theorem complain_injective {text text' : String} (h : complain text = complain text') :
    text = text' := by
  have htexts : (text ++ "\n").toList = (text' ++ "\n").toList := by rw [Write.err.inj h]
  rw [String.toList_append, String.toList_append, List.append_left_inj] at htexts
  exact String.toList_inj.1 htexts

theorem exists_render (d : Diagnostic) : ∃ rest, d.render = d.label ++ rest := by
  obtain ⟨rest, hrest⟩ := Text.exists_joinWith_cons "\n" d.headline (d.contextParts ++ d.noteParts)
  unfold Diagnostic.render
  rw [hrest]
  unfold Diagnostic.headline
  simp only [String.append_assoc]
  exact ⟨_, rfl⟩

theorem label_withContext (d : Diagnostic) (source : String) :
    (d.withContext source).label = d.label := by
  unfold Diagnostic.withContext
  split <;> rfl

theorem Located.render_ne {file : String} {d : Diagnostic} (h : Located file d) (source : String) :
    (d.withContext source).render ≠ "Internal Error:" := by
  obtain ⟨rest, hrest⟩ := exists_render (d.withContext source)
  rw [hrest, label_withContext]
  intro heq
  have hhead := congrArg (fun text : String => text.toList.head?) heq
  have hlabel := h.label
  simp only [failureLabels, List.mem_cons, List.not_mem_nil, or_false] at hlabel
  rcases hlabel with hlabel | hlabel | hlabel | hlabel <;> simp [hlabel] at hhead

theorem text_ne_internal (line : LogLine) : line.text ≠ "Internal Error:" := by
  intro heq
  have hdash : '-' ∈ line.text.toList := by simp [LogLine.text]
  rw [heq] at hdash
  revert hdash
  decide

theorem Ordinary.ne_internal {o : Options} {source file : String} {w : Write}
    (h : Ordinary o source file w) : w ≠ complain "Internal Error:" := by
  cases h with
  | result => exact nofun
  | log _ => exact fun heq => text_ne_internal _ (complain_injective heq)
  | report hd => exact fun heq => hd.render_ne source (complain_injective heq)

variable {o : Options} {source file : String}

theorem ordinary_logged (o : Options) (source file : String) (lines : List LogLine) :
    ∀ w ∈ logged o lines, Ordinary o source file w := by
  unfold logged
  split
  · rename_i hdebug
    intro w hw
    obtain ⟨line, -, rfl⟩ := List.mem_map.1 hw
    exact .log hdebug
  · exact nofun

theorem ordinary_say (texts : List String) :
    ∀ w ∈ texts.map say, Ordinary o source file w := by
  intro w hw
  obtain ⟨text, -, rfl⟩ := List.mem_map.1 hw
  exact .result

/-! ## Reports on a file -/

/-- A report on a file that tells of nothing but the source: all that is written is ordinary, and
where something is wrong there is a report on it. -/
structure FileReport.Plain (o : Options) (source file : String) (r : FileReport) : Prop where
  ordinary : ∀ w ∈ r.writes, Ordinary o source file w
  failed : r.ok = false → ∃ d, Located file d ∧ complain (d.withContext source).render ∈ r.writes

/-- The command fails on a file just if the condition holds, and otherwise tells of nothing but the
source. -/
def FileReport.FailsIff (o : Options) (source file : String) (cond : Prop) (r : FileReport) :
    Prop :=
  cond ∧ complain "Internal Error:" ∈ r.writes ∨ ¬cond ∧ r.Plain o source file

theorem FileReport.FailsIff.prepend {cond : Prop} {r : FileReport}
    (h : r.FailsIff o source file cond) {front : List Write}
    (hfront : ∀ w ∈ front, Ordinary o source file w) :
    FileReport.FailsIff o source file cond ⟨front ++ r.writes, r.ok⟩ := by
  rcases h with ⟨hcond, htold⟩ | ⟨hcond, hplain⟩
  · exact .inl ⟨hcond, List.mem_append_right front htold⟩
  · refine .inr ⟨hcond, List.forall_mem_append.2 ⟨hfront, hplain.ordinary⟩, fun hfailed => ?_⟩
    obtain ⟨d, hd, hmem⟩ := hplain.failed hfailed
    exact ⟨d, hd, List.mem_append_right front hmem⟩

theorem FileReport.FailsIff.told_iff {cond : Prop} {r : FileReport}
    (h : r.FailsIff o source file cond) : complain "Internal Error:" ∈ r.writes ↔ cond := by
  rcases h with ⟨hcond, htold⟩ | ⟨hcond, hplain⟩
  · exact ⟨fun _ => hcond, fun _ => htold⟩
  · exact ⟨fun htold => absurd rfl (hplain.ordinary _ htold).ne_internal,
      fun h => absurd h hcond⟩

theorem FileReport.FailsIff.plain {cond : Prop} {r : FileReport}
    (h : r.FailsIff o source file cond) (hquiet : complain "Internal Error:" ∉ r.writes) :
    r.Plain o source file := by
  rcases h with ⟨-, htold⟩ | ⟨-, hplain⟩
  · exact absurd htold hquiet
  · exact hplain

/-- One located report, and nothing else. -/
theorem FileReport.plain_report {d : Diagnostic} (h : Located file d) :
    FileReport.Plain o source file ⟨[complain (d.withContext source).render], false⟩ :=
  ⟨List.forall_mem_singleton.2 (.report h), fun _ => ⟨d, h, List.mem_cons_self⟩⟩

/-! ## The stages -/

theorem location_of_read {p : Program} (h : Program.read source file = .ok p) :
    p.location = some ⟨file, 1, 1⟩ := by
  obtain ⟨d, -, rfl, -⟩ := Parser.derivation_of_ok (of_read_eq_ok h).1
  rfl

/-- How a program is checked on the command line. -/
abbrev Options.check (o : Options) : CheckOptions := ⟨[], o.resilient, 0, Table.empty⟩

/-- A program, run with calls nested at most as deep as given, ends in a number with too many
digits to be shown. -/
def LongResult (depth : Nat) (p : Program) : Prop :=
  ∃ n, p.run depth = .ok (.number n) ∧ maxDigits < (Nat.digits 10 n.natAbs).length

variable {depth : Nat}

/-- An error of a run is located, in the program or at its start. -/
theorem located_runError {p : Program} (hread : Program.read source file = .ok p) {e : EvalError}
    (hrun : p.run depth = .error (.error e)) : Located file e.diagnostic := by
  have hlabel : e.diagnostic.label ∈ failureLabels := by simp [failureLabels, EvalError.diagnostic,
    Diagnostic.plain]
  rcases Program.located_of_run (Program.located_of_read hread) hrun with ⟨t, -, hl⟩ | rfl
  · exact ⟨hlabel, t.location file, hl, rfl⟩
  · exact ⟨hlabel, _, location_of_read hread, rfl⟩

theorem located_typeError {p : Program} (hread : Program.read source file = .ok p)
    {options : CheckOptions} {c : Checked} (hcheck : p.check options = .ok c) {e : TypeError}
    (he : e ∈ c.errors) : Located file e.diagnostic := by
  have hlabel : e.diagnostic.label ∈ failureLabels := by simp [failureLabels, TypeError.diagnostic,
    Diagnostic.plain]
  obtain ⟨t, -, hl⟩ := Program.located_of_check (Program.located_of_read hread) hcheck e he
  exact ⟨hlabel, t.location file, hl, rfl⟩

theorem located_readFault (file : String) (fault : ReadFault) :
    Located file (fault.diagnostic file) := by
  have hlabel : (fault.diagnostic file).label ∈ failureLabels := by
    cases fault <;> simp [failureLabels, ReadFault.diagnostic, Diagnostic.plain]
  cases fault with
  | lexical why place => exact ⟨hlabel, _, rfl, rfl⟩
  | unexpectedToken t => exact ⟨hlabel, _, rfl, rfl⟩
  | unexpectedEnd line => exact ⟨hlabel, _, rfl, rfl⟩

/-- A run of a checked program can fail the command only by a number that is too long to show. -/
theorem failsIff_runProgram {p : Program} (hread : Program.read source file = .ok p)
    {c : Checked} (hcheck : p.check o.check = .ok c) (hok : c.ok = true) (path : String) :
    (runProgram depth o path source p).FailsIff o source file (LongResult depth p) := by
  have hlog := ordinary_logged o source file (p.runLog depth)
  -- a run that ends in an error has no result
  have herror : ∀ e, p.run depth = .error (.error e) →
      (runProgram depth o path source p).FailsIff o source file (LongResult depth p) := by
    intro e hrun
    have hreport : FileReport.FailsIff o source file (LongResult depth p)
        ⟨[complain (e.diagnostic.withContext source).render], false⟩ := by
      refine .inr ⟨?_, FileReport.plain_report (located_runError hread hrun)⟩
      rintro ⟨n, hn, -⟩
      cases hrun.symm.trans hn
    unfold runProgram
    rw [hrun]
    exact hreport.prepend hlog
  obtain ⟨env, t, hw, -⟩ := p.wellTyped_of_check rfl hcheck hok
  rcases Program.run_of_safe (Program.safe_evaluate hw depth) with
    ⟨v, hrun, -⟩ | ⟨node, hrun⟩ | hrun
  · have hlong : LongResult depth p ↔ v.text? = none := by
      rw [Value.text?_eq_none, LongResult, hrun]
      simp
    unfold runProgram
    rw [hrun]
    dsimp only
    split
    · rename_i text htext
      refine .inr ⟨by simp [hlong, htext], List.forall_mem_append.2 ⟨hlog, ?_⟩, nofun⟩
      exact List.forall_mem_singleton.2 .result
    · rename_i htext
      exact .inl ⟨hlong.2 htext, by simp [internalError]⟩
  · exact herror _ hrun
  · exact herror _ hrun

/-- What is written about a program that was checked. -/
theorem ordinary_checked {p : Program} (hread : Program.read source file = .ok p)
    {options : CheckOptions} {c : Checked} (hcheck : p.check options = .ok c) :
    ∀ w ∈ (if o.dumpAst then [say p.dump] else []) ++ logged o c.log ++ (c.describe p).map say ++
      (if o.dumpTypes then (typeLines c.types).map say else []) ++
      c.errors.map (fun e => complain (e.diagnostic.withContext source).render),
      Ordinary o source file w := by
  simp only [List.forall_mem_append]
  refine ⟨⟨⟨⟨?_, ordinary_logged o source file c.log⟩, ordinary_say _⟩, ?_⟩, fun w hw => ?_⟩
  · split
    · exact List.forall_mem_singleton.2 .result
    · simp
  · split
    · exact ordinary_say _
    · simp
  · obtain ⟨e, he, rfl⟩ := List.mem_map.1 hw
    exact .report (located_typeError hread hcheck he)

/-- The check of a program that was read cannot fail the command. -/
theorem failsIff_checkProgram {p : Program} (hread : Program.read source file = .ok p)
    (path : String) :
    (checkProgram depth o path source p).FailsIff o source file
      (o.run = true ∧ ∃ c, p.check o.check = .ok c ∧ c.ok = true ∧ LongResult depth p) := by
  obtain ⟨rs, t, hreports⟩ :=
    Program.exists_reports (Program.inPlace_of_read hread) [] o.resilient 0
  obtain ⟨c, hcheck⟩ : ∃ c, p.check o.check = .ok c := ⟨_, Program.check_of_reports hreports⟩
  have hordinary := ordinary_checked (o := o) hread hcheck
  have hcond : (∃ c, p.check o.check = .ok c ∧ c.ok = true ∧ LongResult depth p) ↔
      c.ok = true ∧ LongResult depth p := by
    rw [hcheck]
    simp
  rw [hcond]
  unfold checkProgram
  rw [hcheck]
  dsimp only
  by_cases hok : c.ok = true
  · simp only [hok, Bool.not_true, Bool.false_eq_true, if_false, true_and]
    by_cases hrun : o.run = true
    · simp only [hrun, if_true, true_and]
      exact (failsIff_runProgram hread hcheck hok path).prepend hordinary
    · rw [if_neg hrun]
      exact .inr ⟨fun h => hrun h.1, hordinary, nofun⟩
  · simp only [hok, Bool.not_false, if_true]
    refine .inr ⟨fun h => by simp at h, hordinary, fun _ => ?_⟩
    obtain ⟨e, more, herrors⟩ : ∃ e more, c.errors = e :: more := by
      refine List.exists_cons_of_ne_nil fun hnil => hok ?_
      simp [Checked.ok, hnil]
    have he : e ∈ c.errors := by simp [herrors]
    exact ⟨e.diagnostic, located_typeError hread hcheck he,
      List.mem_append_right _ (List.mem_map_of_mem he)⟩

/-- On a source text the command fails on numbers that are too long and on nothing else. -/
theorem failsIff_checkSource (depth : Nat) (o : Options) (path source : String) :
    (checkSource depth o path source).FailsIff o source (normalPath path)
      ((∃ count, LongNumeral source count) ∨
        o.run = true ∧ ∃ p c, Program.read source (normalPath path) = .ok p ∧
          p.check o.check = .ok c ∧ c.ok = true ∧ LongResult depth p) := by
  have hlog := ordinary_logged o source (normalPath path) (tokenLog (Program.tokensRead source))
  have hlong : (∃ count, LongNumeral source count) ↔ ∃ count place,
      Program.read source (normalPath path) = .error (.lexical (.tooManyDigits count) place) := by
    simp only [read_eq_tooManyDigits]
  rw [hlong]
  unfold checkSource
  dsimp only
  split
  · rename_i count place hread
    exact .inl ⟨.inl ⟨count, place, hread⟩, by simp [internalError]⟩
  · rename_i fault hother hread
    have hreport : FileReport.FailsIff o source (normalPath path) False
        ⟨[complain ((fault.diagnostic (normalPath path)).withContext source).render], false⟩ :=
      .inr ⟨id, FileReport.plain_report (located_readFault (normalPath path) fault)⟩
    convert hreport.prepend hlog using 1
    rw [hread]
    simp only [Except.error.injEq, reduceCtorEq, false_and, exists_false, and_false, or_false,
      iff_false]
    rintro ⟨count, place, rfl⟩
    exact hother count place rfl
  · rename_i p hread
    have hfront := List.forall_mem_append.2
      ⟨hlog, ordinary_logged o source (normalPath path) [programLog p]⟩
    convert (failsIff_checkProgram hread path).prepend hfront using 1
    rw [hread]
    simp

/-! ## The law of internal errors -/

/-- When the text of a file is checked, and run if asked, the command tells of a failure of its own
just in two cases, however deep calls may be nested: a number with more than 4300 digits is
reached in the text after tokens with which a program can start, or the program is to be run, has
no type errors and ends in a number with more than 4300 digits. Else all that is written is
results, the log if it is asked for, and reports of known kinds that tell where in the file
something is wrong, at least one if the file fails. -/
theorem the_command_itself_fails_on_long_numbers_only (depth : Nat) (o : Options) (path : String)
    (bytes : List UInt8) (cs : List Char) (source : String)
    (hbytes : Text.decodeUtf8 bytes = .ok cs)
    (hsource : source = String.ofList (Text.unifyNewlines cs)) :
    (complain "Internal Error:" ∈ (checkFile depth o path (.ok bytes)).writes ↔
      (∃ count, LongNumeral source count) ∨
        o.run = true ∧ ∃ p c, Program.read source (normalPath path) = .ok p ∧
          p.check ⟨[], o.resilient, 0, Table.empty⟩ = .ok c ∧ c.ok = true ∧
          LongResult depth p) ∧
    (complain "Internal Error:" ∉ (checkFile depth o path (.ok bytes)).writes →
      (∀ w ∈ (checkFile depth o path (.ok bytes)).writes,
        Ordinary o source (normalPath path) w) ∧
      ((checkFile depth o path (.ok bytes)).ok = false →
        ∃ d, Located (normalPath path) d ∧
          complain (d.withContext source).render ∈
            (checkFile depth o path (.ok bytes)).writes)) := by
  have hfile : checkFile depth o path (.ok bytes) = checkSource depth o path source := by
    rw [checkFile, hbytes, hsource]
  rw [hfile]
  have hsource := failsIff_checkSource depth o path source
  exact ⟨hsource.told_iff, fun hquiet => ⟨(hsource.plain hquiet).ordinary,
    (hsource.plain hquiet).failed⟩⟩

theorem decodeFrom_ones (n position : Nat) (read : List Char) :
    Text.decodeFrom position read (List.replicate n 49) =
      .ok (read.reverse ++ List.replicate n '1') := by
  induction n generalizing position read with
  | zero => simp [Text.decodeFrom]
  | succ n ih =>
    rw [List.replicate_succ, Text.decodeFrom.eq_def]
    dsimp only
    rw [if_pos (by decide), ih]
    simp [List.replicate_succ]

theorem unifyNewlines_ones (n : Nat) :
    Text.unifyNewlines (List.replicate n '1') = List.replicate n '1' := by
  induction n with
  | zero => rfl
  | succ n ih =>
    rw [List.replicate_succ, Text.unifyNewlines, ih]
    · rfl
    · simp

/-- More ones than digits are allowed, at the start of a text. -/
theorem longNumeral_ones {n : Nat} (h : maxDigits < n + 1) :
    LongNumeral (String.ofList (List.replicate (n + 1) '1')) (n + 1) := by
  have hdigit : isDigit '1' = true := by decide
  have hrun : ∀ k, ((List.replicate k '1').takeWhile isDigit).length = k := fun k => by
    rw [List.takeWhile_replicate, if_pos hdigit, List.length_replicate]
  have hfirst : Lexeme.first '1' (List.replicate n '1') = .error (.tooManyDigits (n + 1)) := by
    unfold Lexeme.first
    rw [if_neg (by decide), if_neg (by decide), if_pos hdigit]
    simp only [List.length_cons, hrun]
    rw [if_neg (by omega)]
  have hlex : Token.lex (String.ofList (List.replicate (n + 1) '1')) =
      ⟨[], .fault (.tooManyDigits (n + 1)) Place.start⟩ := by
    rw [Token.lex, String.toList_ofList, List.replicate_succ, Token.scan, if_neg (by decide),
      if_neg (by decide), if_neg (by decide), hfirst]
  refine ⟨Place.start, by rw [hlex], ?_, h, [], .items (.noItems .empty), by rw [hlex]; rfl⟩
  rw [String.toList_ofList]
  exact (hrun (n + 1)).symm

/-- A run of what is checked, with nothing else shown. -/
abbrev Options.running : Options := ⟨true, false, false, true, false⟩

/-- A text of 4301 ones makes the command fail. A division by zero does not, and a report tells of
it. -/
theorem the_command_itself_fails_on_long_numbers_only_and_not_on_zero :
    complain "Internal Error:" ∈
        (checkFile 0 .standard "a" (.ok (List.replicate 4301 49))).writes ∧
      (checkFile 7 .running "a" (.ok [49, 47, 48])).ok = false ∧
      ∃ d, Located "a" d ∧ complain (d.withContext "1/0").render ∈
        (checkFile 7 .running "a" (.ok [49, 47, 48])).writes := by
  have hok : (checkFile 7 .running "a" (.ok [49, 47, 48])).ok = false := by cbv
  have hquiet : complain "Internal Error:" ∉
      (checkFile 7 .running "a" (.ok [49, 47, 48])).writes := by
    have hall : (checkFile 7 .running "a" (.ok [49, 47, 48])).writes.all
        (· != complain "Internal Error:") = true := by cbv
    intro htold
    simpa using List.all_eq_true.1 hall _ htold
  have hpath : normalPath "a" = "a" := by cbv
  have hlong := (the_command_itself_fails_on_long_numbers_only 0 .standard "a"
    (List.replicate 4301 49) _ _ (decodeFrom_ones 4301 0 []) rfl).1
  have hzero := (the_command_itself_fails_on_long_numbers_only 7 .running "a"
    [49, 47, 48] ['1', '/', '0'] "1/0" (by cbv) (by cbv)).2 hquiet
  rw [hpath] at hzero
  refine ⟨hlong.2 (.inl ⟨4301, ?_⟩), hok, hzero.2 hok⟩
  rw [List.reverse_nil, List.nil_append, unifyNewlines_ones]
  exact longNumeral_ones (by decide)

end CommandLine

end LetPoly
