-- The laws of reading source text. A text is a program exactly if the grammar derives its
-- tokens, and then in one way. Where it is none, what is refused is the first token with
-- which no program goes on, and a place where nothing can be read counts only if the tokens
-- before it start a program.
import LetPoly.Proofs.ParserExact
import LetPoly.Proofs.TokenTexts

namespace LetPoly

open LetPoly.Parser (Completes)

/-! ## What the parser refuses -/

namespace Parser

variable {front : List Token} {t : Token}

theorem Completes.grammatical (h : Completes (Derivation .program) front) :
    ∃ more, Grammatical (front ++ more) := by
  obtain ⟨ls, -, hfill⟩ := h
  obtain ⟨d, hd⟩ := hfill (ls.map fun l => ⟨l, 0, 0, 0⟩) (by simp [Function.comp_def])
  exact ⟨_, d, hd⟩

/-- A token is refused if the tokens before it start a program and no program goes on with
it, whatever comes after. -/
theorem program_refuses (file : String) (hfront : ∃ more, Grammatical (front ++ more))
    (hnone : ∀ more, ¬ Grammatical (front ++ t :: more)) (rest : List Token) :
    program file ((front ++ t :: rest).length + 2) (front ++ t :: rest) =
      .error (.unexpected (t :: rest)) := by
  rcases hread : program file ((front ++ t :: rest).length + 2) (front ++ t :: rest) with
    (rest' | _) | p
  · obtain ⟨front', hts, hfill, hnone'⟩ := front_of_unexpected hread
    -- both fronts are the longest that start a program
    rcases List.append_eq_append_iff.1 hts with ⟨between, rfl, hrest⟩ | ⟨between, rfl, hrest⟩
    · rcases between with _ | ⟨t', between⟩
      · rw [← List.nil_append rest', ← hrest]
      · obtain ⟨rfl, rfl⟩ := List.cons.inj hrest
        obtain ⟨more, hmore⟩ := hfill.grammatical
        exact absurd (by simpa using hmore) (hnone (between ++ more))
    · rcases between with _ | ⟨t', between⟩
      · rw [hrest, List.nil_append]
      · obtain ⟨more, hmore⟩ := hfront
        rw [List.append_assoc] at hmore
        exact absurd hmore (hnone' _ (by rw [hrest]; rfl))
  · exact absurd hread program_ne_tooDeep
  · obtain ⟨d, hword, -, -⟩ := derivation_of_ok hread
    exact absurd ⟨d, hword⟩ (hnone rest)

end Parser

/-! ## Texts -/

section

variable (source file : String)

/-- What the parser makes of the tokens of a text. -/
abbrev parsed : Except Stop Program :=
  Parser.program file ((Token.lex source).tokens.length + 2) (Token.lex source).tokens

/-- What reading a text comes to, by what the parser makes of its tokens and how it ends. -/
theorem read_cases :
    (∃ p line, parsed source file = .ok p ∧ (Token.lex source).ending = .complete line ∧
      Program.read source file = .ok p) ∨
    (∃ t rest, parsed source file = .error (.unexpected (t :: rest)) ∧
      Program.read source file = .error (.unexpectedToken t)) ∨
    (∃ line, parsed source file = .error (.unexpected []) ∧
      (Token.lex source).ending = .complete line ∧
      Program.read source file = .error (.unexpectedEnd line)) ∨
    (∃ why place, ((∃ p, parsed source file = .ok p) ∨
        parsed source file = .error (.unexpected [])) ∧
      (Token.lex source).ending = .fault why place ∧
      Program.read source file = .error (.lexical why place)) := by
  unfold parsed Program.read Lexed.program
  rcases hread : Parser.program file ((Token.lex source).tokens.length + 2)
    (Token.lex source).tokens with ((_ | ⟨t, rest⟩) | _) | p
  · rcases hending : (Token.lex source).ending with line | ⟨why, place⟩
    · exact .inr (.inr (.inl ⟨line, rfl, rfl, rfl⟩))
    · exact .inr (.inr (.inr ⟨why, place, .inr rfl, rfl, rfl⟩))
  · exact .inr (.inl ⟨t, rest, rfl, rfl⟩)
  · exact absurd hread Parser.program_ne_tooDeep
  · rcases hending : (Token.lex source).ending with line | ⟨why, place⟩
    · exact .inl ⟨p, line, rfl, rfl, rfl⟩
    · exact .inr (.inr (.inr ⟨why, place, .inl ⟨p, rfl⟩, rfl, rfl⟩))

variable {source file}

theorem read_of_parsed {p : Program} {line : Nat} (hread : parsed source file = .ok p)
    (hending : (Token.lex source).ending = .complete line) :
    Program.read source file = .ok p := by
  rcases read_cases source file with ⟨p', _, h, -, hok⟩ | ⟨t, rest, h, -⟩ | ⟨_, h, -, -⟩ |
    ⟨why, place, -, hfault, -⟩
  · cases hread.symm.trans h
    exact hok
  · cases hread.symm.trans h
  · cases hread.symm.trans h
  · cases hending.symm.trans hfault

theorem of_read_eq_ok {p : Program} (h : Program.read source file = .ok p) :
    parsed source file = .ok p ∧ ∃ line, (Token.lex source).ending = .complete line := by
  rcases read_cases source file with ⟨p', line, hread, hending, hok⟩ | ⟨t, rest, -, herror⟩ |
    ⟨line, -, -, herror⟩ | ⟨why, place, -, -, herror⟩
  · cases h.symm.trans hok
    exact ⟨hread, line, hending⟩
  · cases h.symm.trans herror
  · cases h.symm.trans herror
  · cases h.symm.trans herror

theorem read_of_refused {t : Token} {rest : List Token}
    (hread : parsed source file = .error (.unexpected (t :: rest))) :
    Program.read source file = .error (.unexpectedToken t) := by
  rcases read_cases source file with ⟨p', _, h, -, -⟩ | ⟨t', rest', h, herror⟩ | ⟨_, h, -, -⟩ |
    ⟨why, place, ⟨p, h⟩ | h, -, -⟩
  · cases hread.symm.trans h
  · cases hread.symm.trans h
    exact herror
  · cases hread.symm.trans h
  · cases hread.symm.trans h
  · cases hread.symm.trans h

/-- Some text that is a program starts with the given tokens. -/
def StartsProgram (file : String) (ts : List Token) : Prop :=
  ∃ text p more, Program.read text file = .ok p ∧ (Token.lex text).tokens = ts ++ more

/-- Tokens of a text that can be completed to a program are those of a text that goes on as
one. -/
theorem startsProgram_of_completes {k : Nat}
    (h : Completes (Derivation .program) ((Token.lex source).tokens.take k)) :
    StartsProgram file ((Token.lex source).tokens.take k) := by
  obtain ⟨ls, hls, hfill⟩ := h
  obtain ⟨text, back, line, hlex, hback⟩ := Token.exists_lex_eq source k ls hls
  have htokens : (Token.lex text).tokens = (Token.lex source).tokens.take k ++ back := by rw [hlex]
  have hgrammatical : Grammatical (Token.lex text).tokens := by
    rw [htokens]
    exact hfill back hback
  obtain ⟨p, hp⟩ : ∃ p, parsed text file = .ok p := Parser.ok_of_grammatical hgrammatical
  exact ⟨text, p, back, read_of_parsed hp (by rw [hlex]), htokens⟩

/-! ## The three ways to fail -/

theorem refused_token {t : Token} (h : Program.read source file = .error (.unexpectedToken t)) :
    ∃ k, (Token.lex source).tokens[k]? = some t ∧
      StartsProgram file ((Token.lex source).tokens.take k) ∧
      (∀ more, ¬ Grammatical ((Token.lex source).tokens.take (k + 1) ++ more)) ∧
      ∀ other, (Token.lex other).tokens.take (k + 1) = (Token.lex source).tokens.take (k + 1) →
        Program.read other file = .error (.unexpectedToken t) := by
  rcases read_cases source file with ⟨_, _, -, -, hok⟩ | ⟨t', rest, hread, herror⟩ |
    ⟨_, -, -, herror⟩ | ⟨_, _, -, -, herror⟩
  · cases h.symm.trans hok
  · cases h.symm.trans herror
    obtain ⟨front, hts, hfill, hnone⟩ := Parser.front_of_unexpected hread
    have htake : (Token.lex source).tokens.take front.length = front := by simp [hts]
    have htake' : (Token.lex source).tokens.take (front.length + 1) = front ++ [t] := by
      rw [hts, List.take_length_add_append]
      rfl
    refine ⟨front.length, by simp [hts], ?_, fun more => ?_, fun other hother => ?_⟩
    · exact startsProgram_of_completes (htake.symm ▸ hfill)
    · rw [htake', List.append_assoc]
      exact hnone _ rfl
    · rw [htake'] at hother
      have hsplit : (Token.lex other).tokens =
          front ++ t :: (Token.lex other).tokens.drop (front.length + 1) := by
        rw [← List.take_append_drop (front.length + 1) (Token.lex other).tokens, hother]
        simp
      have hrefuses := Parser.program_refuses file hfill.grammatical
        (fun more => hnone (t :: more) rfl) ((Token.lex other).tokens.drop (front.length + 1))
      rw [← hsplit] at hrefuses
      exact read_of_refused hrefuses
  · cases h.symm.trans herror
  · cases h.symm.trans herror

/-- All tokens of a text can be completed to a program if the parser only wants more. -/
theorem completes_of_end (h : parsed source file = .error (.unexpected [])) :
    Completes (Derivation .program) (Token.lex source).tokens ∧
      ¬ Grammatical (Token.lex source).tokens := by
  obtain ⟨front, hts, hfill, hnone⟩ := Parser.front_of_unexpected h
  rw [List.append_nil] at hts
  rw [hts]
  exact ⟨hfill, by simpa using hnone [] rfl⟩

theorem startsProgram_of_all (h : Completes (Derivation .program) (Token.lex source).tokens) :
    StartsProgram file (Token.lex source).tokens := by
  rw [← List.take_length (l := (Token.lex source).tokens)] at h ⊢
  exact startsProgram_of_completes h

theorem unexpected_end {line : Nat} (h : Program.read source file = .error (.unexpectedEnd line)) :
    (Token.lex source).ending = .complete line ∧ ¬ Grammatical (Token.lex source).tokens ∧
    ∃ text p more, Program.read text file = .ok p ∧ more ≠ [] ∧
      (Token.lex text).tokens = (Token.lex source).tokens ++ more := by
  rcases read_cases source file with ⟨_, _, -, -, hok⟩ | ⟨_, _, -, herror⟩ |
    ⟨line', hread, hending, herror⟩ | ⟨_, _, -, -, herror⟩
  · cases h.symm.trans hok
  · cases h.symm.trans herror
  · cases h.symm.trans herror
    obtain ⟨hfill, hnot⟩ := completes_of_end hread
    obtain ⟨text, p, more, hp, htokens⟩ : StartsProgram file (Token.lex source).tokens :=
      startsProgram_of_all hfill
    refine ⟨hending, hnot, text, p, more, hp, ?_, htokens⟩
    rintro rfl
    obtain ⟨d, hd, -, -⟩ := Parser.derivation_of_ok (of_read_eq_ok hp).1
    exact hnot ⟨d, by rw [hd, htokens, List.append_nil]⟩
  · cases h.symm.trans herror

theorem unreadable_place {why : LexFault} {place : Place}
    (h : Program.read source file = .error (.lexical why place)) :
    (Token.lex source).ending = .fault why place ∧
      StartsProgram file (Token.lex source).tokens := by
  rcases read_cases source file with ⟨_, _, -, -, hok⟩ | ⟨_, _, -, herror⟩ | ⟨_, -, -, herror⟩ |
    ⟨why', place', hread, hending, herror⟩
  · cases h.symm.trans hok
  · cases h.symm.trans herror
  · cases h.symm.trans herror
  · cases h.symm.trans herror
    refine ⟨hending, startsProgram_of_all ?_⟩
    rcases hread with ⟨p, hread⟩ | hread
    · obtain ⟨d, hd, -, -⟩ := Parser.derivation_of_ok hread
      refine ⟨[], by simp, fun back hback => ⟨d, ?_⟩⟩
      rw [List.map_eq_nil_iff.1 hback, List.append_nil]
      exact hd
    · exact (completes_of_end hread).1

end

/-! ## The laws -/

/-- A text is a program exactly if all of it can be read as tokens and the grammar derives
them. There is one derivation then, and the program is what it stands for. -/
theorem reading_follows_the_grammar (source file : String) :
    ((∃ p, Program.read source file = .ok p) ↔
      (∃ line, (Token.lex source).ending = .complete line) ∧
        Grammatical (Token.lex source).tokens) ∧
    ∀ d : Derivation .program, d.word = (Token.lex source).tokens →
      (∀ d' : Derivation .program, d'.word = (Token.lex source).tokens → d' = d) ∧
      ∀ p, Program.read source file = .ok p → p = d.program file := by
  refine ⟨⟨fun ⟨p, hp⟩ => ?_, fun ⟨⟨line, hending⟩, hgrammatical⟩ => ?_⟩, fun d hd => ⟨?_, ?_⟩⟩
  · obtain ⟨hread, hending⟩ := of_read_eq_ok hp
    obtain ⟨d, hd, -, -⟩ := Parser.derivation_of_ok hread
    exact ⟨hending, d, hd⟩
  · obtain ⟨p, hp⟩ : ∃ p, parsed source file = .ok p := Parser.ok_of_grammatical hgrammatical
    exact ⟨p, read_of_parsed hp hending⟩
  · obtain ⟨p, hp⟩ : ∃ p, parsed source file = .ok p := Parser.ok_of_grammatical ⟨d, hd⟩
    obtain ⟨d', -, -, honly⟩ := Parser.derivation_of_ok hp
    intro d'' hd''
    rw [honly d'' hd'', honly d hd]
  · intro p hp
    obtain ⟨d', -, hvalue, honly⟩ := Parser.derivation_of_ok (of_read_eq_ok hp).1
    rw [honly d hd, hvalue]

/-- Reading fails at the first token with which no program goes on, whatever follows it. It
fails at the end only where a program could go on, and at a place where nothing can be read
only if the tokens before it start a program. -/
theorem reading_fails_where_no_program_goes_on (source file : String) :
    (∀ t, Program.read source file = .error (.unexpectedToken t) →
      ∃ k, (Token.lex source).tokens[k]? = some t ∧
        StartsProgram file ((Token.lex source).tokens.take k) ∧
        (∀ more, ¬ Grammatical ((Token.lex source).tokens.take (k + 1) ++ more)) ∧
        ∀ other, (Token.lex other).tokens.take (k + 1) = (Token.lex source).tokens.take (k + 1) →
          Program.read other file = .error (.unexpectedToken t)) ∧
    (∀ line, Program.read source file = .error (.unexpectedEnd line) →
      (Token.lex source).ending = .complete line ∧ ¬ Grammatical (Token.lex source).tokens ∧
      ∃ text p more, Program.read text file = .ok p ∧ more ≠ [] ∧
        (Token.lex text).tokens = (Token.lex source).tokens ++ more) ∧
    (∀ why place, Program.read source file = .error (.lexical why place) →
      (Token.lex source).ending = .fault why place ∧
      StartsProgram file (Token.lex source).tokens) :=
  ⟨fun _ => refused_token, fun _ => unexpected_end, fun _ _ => unreadable_place⟩

/-- A brace is refused where a value is wanted although nothing can be read two places on, the
end comes too early after an operator, and a question mark cannot be read where it would matter. -/
theorem reading_fails_where_no_program_goes_on_in_each_way :
    (Program.read "let x = \x7d ?" "" =
        .error (.unexpectedToken ⟨.symbol .rightBrace, 1, 9, 8⟩) ∧
      ∃ k, (Token.lex "let x = \x7d ?").tokens[k]? = some ⟨.symbol .rightBrace, 1, 9, 8⟩ ∧
        StartsProgram "" ((Token.lex "let x = \x7d ?").tokens.take k)) ∧
    (Program.read "1 +" "" = .error (.unexpectedEnd 1) ∧
      ¬ Grammatical (Token.lex "1 +").tokens) ∧
    (Program.read "1 + ?" "" = .error (.lexical (.illegal '?') ⟨1, 5, 4⟩) ∧
      StartsProgram "" (Token.lex "1 + ?").tokens) := by
  have hbrace : Program.read "let x = \x7d ?" "" =
      .error (.unexpectedToken ⟨.symbol .rightBrace, 1, 9, 8⟩) := by cbv
  have hend : Program.read "1 +" "" = .error (.unexpectedEnd 1) := by cbv
  have hplace : Program.read "1 + ?" "" = .error (.lexical (.illegal '?') ⟨1, 5, 4⟩) := by cbv
  obtain ⟨k, hk, hstarts, -⟩ := (reading_fails_where_no_program_goes_on _ _).1 _ hbrace
  exact ⟨⟨hbrace, k, hk, hstarts⟩,
    ⟨hend, ((reading_fails_where_no_program_goes_on _ _).2.1 _ hend).2.1⟩,
    ⟨hplace, ((reading_fails_where_no_program_goes_on _ _).2.2 _ _ hplace).2⟩⟩

end LetPoly
