-- Texts and their tokens. A text can be cut after any of its tokens and go on otherwise:
-- with a blank in between, the tokens before the cut stay as they are.
import LetPoly.Token.Lexer
import LetPoly.Proofs.Reading

namespace LetPoly

open Text (isDigit maxDigits)

/-! ## One lexeme -/

/-- What may follow a lexeme that was cut out of a text: nothing, a blank, or the character that
followed it there. -/
def CutBefore (old new : List Char) : Prop :=
  ∀ c ∈ new.head?, c = ' ' ∨ old.head? = some c

theorem stops_at_drop {p : Char → Bool} {rest : List Char} {c : Char}
    (h : (rest.drop (rest.takeWhile p).length).head? = some c) : p c = false := by
  induction rest with
  | nil => cases h
  | cons a rest ih =>
    by_cases ha : p a
    · rw [List.takeWhile_cons_of_pos ha] at h
      exact ih h
    · rw [List.takeWhile_cons_of_neg ha] at h
      cases h
      simpa using ha

theorem take_run (p : Char → Bool) (rest : List Char) :
    rest.take (rest.takeWhile p).length = rest.takeWhile p :=
  (List.prefix_iff_eq_take.1 (List.takeWhile_prefix p)).symm

theorem CutBefore.stops {p : Char → Bool} {rest new : List Char} (hblank : p ' ' = false)
    (h : CutBefore (rest.drop (rest.takeWhile p).length) new) : ∀ c ∈ new.head?, p c = false := by
  intro c hc
  rcases h c hc with rfl | hold
  · exact hblank
  · exact stops_at_drop hold

theorem takeWhile_of_stops {p : Char → Bool} {rest new : List Char}
    (h : ∀ c ∈ new.head?, p c = false) :
    (rest.take (rest.takeWhile p).length ++ new).takeWhile p = rest.takeWhile p := by
  induction rest with
  | nil =>
    rcases new with _ | ⟨c, new⟩
    · rfl
    · simp [h c rfl]
  | cons a rest ih =>
    by_cases ha : p a
    · simp only [List.takeWhile_cons_of_pos ha, List.length_cons, List.take_succ_cons,
        List.cons_append]
      rw [ih]
    · simp only [List.takeWhile_cons_of_neg ha, List.length_nil, List.take_zero, List.nil_append]
      rcases new with _ | ⟨c, new⟩
      · rfl
      · simp [h c rfl]

theorem CutBefore.ne_cons {d : Char} {old new : List Char} (h : CutBefore old new)
    (hd : d ≠ ' ') (hold : ∀ tail, old ≠ d :: tail) (tail : List Char) : new ≠ d :: tail := by
  rintro rfl
  rcases h d rfl with hblank | hhead
  · exact hd hblank
  · obtain ⟨tail, rfl⟩ := List.head?_eq_some_iff.1 hhead
    exact hold tail rfl

namespace Symbol

theorem first?_cut {c : Char} {rest new : List Char} {mark : Symbol} {length : Nat}
    (h : first? (c :: rest) = some (mark, length)) (hnew : CutBefore (rest.drop (length - 1)) new) :
    first? (c :: (rest.take (length - 1) ++ new)) = some (mark, length) := by
  unfold first? at h
  split at h <;> cases h
  all_goals (rename_i heq; cases heq)
  all_goals try rfl
  -- the four symbols that start a longer one
  all_goals
    rename_i hshort
    show first? (_ :: new) = _
    rw [first?]
    exact hnew.ne_cons (by decide) hshort

/-- A symbol has one or two characters. -/
theorem length_first? {c : Char} {rest : List Char} {mark : Symbol} {length : Nat}
    (h : first? (c :: rest) = some (mark, length)) : 1 ≤ length ∧ length - 1 ≤ rest.length := by
  unfold first? at h
  split at h <;> cases h
  all_goals (rename_i heq; cases heq)
  all_goals simp

end Symbol

namespace Lexeme

/-- A lexeme is read the same way if what follows it is replaced. -/
theorem first_cut {c : Char} {rest : List Char} {lexeme : Lexeme} {length : Nat}
    (h : first c rest = .ok (lexeme, length)) :
    1 ≤ length ∧ length - 1 ≤ rest.length ∧ ∀ new, CutBefore (rest.drop (length - 1)) new →
      first c (rest.take (length - 1) ++ new) = .ok (lexeme, length) := by
  have hle : ∀ (p : Char → Bool) (text : List Char), (text.takeWhile p).length ≤ text.length :=
    fun p text => (List.takeWhile_prefix p).length_le
  unfold first at h
  by_cases hname : startsName c
  · rw [if_pos hname] at h
    cases h
    refine ⟨by omega, hle _ rest, fun new hnew => ?_⟩
    simp only [first, if_pos hname]
    rw [Nat.add_sub_cancel, takeWhile_of_stops (hnew.stops (by decide))]
  rw [if_neg hname] at h
  by_cases hquote : c == '\''
  · rw [if_pos hquote] at h
    rcases rest with _ | ⟨d, more⟩
    · cases h
    · dsimp only at h
      by_cases hd : startsName d
      · rw [if_pos hd] at h
        cases h
        refine ⟨by omega, by simpa using hle _ more, fun new hnew => ?_⟩
        show first c (d :: (more.take (more.takeWhile continuesName).length ++ new)) = _
        simp only [first, if_neg hname, if_pos hquote, if_pos hd]
        rw [takeWhile_of_stops (CutBefore.stops (by decide) hnew)]
      · rw [if_neg hd] at h
        cases h
  rw [if_neg hquote] at h
  by_cases hdigit : isDigit c
  · rw [if_pos hdigit] at h
    dsimp only at h
    split at h
    · rename_i hmax
      rw [List.length_cons] at hmax
      cases h
      refine ⟨by simp, by simpa using hle _ rest, fun new hnew => ?_⟩
      simp only [first, if_neg hname, if_neg hquote, if_pos hdigit, List.length_cons,
        Nat.add_sub_cancel] at hnew ⊢
      rw [takeWhile_of_stops (CutBefore.stops (by decide) hnew), if_pos hmax]
    · cases h
  rw [if_neg hdigit] at h
  rcases hsymbol : Symbol.first? (c :: rest) with _ | ⟨mark, k⟩
  · rw [hsymbol] at h
    cases h
  · rw [hsymbol] at h
    cases h
    obtain ⟨hpos, hlen⟩ := Symbol.length_first? hsymbol
    refine ⟨hpos, hlen, fun new hnew => ?_⟩
    simp only [first, if_neg hname, if_neg hquote, if_neg hdigit, Symbol.first?_cut hsymbol hnew]

end Lexeme

/-! ## All tokens of a text -/

namespace Token

/-- A text can be cut after the given tokens: whatever follows the cut is read as if it stood
alone. -/
def CutsAfter (place : Place) (text : List Char) (tokens : List Token) : Prop :=
  ∃ front place', (front = [] ∧ tokens = [] ∨ ∃ c, front.head? = some c ∧ text.head? = some c) ∧
    ∀ more, scan place (front ++ ' ' :: more) =
      ⟨tokens ++ (scan place' more).tokens, (scan place' more).ending⟩

theorem drop_take_append {k : Nat} {old new : List Char} (h : k ≤ old.length) :
    (old.take k ++ new).drop k = new :=
  List.drop_left' (by simp [h])

theorem scan_space {c : Char} (h : isSpace c) (place : Place) (rest : List Char) :
    scan place (c :: rest) = scan (place.advance 1) rest := by
  rw [scan, if_pos h]

theorem scan_newline (place : Place) (rest : List Char) :
    scan place ('\n' :: rest) = scan place.newline rest := by
  rw [scan, if_neg (by decide), if_pos (by decide)]

theorem scan_comment (place : Place) (rest : List Char) :
    scan place ('#' :: rest) = scan (place.advance ((rest.takeWhile (· != '\n')).length + 1))
      (rest.drop (rest.takeWhile (· != '\n')).length) := by
  rw [scan, if_neg (by decide), if_neg (by decide), if_pos (by decide)]

theorem cutsAfter_nil (place : Place) (text : List Char) : CutsAfter place text [] :=
  ⟨[], place.advance 1, .inl ⟨rfl, rfl⟩, fun more => scan_space rfl place more⟩

/-- A text can be cut after any number of its tokens. -/
theorem scan_cut (place : Place) (text : List Char) (k : Nat) :
    CutsAfter place text ((scan place text).tokens.take k) := by
  fun_induction scan place text generalizing k with
  | case1 place => simpa using cutsAfter_nil place []
  | case2 place c rest hspace ih =>
    obtain ⟨front, place', -, hcut⟩ := ih k
    refine ⟨c :: front, place', .inr ⟨c, rfl, rfl⟩, fun more => ?_⟩
    rw [List.cons_append, scan_space hspace, hcut]
  | case3 place c rest hspace hline ih =>
    obtain ⟨front, place', -, hcut⟩ := ih k
    refine ⟨c :: front, place', .inr ⟨c, rfl, rfl⟩, fun more => ?_⟩
    rw [List.cons_append, scan, if_neg hspace, if_pos hline, hcut]
  | case4 place c rest hspace hline hcomment comment ih =>
    obtain ⟨front, place', ⟨-, hnil⟩ | ⟨d, hfront, hrest⟩, hcut⟩ := ih k
    · rw [hnil]
      exact cutsAfter_nil place (c :: rest)
    refine ⟨c :: (rest.take comment.length ++ front), place', .inr ⟨c, rfl, rfl⟩, fun more => ?_⟩
    -- the comment ends at the newline with which the rest of the cut starts
    have hstop : ∀ e ∈ (front ++ ' ' :: more).head?, (e != '\n') = false := by
      intro e he
      rw [List.head?_append, hfront] at he
      cases he
      exact stops_at_drop (p := (· != '\n')) hrest
    have hcomment' : (rest.take comment.length ++ (front ++ ' ' :: more)).takeWhile (· != '\n') =
        comment := takeWhile_of_stops hstop
    have hdrop : (rest.take comment.length ++ (front ++ ' ' :: more)).drop comment.length =
        front ++ ' ' :: more :=
      drop_take_append (List.takeWhile_prefix _).length_le
    rw [List.cons_append, List.append_assoc, scan, if_neg hspace, if_neg hline, if_pos hcomment]
    simp only [hcomment', hdrop, hcut]
  | case5 place c rest hspace hline hcomment why hfirst =>
    simpa using cutsAfter_nil place (c :: rest)
  | case6 place c rest hspace hline hcomment lexeme length hfirst later ih =>
    rcases k with _ | k
    · exact cutsAfter_nil place (c :: rest)
    obtain ⟨front, place', hfront, hcut⟩ := ih k
    obtain ⟨-, hlength, hsame⟩ := Lexeme.first_cut hfirst
    refine ⟨c :: (rest.take (length - 1) ++ front), place', .inr ⟨c, rfl, rfl⟩, fun more => ?_⟩
    have hnew : CutBefore (rest.drop (length - 1)) (front ++ ' ' :: more) := by
      intro d hd
      rcases hfront with ⟨rfl, -⟩ | ⟨e, hhead, hold⟩
      · exact .inl (Option.some.inj hd).symm
      · rw [List.head?_append, hhead] at hd
        exact .inr (hold.trans hd)
    rw [List.cons_append, List.append_assoc, scan, if_neg hspace, if_neg hline, if_neg hcomment,
      hsame _ hnew]
    simp only [drop_take_append hlength, hcut, List.take_succ_cons, List.cons_append]
    rfl

end Token

/-! ## Texts of plain lexemes -/

namespace Lexeme

/-- The text of a plain lexeme can be read. -/
theorem exists_spelling {l : Lexeme} (hl : l.Plain) :
    ∃ c rest, first c rest = .ok (l, rest.length + 1) ∧
      Token.isSpace c = false ∧ (c == '\n') = false ∧ (c == '#') = false := by
  cases l with
  | identifier name =>
    obtain rfl : name = "x" := hl
    exact ⟨'x', [], rfl, rfl, rfl, rfl⟩
  | typeVariable name => exact hl.elim
  | number value =>
    obtain rfl : value = 0 := hl
    exact ⟨'0', [], rfl, rfl, rfl, rfl⟩
  | keyword word =>
    refine ⟨word.text.toList.headD ' ', word.text.toList.tail, ?_⟩
    cases word <;> exact ⟨rfl, rfl, rfl, rfl⟩
  | symbol mark =>
    refine ⟨mark.text.toList.headD ' ', mark.text.toList.tail, ?_⟩
    cases mark <;> exact ⟨rfl, rfl, rfl, rfl⟩

end Lexeme

namespace Token

theorem scan_lexeme {c : Char} {rest : List Char} {l : Lexeme} {length : Nat}
    (hspace : isSpace c = false) (hline : (c == '\n') = false) (hcomment : (c == '#') = false)
    (hfirst : Lexeme.first c rest = .ok (l, length)) (place : Place) :
    scan place (c :: rest) =
      ⟨⟨l, place.line, place.column, place.offset⟩ ::
          (scan (place.advance length) (rest.drop (length - 1))).tokens,
        (scan (place.advance length) (rest.drop (length - 1))).ending⟩ := by
  rw [scan, if_neg (by simp [hspace]), if_neg (by simp [hline]), if_neg (by simp [hcomment]),
    hfirst]

/-- Plain lexemes make a text. -/
theorem exists_text (ls : List Lexeme) (hls : ∀ l ∈ ls, l.Plain) : ∃ text, ∀ place,
    (scan place text).tokens.map (·.lexeme) = ls ∧
      ∃ line, (scan place text).ending = .complete line := by
  induction ls with
  | nil => exact ⟨[], fun place => by simp [scan]⟩
  | cons l ls ih =>
    obtain ⟨text, htext⟩ := ih fun l' hl' => hls l' (List.mem_cons_of_mem l hl')
    obtain ⟨c, rest, hfirst, hspace, hline, hcomment⟩ :=
      Lexeme.exists_spelling (hls l List.mem_cons_self)
    refine ⟨c :: (rest ++ ' ' :: text), fun place => ?_⟩
    have hsame : Lexeme.first c (rest ++ ' ' :: text) = .ok (l, rest.length + 1) := by
      have hcut := (Lexeme.first_cut hfirst).2.2 (' ' :: text) fun d hd =>
        .inl (Option.some.inj hd).symm
      rwa [Nat.add_sub_cancel, List.take_length] at hcut
    rw [scan_lexeme hspace hline hcomment hsame, Nat.add_sub_cancel, List.drop_left,
      scan_space rfl]
    obtain ⟨htokens, hending⟩ := htext ((place.advance (rest.length + 1)).advance 1)
    exact ⟨by rw [List.map_cons, htokens], hending⟩

/-- The tokens of a text up to any of them, and then any plain lexemes, are the tokens of a
text. -/
theorem exists_lex_eq (source : String) (k : Nat) (ls : List Lexeme) (hls : ∀ l ∈ ls, l.Plain) :
    ∃ text back line, lex text = ⟨(lex source).tokens.take k ++ back, .complete line⟩ ∧
      back.map (·.lexeme) = ls := by
  obtain ⟨front, place, -, hcut⟩ := scan_cut Place.start source.toList k
  obtain ⟨more, hmore⟩ := exists_text ls hls
  obtain ⟨htokens, line, hending⟩ := hmore place
  refine ⟨String.ofList (front ++ ' ' :: more), (scan place more).tokens, line, ?_, htokens⟩
  rw [lex, String.toList_ofList, hcut, hending]
  rfl

/-! ## Texts of lexemes -/

/-- Before the given rest, a text is read as a row of lexemes. -/
def Yields (text rest : List Char) (ls : List Lexeme) : Prop :=
  ∀ place, ∃ ts place', ts.map (·.lexeme) = ls ∧
    scan place (text ++ rest) =
      ⟨ts ++ (scan place' rest).tokens, (scan place' rest).ending⟩

theorem yields_nil (rest : List Char) : Yields [] rest [] :=
  fun place => ⟨[], place, rfl, rfl⟩

theorem Yields.append {text text' rest : List Char} {ls ls' : List Lexeme}
    (h : Yields text (text' ++ rest) ls) (h' : Yields text' rest ls') :
    Yields (text ++ text') rest (ls ++ ls') := by
  intro place
  obtain ⟨ts, middle, hts, hscan⟩ := h place
  obtain ⟨ts', place', hts', hscan'⟩ := h' middle
  refine ⟨ts ++ ts', place', by rw [List.map_append, hts, hts'], ?_⟩
  rw [List.append_assoc, hscan, hscan', List.append_assoc]

theorem Yields.cons_space {text rest : List Char} {ls : List Lexeme} (h : Yields text rest ls) :
    Yields (' ' :: text) rest ls := by
  intro place
  rw [List.cons_append, scan_space rfl]
  exact h (place.advance 1)

theorem yields_lexeme {c : Char} {tail rest : List Char} {l : Lexeme}
    (hspace : isSpace c = false) (hline : (c == '\n') = false) (hcomment : (c == '#') = false)
    (h : Lexeme.first c (tail ++ rest) = .ok (l, tail.length + 1)) :
    Yields (c :: tail) rest [l] := by
  intro place
  refine ⟨[⟨l, place.line, place.column, place.offset⟩], place.advance (tail.length + 1), rfl, ?_⟩
  rw [List.cons_append, scan_lexeme hspace hline hcomment h, Nat.add_sub_cancel, List.drop_left]
  rfl

/-- A lexeme of one character, whatever follows it. -/
theorem Yields.cons_mark {c : Char} {l : Lexeme} {text rest : List Char} {ls : List Lexeme}
    (hspace : isSpace c = false) (hline : (c == '\n') = false) (hcomment : (c == '#') = false)
    (hc : ∀ rest, Lexeme.first c rest = .ok (l, 1)) (h : Yields text rest ls) :
    Yields (c :: text) rest (l :: ls) := by
  have hfirst : Yields [c] (text ++ rest) [l] := yields_lexeme hspace hline hcomment (hc _)
  exact hfirst.append h

end Token

end LetPoly
