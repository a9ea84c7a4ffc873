-- The parser reads exactly the phrases of the grammar: for each of its rules, the phrases
-- that it takes off, and the symbols that would make a phrase longer.
import LetPoly.Proofs.Phrases

namespace LetPoly

namespace Parser

open Token (OneOf not_oneOf)
open LetPoly.Derivation hiding word

/-- A rule reads the phrases of a sort as the grammar has them. -/
def Parses (file : String) (p : Phrase) (marks : List Symbol) (depth : Nat)
    (rule : Rule p.Meaning) : Prop :=
  ∀ ts, Reads (meaning file (p := p)) (OneOf marks) depth ts (rule ts)

section

variable {α D : Type} [Worded D] {file : String} {n : Nat}

/-- A phrase of one token. -/
theorem reads_token {class_ : Terminal} {value : D → α} {more : Token → Prop} {depth : Nat}
    {t : Token} {rest : List Token} {a : α} (build : Leaf class_ → D)
    (ht : t.lexeme.terminal = class_) (hvalue : value (build ⟨t, ht⟩) = a)
    (hword : ∀ x, word (build x) = [x.1])
    (hcover : ∀ d rest', (word d ++ rest').head? = some t → ∃ x, build x = d) :
    Reads value more depth (t :: rest) (.ok (a, rest)) := by
  subst hvalue
  exact Reads.node build (reads_single ⟨t, ht⟩) hword fun d rest' _ hhead => hcover d rest' hhead

/-- A phrase without tokens. -/
theorem reads_empty {value : Derivation .empty → α} {more : Token → Prop} {depth : Nat}
    {ts : List Token} : Reads value more depth ts (.ok (value .empty, ts)) :=
  reads_nothing rfl fun d _ _ _ => by cases d; rfl

/-! ## Annotations and parameters -/

theorem parses_typeExpr (n : Nat) : Parses file .typeExpression [] n (typeExpr file n) := by
  induction n with
  | zero => exact fun ts => reads_tooDeep
  | succ n ih =>
    rintro (_ | ⟨t, rest⟩)
    · exact opens_type.reads_unexpected (by simp)
    · rw [typeExpr]
      split
      case h_1 name hname =>
        have ht : t.lexeme.terminal = .identifier := by rw [hname]; rfl
        refine reads_token namedType ht ?_ (fun _ => rfl) fun d rest' hhead => ?_
        · show TypeExpr.named t.lexeme.value _ = _
          rw [hname, Lexeme.value]
        · cases d with
          | namedType x => exact ⟨x, rfl⟩
          | _ => cases ht.symm.trans (class_of_type hhead)
      case h_2 name hname =>
        have ht : t.lexeme.terminal = .typeVariable := by rw [hname]; rfl
        refine reads_token quotedType ht ?_ (fun _ => rfl) fun d rest' hhead => ?_
        · show TypeExpr.quoted t.lexeme.value _ = _
          rw [hname, Lexeme.value]
        · cases d with
          | quotedType x => exact ⟨x, rfl⟩
          | _ => cases ht.symm.trans (class_of_type hhead)
      case h_3 hleft =>
        have ht : t.lexeme.terminal = .symbol .leftParen := by rw [hleft]; rfl
        refine Reads.node arrowOf (reads_after ⟨t, ht⟩ ?_) word_arrowOf ?_
        · refine (reads_enclosed ih (by simp) (by simp) ?_ rest).bind_closed fun p rest₁ _ => ?_
          · exact opens_type.imp fun t ht hparen => by simp [hparen] at ht
          · refine reads_expect fun arrow rest₂ _ => ?_
            refine ((ih rest₂).bind_pure fun result rest₃ => ?_).shallower (by omega)
            rw [meaning_arrowOf]
        · intro d rest' _ hhead
          cases d with
          | arrowType left types right arrow result =>
            obtain ⟨row, rfl⟩ := exists_typesOf types
            exact ⟨(left, (some row, right), arrow, result), rfl⟩
          | thunkType left right arrow result =>
            exact ⟨(left, (none, right), arrow, result), rfl⟩
          | _ => cases ht.symm.trans (class_of_type hhead)
      case h_4 hname hquoted hleft =>
        refine opens_type.reads_unexpected fun t' ht' => ?_
        obtain rfl : t = t' := Option.some.inj ht'
        generalize t.lexeme = l at *
        cases l <;> simp_all [Lexeme.terminal]

theorem parses_optionalType : Parses file .returnType [.colon] n (optionalType file n) := by
  intro ts
  refine reads_choice returns noReturns (fun colon rest _ => ?_) reads_empty ?_ (fun _ _ => rfl)
    (fun nothing => by cases nothing; rfl) ?_
  · refine Reads.of_closed (Reads.shallower ?_ (Nat.sub_le n 1))
    exact (parses_typeExpr n rest).bind_pure fun _ _ => rfl
  · rintro ⟨⟩ rest hends
    exact hends.imp fun t ht => ⟨.colon, List.mem_cons_self, Lexeme.eq_symbol ht⟩
  · intro d
    cases d with
    | returns colon type => exact .inl ⟨colon, type, rfl⟩
    | noReturns nothing => exact .inr ⟨nothing, rfl⟩

theorem parses_param : Parses file .parameter [.colon] n (param file n) := by
  intro ts
  refine Reads.node paramOf (reads_identifier fun x rest _ => ?_) ?_ ?_
  · refine ((parses_optionalType rest).bind_pure ?_).shallower (Nat.sub_le n 1)
    rintro (⟨colon, type⟩ | ⟨_⟩) rest' <;> rfl
  · rintro ⟨x, ⟨colon, type⟩ | ⟨_⟩⟩ <;> rfl
  · intro d _ _ _
    cases d with
    | paramPlain x => exact ⟨(x, noReturns .empty), rfl⟩
    | paramAscribed x colon type => exact ⟨(x, returns colon type), rfl⟩

/-! ## Statements -/

/-- The symbols that make a postfix expression longer. -/
def callMarks : List Symbol := [.leftParen]

/-- The symbols that make a product longer. -/
def productMarks : List Symbol := [.times, .divide] ++ callMarks

/-- The symbols that make a sum longer. -/
def sumMarks : List Symbol := [.plus, .minus] ++ productMarks

/-- The symbols that make an expression longer. -/
def expressionMarks : List Symbol := comparisonMarks ++ sumMarks

/-- Items are followed by nothing that would make an expression longer. -/
theorem ends_expression {rest : List Token} (h : Ends NotBrace rest) :
    Ends (OneOf expressionMarks) rest := by
  refine h.imp fun t ht hbrace => ?_
  exact not_oneOf hbrace (by decide) ht

theorem reads_items {inner block : Rule Term} {N M : Nat}
    (hinner : Parses file .expression expressionMarks N inner)
    (hblock : Parses file .block [] M block) {m k : Nat} (hm : k ≤ m) (hN : k ≤ N) (hM : k ≤ M)
    (ts : List Token) : Reads (itemsValue file) NotBrace k ts (items file inner block m ts) := by
  induction m generalizing k ts with
  | zero =>
    obtain rfl : k = 0 := by omega
    exact reads_tooDeep
  | succ m ih =>
    rcases ts with _ | ⟨t, rest⟩
    · refine reads_nothing (d := ([], none)) rfl fun items rest _ hhead => ?_
      rcases items_start items with h | ⟨t, rest', hword, -⟩
      · exact h
      · rw [hword] at hhead
        cases hhead
    · rw [items]
      by_cases hlet : t.lexeme = .keyword .letWord
      · rw [if_pos hlet]
        refine Reads.node letOf (reads_after ⟨t, by rw [hlet]; rfl⟩ ?_) word_letOf
          fun items rest' hends => exists_letOf (by rw [hlet]; rfl) hends
        refine reads_identifier fun x rest₁ _ => ?_
        refine ((parses_optionalType rest₁).shallower (by omega)).bind (fun type rest₂ _ => ?_)
          fun p rest' _ => ends_cons.2 (not_oneOf p.1.2 (by simp))
        refine reads_expect fun equals rest₃ _ => ?_
        refine ((hinner rest₃).shallower (by omega)).bind (fun e rest₄ _ => ?_)
          fun p rest' _ => ends_cons.2 (not_oneOf p.1.2 (by decide))
        refine reads_expect fun semicolon rest₅ _ => ?_
        refine (ih (by omega) (by omega) (by omega) rest₅).bind_pure fun more rest₆ => ?_
        rw [value_letOf]
      rw [if_neg hlet]
      by_cases hdef : t.lexeme = .keyword .defWord
      · rw [if_pos hdef]
        refine Reads.node definitionOf (reads_after ⟨t, by rw [hdef]; rfl⟩ ?_) word_definitionOf
          fun items rest' hends => exists_definitionOf (by rw [hdef]; rfl) hends
        refine reads_identifier fun x rest₁ _ => ?_
        refine reads_expect fun left rest₂ _ => ?_
        refine ((reads_enclosed parses_param (by simp) (by simp) ?_ rest₂).shallower
          (by omega)).bind_closed fun params rest₃ _ => ?_
        · exact opens_param.imp fun t ht => by simp [ht]
        refine ((parses_optionalType rest₃).shallower (by omega)).bind (fun result rest₄ _ => ?_)
          fun p rest' _ => opens_block.pair.ends fun t ht => not_oneOf ht (by simp)
        refine ((hblock rest₄).shallower (by omega)).bind_closed fun body rest₅ _ => ?_
        refine (ih (by omega) (by omega) (by omega) rest₅).bind_pure fun more rest₆ => ?_
        rw [value_definitionOf]
      rw [if_neg hdef]
      by_cases hstart : startsExpression t
      · rw [if_pos hstart]
        refine Reads.node expressionOf ?_ word_expressionOf
          fun items rest' hends => exists_expressionOf ((startsExpression_iff t).1 hstart) hends
        refine ((hinner (t :: rest)).shallower hN).bind (fun e rest₁ heq => ?_) ?_
        · refine reads_choice (fun semicolon more => some (semicolon, more)) (fun _ : Unit => none)
            (fun semicolon rest₂ _ => ?_) reads_unit (fun _ rest' hends => ?_) (fun _ _ => rfl)
            (fun _ => rfl) ?_
          · exact (ih (by omega) (by omega) (by omega) rest₂).bind_pure fun _ _ => rfl
          · exact hends.imp fun t ht hbrace => by simp [ht] at hbrace
          · rintro (_ | ⟨semicolon, more⟩)
            · exact .inr ⟨(), rfl⟩
            · exact .inl ⟨semicolon, more, rfl⟩
        · rintro (_ | ⟨semicolon, more⟩) rest' hends
          · exact ends_expression hends
          · exact ends_cons.2 (not_oneOf semicolon.2 (by decide))
      · rw [if_neg hstart]
        refine reads_nothing (d := ([], none)) rfl fun items rest' _ hhead => ?_
        rcases items_start items with h | ⟨t', rest'', hword, ht'⟩
        · exact h
        · rw [hword] at hhead
          obtain rfl : t' = t := Option.some.inj hhead
          rcases List.mem_cons.1 ht' with h | ht'
          · exact absurd (Lexeme.eq_keyword h) hlet
          rcases List.mem_cons.1 ht' with h | ht'
          · exact absurd (Lexeme.eq_keyword h) hdef
          · exact absurd ((startsExpression_iff t').2 ht') hstart

/-! ## Expressions -/

section

variable {inner : Rule Term} {N : Nat}

theorem parses_block (hinner : Parses file .expression expressionMarks N inner) (hn : n ≤ N + 1) :
    Parses file .block [] n (block file inner n) := by
  induction n with
  | zero => exact fun ts => reads_tooDeep
  | succ n ih =>
    rintro (_ | ⟨t, rest⟩)
    · exact opens_block.reads_unexpected (by simp)
    · rw [block]
      by_cases ht : t.lexeme = .symbol .leftBrace
      · rw [if_pos ht]
        refine Reads.node blockOf (reads_after ⟨t, by rw [ht]; rfl⟩ ?_) word_blockOf
          fun d _ _ _ => exists_blockOf d
        have hitems := reads_items hinner (ih (by omega)) (Nat.le_refl n) (by omega)
          (Nat.le_refl n) rest
        refine hitems.bind (fun items rest' _ => ?_) ?_
        · refine reads_expect_last fun right rest'' => ?_
          rw [meaning_blockOf]
          rfl
        · exact fun right rest' _ => ends_cons.2 fun hbrace => hbrace right.2
      · rw [if_neg ht]
        refine opens_block.reads_unexpected fun t' ht' hbrace => ht ?_
        obtain rfl : t = t' := Option.some.inj ht'
        exact Lexeme.eq_symbol hbrace

/-- What follows `else` is a conditional if and only if it starts with `if`. -/
theorem reads_elseBranch {block conditional : Rule Term} {depth : Nat}
    (hblock : Parses file .block [] depth block)
    (hconditional : Parses file .conditional [] depth conditional)
    {value : Derivation .block ⊕ Derivation .conditional → α}
    {k : Term × List Token → Except Stop (α × List Token)}
    (hleft : ∀ d rest, k (meaning file (p := .block) d, rest) = .ok (value (.inl d), rest))
    (hright : ∀ d rest, k (meaning file (p := .conditional) d, rest) = .ok (value (.inr d), rest))
    (ts : List Token) :
    Reads value (OneOf []) depth ts
      (match eat? (.keyword .ifWord) ts with
        | some _ => conditional ts >>= k
        | none => block ts >>= k) := by
  by_cases h : ∃ (t : Leaf (.keyword .ifWord)) (rest : List Token), ts = t.1 :: rest
  · obtain ⟨t, rest, rfl⟩ := h
    rw [eat?_hit (fun _ => Lexeme.eq_keyword) t]
    refine Reads.node Sum.inr ((hconditional _).bind_pure hright) (fun _ => rfl) ?_
    rintro (d | d) rest' - hhead
    · have hbrace := opens_block.head hhead
      rw [t.2] at hbrace
      cases hbrace
    · exact ⟨d, rfl⟩
  · have hmiss : ∀ t rest, ts = t :: rest → t.lexeme.terminal ≠ .keyword .ifWord :=
      fun t rest heq ht => h ⟨⟨t, ht⟩, rest, heq⟩
    rw [eat?_miss rfl hmiss]
    refine Reads.node Sum.inl ((hblock _).bind_pure hleft) (fun _ => rfl) ?_
    rintro (d | d) rest' - hhead
    · exact ⟨d, rfl⟩
    · obtain ⟨t, rest'', hword, -⟩ := opens_conditional d
      rcases ts with _ | ⟨t', ts⟩
      · rw [show word (Sum.inr d : Derivation .block ⊕ Derivation .conditional) = word d from rfl,
          hword] at hhead
        cases hhead
      · exact absurd (opens_conditional.head hhead) (hmiss t' ts rfl)

theorem parses_conditional (hinner : Parses file .expression expressionMarks N inner)
    {block : Rule Term} {M : Nat} (hblock : Parses file .block [] M block) (hn : n ≤ N + 1)
    (hM : n ≤ M) : Parses file .conditional [] n (conditional file inner block n) := by
  induction n with
  | zero => exact fun ts => reads_tooDeep
  | succ n ih =>
    rintro (_ | ⟨t, rest⟩)
    · exact opens_conditional.reads_unexpected (by simp)
    · rw [conditional]
      by_cases ht : t.lexeme = .keyword .ifWord
      · rw [if_pos ht]
        refine Reads.node conditionalOf (reads_after ⟨t, by rw [ht]; rfl⟩ ?_) word_conditionalOf
          fun d _ _ _ => exists_conditionalOf d
        refine ((hinner rest).shallower (by omega)).bind (fun condition rest₁ _ => ?_)
          fun p rest' _ => opens_block.pair.ends fun t ht => not_oneOf ht (by decide)
        refine ((hblock rest₁).shallower (by omega)).bind_closed fun thenBranch rest₂ _ => ?_
        refine reads_expectWord fun else_ rest₃ _ => ?_
        have hbranch : Parses file .block [] n block := fun ts => (hblock ts).shallower (by omega)
        refine Reads.shallower (reads_elseBranch hbranch (ih (by omega) (by omega)) ?_ ?_ rest₃)
          (by omega)
        · exact fun elseBranch rest₄ => rfl
        · exact fun elseBranch rest₄ => rfl
      · rw [if_neg ht]
        refine opens_conditional.reads_unexpected fun t' ht' hword => ht ?_
        obtain rfl : t = t' := Option.some.inj ht'
        exact Lexeme.eq_keyword hword

theorem parses_primary (hinner : Parses file .expression expressionMarks N inner)
    (hn : n ≤ N + 1) : Parses file .primary [] n (primary file inner n) := by
  rintro (_ | ⟨t, rest⟩)
  · exact opens_primary.reads_unexpected (by simp)
  · rw [primary]
    split
    case h_1 value hvalue =>
      have ht : t.lexeme.terminal = .number := by rw [hvalue]; rfl
      refine reads_token number ht ?_ (fun _ => rfl) fun d rest' hhead => ?_
      · show Term.number t.lexeme.numeral _ = _
        rw [hvalue, Lexeme.numeral]
      · cases d with
        | number x => exact ⟨x, rfl⟩
        | _ => cases ht.symm.trans (class_of_primary hhead)
    case h_2 hword =>
      have ht : t.lexeme.terminal = .keyword .trueWord := by rw [hword]; rfl
      refine reads_token true_ ht rfl (fun _ => rfl) fun d rest' hhead => ?_
      cases d with
      | true_ x => exact ⟨x, rfl⟩
      | _ => cases ht.symm.trans (class_of_primary hhead)
    case h_3 hword =>
      have ht : t.lexeme.terminal = .keyword .falseWord := by rw [hword]; rfl
      refine reads_token false_ ht rfl (fun _ => rfl) fun d rest' hhead => ?_
      cases d with
      | false_ x => exact ⟨x, rfl⟩
      | _ => cases ht.symm.trans (class_of_primary hhead)
    case h_4 name hname =>
      have ht : t.lexeme.terminal = .identifier := by rw [hname]; rfl
      refine reads_token Derivation.name ht ?_ (fun _ => rfl) fun d rest' hhead => ?_
      · show Term.name t.lexeme.value _ = _
        rw [hname, Lexeme.value]
      · cases d with
        | name x => exact ⟨x, rfl⟩
        | _ => cases ht.symm.trans (class_of_primary hhead)
    case h_5 hleft =>
      have ht : t.lexeme.terminal = .symbol .leftParen := by rw [hleft]; rfl
      refine Reads.node (fun p : Leaf (.symbol .leftParen) × Derivation .expression ×
        Leaf (.symbol .rightParen) => group p.1 p.2.1 p.2.2) (reads_after ⟨t, ht⟩ ?_)
          (fun _ => rfl) fun d rest' _ hhead => ?_
      · refine ((hinner rest).shallower (by omega)).bind
          (fun e rest₁ _ => reads_expect_last fun _ _ => rfl)
          fun right rest' _ => ends_cons.2 (not_oneOf right.2 (by decide))
      · cases d with
        | group left e right => exact ⟨(left, e, right), rfl⟩
        | _ => cases ht.symm.trans (class_of_primary hhead)
    case h_6 hbrace =>
      have ht : t.lexeme.terminal = .symbol .leftBrace := by rw [hbrace]; rfl
      refine Reads.node blockPrimary (parses_block hinner hn _) (fun _ => rfl)
        fun d rest' _ hhead => ?_
      cases d with
      | blockPrimary d => exact ⟨d, rfl⟩
      | _ => cases ht.symm.trans (class_of_primary hhead)
    case h_7 hword =>
      have ht : t.lexeme.terminal = .keyword .ifWord := by rw [hword]; rfl
      refine Reads.node conditionalPrimary
        (parses_conditional hinner (parses_block hinner hn) hn (Nat.le_refl n) _) (fun _ => rfl)
        fun d rest' _ hhead => ?_
      cases d with
      | conditionalPrimary d => exact ⟨d, rfl⟩
      | _ => cases ht.symm.trans (class_of_primary hhead)
    case h_8 hnumber htrue hfalse hname hleft hbrace hif =>
      refine opens_primary.reads_unexpected fun t' ht' => ?_
      obtain rfl : t = t' := Option.some.inj ht'
      generalize t.lexeme = l at *
      cases l <;> simp_all [operandStarts, Lexeme.terminal]

theorem reads_calls (hinner : Parses file .expression expressionMarks N inner) (hn : n ≤ N + 1)
    (callee : Term) (ts : List Token) :
    Reads (fun tail : List (Leaf (.symbol .leftParen) × Enclosed (Derivation .expression)) =>
      tail.foldl (fun callee s =>
        Term.call callee (enclosedValue (meaning file) s.2) callee.location) callee)
      (OneOf callMarks) n ts (calls inner n callee ts) := by
  have harguments : ∀ m < n, ∀ ts, Reads (enclosedValue (meaning file (p := .expression)))
      (OneOf []) m ts (enclosed inner m ts) := by
    intro m hm ts
    refine reads_enclosed (fun ts => (hinner ts).shallower (by omega)) (by decide) (by decide) ?_ ts
    exact opens_expression.imp fun t ht hparen => by simp [hparen, operandStarts] at ht
  refine reads_loop (calls inner) (enclosed inner)
    (fun callee _ arguments => .call callee arguments callee.location) harguments
    (fun _ _ => rfl) (fun m callee t rest => ?_) (fun m callee ts hmiss => ?_) ?_ ?_ ?_
    (Nat.le_refl n) callee ts
  · rw [calls, eat?_hit (fun _ => Lexeme.eq_symbol) t]
  · rw [calls, eat?_miss rfl hmiss]
  · exact fun t _ => Token.not_oneOf_nil
  · exact fun t ht => ⟨.leftParen, List.mem_cons_self, Lexeme.eq_symbol ht⟩
  · exact fun t ht => absurd ht Token.not_oneOf_nil

theorem parses_postfixed (hinner : Parses file .expression expressionMarks N inner)
    (hn : n ≤ N + 1) : Parses file .postfixed callMarks n (postfixed file inner n) := by
  intro ts
  refine Reads.node callsOf ?_ word_callsOf fun d _ _ _ => exists_callsOf d
  refine (parses_primary hinner hn ts).bind_closed fun primary rest _ => ?_
  simp only [meaning_callsOf]
  exact (reads_calls hinner hn _ rest).shallower (Nat.sub_le n _)

theorem operator?_hit {marks : List Symbol} (t : Operator marks) : ∃ mark,
    t.1.lexeme = .symbol mark ∧
      ∀ rest, operator? marks (t.1 :: rest) = some (mark, t.1, rest) := by
  obtain ⟨mark, hmark, ht⟩ := t.2
  exact ⟨mark, ht, fun rest => by simp [operator?, ht, hmark]⟩

theorem operator?_miss {marks : List Symbol} {ts : List Token}
    (h : ∀ t rest, ts = t :: rest → ¬ OneOf marks t) : operator? marks ts = none := by
  rcases ts with _ | ⟨t, rest⟩
  · rfl
  · rw [operator?]
    split
    · rename_i mark ht
      exact if_neg fun hmark => h t rest rfl ⟨mark, hmark, ht⟩
    · rfl

theorem not_oneOf_operator {marks others : List Symbol} (hapart : ∀ m ∈ marks, m ∉ others)
    (t : Operator marks) : ¬ OneOf others t.1 := by
  obtain ⟨m, hm, ht⟩ := t.2
  refine not_oneOf (congrArg Lexeme.terminal ht) fun m' hm' he => ?_
  cases he
  exact hapart m hm hm'

/-- The operations after a left operand. No operator of theirs makes an operand longer. -/
theorem reads_operations [Fillable D] {value : D → Term} {operand : Rule Term} {mark : Symbol}
    {marks others : List Symbol}
    (hoperand : ∀ ts, Reads value (OneOf others) n ts (operand ts))
    (hapart : ∀ m ∈ mark :: marks, m ∉ others) (left : Term) (ts : List Token) :
    Reads (fun tail : List (Operator (mark :: marks) × D) => tail.foldl (fun left s =>
      Term.binary left s.1.1.lexeme.value (value s.2) (some (s.1.1.location file))) left)
      (OneOf (mark :: marks ++ others)) n ts
      (operations file (mark :: marks) operand n left ts) := by
  refine reads_loop (operations file (mark :: marks) operand) (fun _ => operand)
    (fun left t right => .binary left t.1.lexeme.value right (some (t.1.location file)))
    (fun m hm ts => (hoperand ts).shallower (Nat.le_of_lt hm)) (fun _ _ => rfl)
    (fun m left t rest => ?_) (fun m left ts hmiss => ?_) ?_ ?_ ?_ (Nat.le_refl n) left ts
  · obtain ⟨mark, hmark, ht⟩ := operator?_hit t
    rw [operations, ht, hmark]
    rfl
  · rw [operations, operator?_miss hmiss]
  · exact fun t ht => not_oneOf_operator hapart ⟨t, ht⟩
  · exact fun t ht => ht.mono (List.subset_append_left _ _)
  · exact fun t ht => ht.mono (List.subset_append_right _ _)

/-- Operations are followed by no symbol that would make their left operand longer. -/
theorem ends_operand {mark : Symbol} {marks others : List Symbol}
    (hapart : ∀ m ∈ mark :: marks, m ∉ others) (tail : List (Operator (mark :: marks) × D))
    {rest : List Token} (h : Ends (OneOf (mark :: marks ++ others)) rest) :
    Ends (OneOf others) (word tail ++ rest) := by
  rcases tail with _ | ⟨⟨t, d⟩, tail⟩
  · exact h.imp fun t ht => ht.mono (List.subset_append_right _ _)
  · exact ends_cons.2 (not_oneOf_operator hapart t)

theorem parses_product (hinner : Parses file .expression expressionMarks N inner)
    (hn : n ≤ N + 1) : Parses file .multiplicative productMarks n (product file inner n) := by
  intro ts
  refine Reads.node productOf ?_ word_productOf fun d _ _ _ => exists_productOf d
  refine (parses_postfixed hinner hn ts).bind (fun left rest _ => ?_)
    fun tail rest => ends_operand (by decide) tail
  simp only [meaning_productOf]
  exact (reads_operations (parses_postfixed hinner hn) (by decide) _ rest).shallower
    (Nat.sub_le n _)

theorem parses_sum (hinner : Parses file .expression expressionMarks N inner)
    (hn : n ≤ N + 1) : Parses file .additive sumMarks n (sum file inner n) := by
  intro ts
  refine Reads.node sumOf ?_ word_sumOf fun d _ _ _ => exists_sumOf d
  refine (parses_product hinner hn ts).bind (fun left rest _ => ?_)
    fun tail rest => ends_operand (by decide) tail
  simp only [meaning_sumOf]
  exact (reads_operations (parses_product hinner hn) (by decide) _ rest).shallower (Nat.sub_le n _)

theorem parses_comparison (hinner : Parses file .expression expressionMarks N inner)
    (hn : n ≤ N + 1) : Parses file .comparison expressionMarks n (comparison file inner n) := by
  intro ts
  refine Reads.node comparisonOf ?_ word_comparisonOf fun d _ _ _ => exists_comparisonOf d
  refine (parses_sum hinner hn ts).bind (fun left rest _ => ?_) ?_
  · refine reads_either (fun t right => some (t, right)) (fun _ : Unit => none) ?_ (fun hmiss => ?_)
      (fun _ rest' hends => hends.imp fun t ht => ht.mono (List.subset_append_left _ _))
      (fun _ _ => rfl) (fun _ => rfl) ?_
    · rintro t rest₁ rfl
      obtain ⟨mark, hmark, ht⟩ := operator?_hit t
      dsimp only
      rw [ht]
      refine Reads.shallower (Reads.mono ((parses_sum hinner hn rest₁).bind_pure ?_)
        fun t ht => ht.mono (List.subset_append_right _ _)) (by omega)
      intro right rest₂
      show _ = Except.ok (Term.binary _ t.1.lexeme.value _ _, rest₂)
      rw [hmark]
      rfl
    · dsimp only
      rw [operator?_miss hmiss]
      exact reads_unit
    · rintro (_ | ⟨t, right⟩)
      · exact .inr ⟨(), rfl⟩
      · exact .inl ⟨t, right, rfl⟩
  · rintro (_ | ⟨t, right⟩) rest hends
    · exact hends.imp fun t ht => ht.mono (List.subset_append_right _ _)
    · exact ends_cons.2 (not_oneOf_operator (by decide) t)

end

theorem parses_expression (n : Nat) :
    Parses file .expression expressionMarks (n - 1) (expression file n) := by
  induction n with
  | zero => exact fun ts => reads_tooDeep
  | succ n ih =>
    rintro (_ | ⟨t, rest⟩)
    · exact opens_expression.reads_unexpected (by simp)
    · rw [expression]
      by_cases ht : t.lexeme = .symbol .backslash
      · rw [if_pos ht]
        refine Reads.node (fun p : Leaf (.symbol .backslash) × Row (Derivation .parameter) ×
          Leaf (.symbol .arrow) × Derivation .expression =>
            lambdaExpression (.lambda p.1 (paramsOf p.2.1) p.2.2.1 p.2.2.2))
          (reads_after ⟨t, by rw [ht]; rfl⟩ ?_) ?_ ?_
        · refine ((reads_separated parses_param (by decide) (Nat.le_refl n) rest).shallower
            (by omega)).bind (fun row rest₁ _ => ?_)
              fun p rest' _ => ends_cons.2 (not_oneOf p.1.2 (by decide))
          refine reads_expect fun arrow rest₂ _ => ?_
          refine ((ih rest₂).shallower (by omega)).bind_pure fun body rest₃ => ?_
          show _ = Except.ok (Term.lambda (meaning file (paramsOf row)) _ _, rest₃)
          rw [meaning_paramsOf]
        · rintro ⟨backslash, row, arrow, body⟩
          show backslash.1 :: (word (paramsOf row) ++ arrow.1 :: word body) =
            backslash.1 :: (word row ++ arrow.1 :: word body)
          rw [word_paramsOf]
        · intro d rest' _ hhead
          cases d with
          | lambdaExpression d =>
            cases d with
            | lambda backslash params arrow body =>
              obtain ⟨row, rfl⟩ := exists_paramsOf params
              exact ⟨(backslash, row, arrow, body), rfl⟩
          | comparisonExpression d =>
            have hstart := opens_comparison.head hhead
            rw [ht] at hstart
            simp [operandStarts, Lexeme.terminal] at hstart
      · rw [if_neg ht]
        refine Reads.node comparisonExpression (parses_comparison ih (by omega) _) (fun _ => rfl)
          fun d rest' _ hhead => ?_
        cases d with
        | lambdaExpression d => exact absurd (Lexeme.eq_symbol (opens_lambda.head hhead)) ht
        | comparisonExpression d => exact ⟨d, rfl⟩

/-! ## Programs -/

/-- The parser reads programs exactly. No token makes a program longer that ends where the
tokens end. -/
theorem reads_program (file : String) (n : Nat) (ts : List Token) :
    Reads (fun d : Derivation .program => d.program file) (fun _ => True) (n - 1) ts
      ((Parser.program file n ts).map fun p => (p, [])) := by
  have hblock : Parses file .block [] (n - 1) (block file (expression file n) n) := fun ts =>
    (parses_block (parses_expression n) (by omega) ts).shallower (Nat.sub_le n 1)
  have hitems := reads_items (parses_expression n) hblock (Nat.sub_le n 1) (Nat.le_refl _)
    (Nat.le_refl _) ts
  refine Reads.node programOf ?_ word_programOf fun d _ _ _ => exists_programOf d
  have hstarts : ∀ (d : Items) front next,
      Starts (fun _ => True) d front next → Starts NotBrace d front next :=
    fun _ _ _ ⟨rest, tail, hends, heq⟩ => ⟨rest, tail, hends.imp fun _ _ => trivial, heq⟩
  unfold Parser.program
  rcases hread : items file (expression file n) (block file (expression file n) n) n ts with
    stop | ⟨result, rest⟩
  · rw [hread] at hitems
    cases stop with
    | tooDeep => exact hitems
    | unexpected rest =>
      obtain ⟨front, hts, hfill, hnone⟩ := hitems
      exact ⟨front, hts, hfill, fun d hd => hnone d (hstarts d _ _ hd)⟩
  · rw [hread] at hitems
    obtain ⟨d, rfl, rfl, honly⟩ := hitems
    rcases rest with _ | ⟨t, rest⟩
    · refine ⟨d, rfl, ?_, fun d' hd' => honly d' (hstarts d' _ _ hd')⟩
      simp only [Derivation.program, meaning_programOf]
      rfl
    · refine ⟨word d, rfl, ⟨[], by simp, fun back hback => ⟨d, ?_⟩⟩, fun d' hd' => ?_⟩
      · simp [List.map_eq_nil_iff.1 hback]
      · obtain rfl : d' = d := honly d' (hstarts d' _ _ hd')
        obtain ⟨rest', tail, hends, hnext, heq⟩ := hd'
        obtain rfl : rest' = tail := List.append_cancel_left heq
        exact hends t hnext trivial

end

end Parser

/-! ## Exactness -/

/-- Tokens that make a program. -/
def Grammatical (ts : List Token) : Prop := ∃ d : Derivation .program, d.word = ts

namespace Parser

variable {file : String} {ts : List Token}

/-- The parser's bound on nesting is never too small. -/
theorem program_ne_tooDeep : program file (ts.length + 2) ts ≠ .error .tooDeep := by
  intro h
  have hread := reads_program file (ts.length + 2) ts
  rw [h] at hread
  exact absurd (show ts.length + 2 - 1 ≤ ts.length from hread) (by omega)

/-- A program that is read is what the only derivation of its tokens stands for. -/
theorem derivation_of_ok {n : Nat} {p : Program} (h : program file n ts = .ok p) :
    ∃ d : Derivation .program, d.word = ts ∧ d.program file = p ∧
      ∀ d' : Derivation .program, d'.word = ts → d' = d := by
  have hread := reads_program file n ts
  rw [h] at hread
  obtain ⟨d, hts, hvalue, honly⟩ := hread
  have hword : d.word = ts := by rw [hts, List.append_nil]; rfl
  refine ⟨d, hword, hvalue, fun d' hd' => honly d' ⟨[], [], by simp [Ends], rfl, ?_⟩⟩
  rw [List.append_nil, List.append_nil]
  exact hd'.trans hword.symm

/-- Where the parser refuses a token, the tokens before it can be completed to a program, and
with the token they cannot. -/
theorem front_of_unexpected {n : Nat} {rest : List Token}
    (h : program file n ts = .error (.unexpected rest)) :
    ∃ front, ts = front ++ rest ∧ Completes (Derivation .program) front ∧
      ∀ tail, tail.head? = rest.head? → ¬ Grammatical (front ++ tail) := by
  have hread := reads_program file n ts
  rw [h] at hread
  obtain ⟨front, hts, hfill, hnone⟩ := hread
  refine ⟨front, hts, hfill, ?_⟩
  rintro tail htail ⟨d, hd⟩
  exact hnone d ⟨[], tail, by simp [Ends], htail, by rw [List.append_nil]; exact hd⟩

/-- Tokens that make a program are read. -/
theorem ok_of_grammatical (h : Grammatical ts) :
    ∃ p, program file (ts.length + 2) ts = .ok p := by
  rcases hread : program file (ts.length + 2) ts with (_ | _) | p
  · obtain ⟨front, hts, -, hnone⟩ := front_of_unexpected hread
    exact absurd (hts ▸ h) (hnone _ rfl)
  · exact absurd hread program_ne_tooDeep
  · exact ⟨p, rfl⟩

end Parser

end LetPoly
