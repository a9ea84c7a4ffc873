-- What it means that a rule reads phrases exactly. Where it succeeds, it has taken off the
-- tokens of one phrase, and no other one fits what stands there and the token after it.
-- Where it refuses a token, those before it can be completed to a phrase, and with that
-- token they cannot. Rules one after the other read phrases one after the other.
import LetPoly.Proofs.Grammar

namespace LetPoly

/-- A lexeme that can be written down wherever one of its class is wanted. -/
def Lexeme.Plain : Lexeme → Prop
  | identifier name => name = "x"
  | number value => value = 0
  | typeVariable _ => False
  | keyword _ | symbol _ => True

namespace Lexeme

theorem eq_symbol {l : Lexeme} {mark : Symbol} (h : l.terminal = .symbol mark) :
    l = symbol mark := by
  cases l <;> simp_all [terminal]

theorem eq_keyword {l : Lexeme} {word : Keyword} (h : l.terminal = .keyword word) :
    l = keyword word := by
  cases l <;> simp_all [terminal]

theorem eq_identifier {l : Lexeme} (h : l.terminal = .identifier) :
    ∃ name, l = identifier name := by
  cases l <;> simp_all [terminal]

end Lexeme

namespace Token

variable {marks : List Symbol} {t : Token}

theorem not_oneOf {class_ : Terminal} (ht : t.lexeme.terminal = class_)
    (h : ∀ mark ∈ marks, class_ ≠ .symbol mark) : ¬ t.OneOf marks := by
  rintro ⟨mark, hmark, he⟩
  refine h mark hmark ?_
  rw [← ht, he]
  rfl

theorem not_oneOf_nil : ¬ t.OneOf [] := by
  simp [OneOf]

theorem OneOf.mono {marks' : List Symbol} (h : t.OneOf marks) (hsub : marks ⊆ marks') :
    t.OneOf marks' := by
  obtain ⟨mark, hmark, ht⟩ := h
  exact ⟨mark, hsub hmark, ht⟩

end Token

/-! ## Things made of tokens -/

/-- What stands for a sequence of tokens. -/
class Worded (D : Type) where
  /-- The tokens, in order. -/
  word : D → List Token

export Worded (word)

instance {p : Phrase} : Worded (Derivation p) := ⟨Derivation.word⟩

instance {accepts : Token → Prop} : Worded { t // accepts t } := ⟨fun t => [t.1]⟩

instance : Worded Unit := ⟨fun _ => []⟩

instance {D E : Type} [Worded D] [Worded E] : Worded (D × E) := ⟨fun p => word p.1 ++ word p.2⟩

instance {D : Type} [Worded D] : Worded (List D) := ⟨fun ds => ds.flatMap word⟩

instance {D : Type} [Worded D] : Worded (Option D) := ⟨fun d => d.elim [] word⟩

section

variable {D E : Type} [Worded D] [Worded E]

theorem word_derivation {p : Phrase} (d : Derivation p) : word d = d.word := rfl

theorem word_leaf {accepts : Token → Prop} (t : { t // accepts t }) : word t = [t.1] := rfl

theorem word_pair (d : D) (e : E) : word (d, e) = word d ++ word e := rfl

theorem word_nil : word ([] : List D) = [] := rfl

theorem word_cons (d : D) (ds : List D) : word (d :: ds) = word d ++ word ds := rfl

theorem word_some (d : D) : word (some d) = word d := rfl

end

namespace Parser

/-! ## Reading one phrase -/

/-- The tokens after a phrase do not go on with one that would still belong to it. -/
def Ends (more : Token → Prop) (rest : List Token) : Prop := ∀ t ∈ rest.head?, ¬ more t

/-- A phrase with what may follow it starts with the given tokens, and then the given one. -/
def Starts {D : Type} [Worded D] (more : Token → Prop) (d : D) (front : List Token)
    (next : Option Token) : Prop :=
  ∃ rest tail, Ends more rest ∧ tail.head? = next ∧ word d ++ rest = front ++ tail

/-- Some plain lexemes, wherever they stand, make a phrase of the given tokens. -/
def Completes (D : Type) [Worded D] (front : List Token) : Prop :=
  ∃ ls : List Lexeme, (∀ l ∈ ls, l.Plain) ∧
    ∀ back : List Token, back.map (·.lexeme) = ls → ∃ d : D, word d = front ++ back

/-- What a rule did with the given tokens is right. The bound on its nesting is too small only if
there are at least as many tokens as `depth` says. -/
def Reads {α D : Type} [Worded D] (value : D → α) (more : Token → Prop) (depth : Nat)
    (ts : List Token) : Except Stop (α × List Token) → Prop
  | .ok (a, rest) => ∃ d, ts = word d ++ rest ∧ value d = a ∧
      ∀ d', Starts more d' (word d) rest.head? → d' = d
  | .error (.unexpected rest) => ∃ front, ts = front ++ rest ∧ Completes D front ∧
      ∀ d' : D, ¬ Starts more d' front rest.head?
  | .error .tooDeep => depth ≤ ts.length

/-- There is a phrase of plain lexemes. -/
class Fillable (D : Type) [Worded D] : Prop where
  fill : Completes D []

/-- Every phrase starts with one of the given tokens. -/
def Opens (D : Type) [Worded D] (start : Token → Prop) : Prop :=
  ∀ d : D, ∃ t rest, word d = t :: rest ∧ start t

section

variable {α β D E F : Type} [Worded D] [Worded E] [Worded F] {ts rest : List Token} {depth : Nat}
  {more more₁ accepts start : Token → Prop} {value : D → α}

theorem Ends.imp {more' : Token → Prop} (h : Ends more rest) (himp : ∀ t, more' t → more t) :
    Ends more' rest :=
  fun t ht hm => h t ht (himp t hm)

theorem ends_cons {t : Token} : Ends more (t :: rest) ↔ ¬ more t := by
  simp [Ends]

theorem head?_append {front tail : List Token} (h : tail.head? = rest.head?) :
    (front ++ tail).head? = (front ++ rest).head? := by
  rw [List.head?_append, List.head?_append, h]

theorem Reads.shallower {depth' : Nat} {r : Except Stop (α × List Token)}
    (h : Reads value more depth' ts r) (hd : depth ≤ depth') : Reads value more depth ts r := by
  match r with
  | .ok _ => exact h
  | .error (.unexpected _) => exact h
  | .error .tooDeep => exact Nat.le_trans hd h

theorem Reads.mono {more' : Token → Prop} {r : Except Stop (α × List Token)}
    (h : Reads value more depth ts r) (himp : ∀ t, more t → more' t) :
    Reads value more' depth ts r := by
  have hstarts : ∀ (d : D) front next, Starts more' d front next → Starts more d front next :=
    fun _ _ _ ⟨rest, tail, hends, heq⟩ => ⟨rest, tail, hends.imp himp, heq⟩
  match r with
  | .ok _ =>
    obtain ⟨d, hts, hvalue, honly⟩ := h
    exact ⟨d, hts, hvalue, fun d' hd' => honly d' (hstarts d' _ _ hd')⟩
  | .error (.unexpected _) =>
    obtain ⟨front, hts, hfront, hnone⟩ := h
    exact ⟨front, hts, hfront, fun d' hd' => hnone d' (hstarts d' _ _ hd')⟩
  | .error .tooDeep => exact h

theorem Reads.of_closed {r : Except Stop (α × List Token)}
    (h : Reads value (Token.OneOf []) depth ts r) : Reads value more depth ts r :=
  h.mono fun _ ht => absurd ht Token.not_oneOf_nil

theorem Opens.head (h : Opens D start) {d : D} {t : Token}
    (hhead : (word d ++ rest).head? = some t) : start t := by
  obtain ⟨t', rest', hword, ht'⟩ := h d
  rw [hword] at hhead
  obtain rfl : t' = t := Option.some.inj hhead
  exact ht'

theorem Opens.ends (h : Opens D start) {d : D} (hother : ∀ t, start t → ¬ more t) :
    Ends more (word d ++ rest) :=
  fun t ht => hother t (h.head ht)

theorem Opens.of_front (h : Opens D start) (hfront : ∀ f : F, ∃ (d : D) (rest : List Token),
    word f = word d ++ rest) : Opens F start := by
  intro f
  obtain ⟨d, rest, hf⟩ := hfront f
  obtain ⟨t, rest', hword, ht⟩ := h d
  exact ⟨t, rest' ++ rest, by rw [hf, hword, List.cons_append], ht⟩

theorem Opens.pair (h : Opens D start) : Opens (D × E) start :=
  h.of_front fun p => ⟨p.1, word p.2, rfl⟩

theorem Opens.imp {start' : Token → Prop} (h : Opens D start)
    (himp : ∀ t, start t → start' t) : Opens D start' := by
  intro d
  obtain ⟨t, rest, hword, ht⟩ := h d
  exact ⟨t, rest, hword, himp t ht⟩

/-- A rule that succeeds without taking off a token. -/
theorem reads_nothing {d : D} (hword : word d = [])
    (honly : ∀ d' rest, Ends more rest → (word d' ++ rest).head? = ts.head? → d' = d) :
    Reads value more depth ts (.ok (value d, ts)) := by
  refine ⟨d, by simp [hword], rfl, ?_⟩
  rintro d' ⟨rest, tail, hends, hnext, heq⟩
  refine honly d' rest hends ?_
  rw [heq, hword, List.nil_append, hnext]

theorem reads_unit {value : Unit → α} : Reads value more depth ts (.ok (value (), ts)) :=
  reads_nothing (d := ()) rfl fun _ _ _ _ => rfl

/-- A rule that refuses the first token. -/
theorem reads_unexpected [Fillable D]
    (hnone : ∀ (d : D) rest, Ends more rest → (word d ++ rest).head? ≠ ts.head?) :
    Reads value more depth ts (.error (.unexpected ts)) := by
  refine ⟨[], rfl, Fillable.fill, ?_⟩
  rintro d ⟨rest, tail, hends, hnext, heq⟩
  refine hnone d rest hends ?_
  rw [heq, List.nil_append, hnext]

/-- A rule that refuses a token with which no phrase starts. -/
theorem Opens.reads_unexpected [Fillable D] (h : Opens D start)
    (hts : ∀ t ∈ ts.head?, ¬ start t) :
    Reads value more depth ts (.error (.unexpected ts)) := by
  refine Parser.reads_unexpected fun d rest _ hhead => ?_
  obtain ⟨t, rest', hword, ht⟩ := h d
  exact hts t (by rw [← hhead, hword]; rfl) ht

theorem reads_tooDeep : Reads value more 0 ts (.error .tooDeep) := Nat.zero_le _

/-! ## Completing phrases -/

theorem Completes.node {front : List Token} (build : D → F) (h : Completes D front)
    (hword : ∀ d, word (build d) = word d) : Completes F front := by
  obtain ⟨ls, hls, hfill⟩ := h
  refine ⟨ls, hls, fun back hback => ?_⟩
  obtain ⟨d, hd⟩ := hfill back hback
  exact ⟨build d, by rw [hword, hd]⟩

theorem Fillable.node [Fillable D] (build : D → F) (hword : ∀ d, word (build d) = word d) :
    Fillable F :=
  ⟨(Fillable.fill (D := D)).node build hword⟩

theorem Fillable.nothing (d : D) (h : word d = []) : Fillable D :=
  ⟨[], by simp, fun back hback => ⟨d, by simp [h, List.map_eq_nil_iff.1 hback]⟩⟩

theorem Completes.append [Fillable E] {front : List Token} (h : Completes D front) :
    Completes (D × E) front := by
  obtain ⟨ls, hls, hd⟩ := h
  obtain ⟨ls', hls', he⟩ := Fillable.fill (D := E)
  refine ⟨ls ++ ls', fun l hl => (List.mem_append.1 hl).elim (hls l) (hls' l), fun back hback => ?_⟩
  obtain ⟨back₁, back₂, rfl, h₁, h₂⟩ := List.map_eq_append_iff.1 hback
  obtain ⟨d, hd⟩ := hd back₁ h₁
  obtain ⟨e, he⟩ := he back₂ h₂
  exact ⟨(d, e), by simp [word_pair, hd, he]⟩

theorem Completes.behind {front : List Token} (d : D) (h : Completes E front) :
    Completes (D × E) (word d ++ front) := by
  obtain ⟨ls, hls, he⟩ := h
  refine ⟨ls, hls, fun back hback => ?_⟩
  obtain ⟨e, he⟩ := he back hback
  exact ⟨(d, e), by simp [word_pair, he]⟩

instance : Fillable Unit := .nothing () rfl

instance : Fillable (List D) := .nothing [] rfl

instance : Fillable (Option D) := .nothing none rfl

instance [Fillable D] [Fillable E] : Fillable (D × E) := ⟨Fillable.fill.append⟩

/-- Tokens of which one has a plain lexeme. -/
theorem fillable_of_plain {l : Lexeme} (hl : l.Plain)
    (haccepts : ∀ t : Token, t.lexeme = l → accepts t) : Fillable { t // accepts t } := by
  refine ⟨[l], by simpa using hl, fun back hback => ?_⟩
  obtain ⟨t, rfl, ht⟩ := List.map_eq_singleton_iff.1 hback
  exact ⟨⟨t, haccepts t ht⟩, rfl⟩

instance {mark : Symbol} : Fillable (Leaf (.symbol mark)) :=
  fillable_of_plain (l := .symbol mark) trivial fun _ => congrArg Lexeme.terminal

instance {keyword : Keyword} : Fillable (Leaf (.keyword keyword)) :=
  fillable_of_plain (l := .keyword keyword) trivial fun _ => congrArg Lexeme.terminal

instance : Fillable (Leaf .identifier) :=
  fillable_of_plain (l := .identifier "x") rfl fun _ => congrArg Lexeme.terminal

instance {mark : Symbol} {marks : List Symbol} : Fillable (Operator (mark :: marks)) :=
  fillable_of_plain (l := .symbol mark) trivial fun _ ht => ⟨mark, List.mem_cons_self, ht⟩

/-! ## Productions -/

/-- If all phrases that can start with the next token are built in one way, what reads their
parts reads them. -/
theorem Reads.node {value : F → α} {r : Except Stop (α × List Token)} (build : D → F)
    (h : Reads (fun d => value (build d)) more depth ts r)
    (hword : ∀ d, word (build d) = word d)
    (hcover : ∀ f rest, Ends more rest → (word f ++ rest).head? = ts.head? → ∃ d, build d = f) :
    Reads value more depth ts r := by
  have hlift : ∀ f front next, (front ++ next.toList).head? = ts.head? →
      Starts more f front next → ∃ d, build d = f ∧ Starts more d front next := by
    rintro f front next hhead ⟨rest, tail, hends, rfl, heq⟩
    obtain ⟨d, rfl⟩ := hcover f rest hends <| by
      rw [heq, ← hhead]
      exact head?_append (by cases tail <;> rfl)
    exact ⟨d, rfl, rest, tail, hends, rfl, by rw [← hword, heq]⟩
  have hnext : ∀ rest : List Token, rest.head?.toList.head? = rest.head? := by
    intro rest
    cases rest <;> rfl
  match r with
  | .ok (a, rest) =>
    obtain ⟨d, rfl, hvalue, honly⟩ := h
    refine ⟨build d, by rw [hword], hvalue, fun f hf => ?_⟩
    rw [hword] at hf
    obtain ⟨d', rfl, hd'⟩ := hlift f _ _ (head?_append (hnext rest)) hf
    rw [honly d' hd']
  | .error (.unexpected rest) =>
    obtain ⟨front, rfl, hfill, hnone⟩ := h
    refine ⟨front, rfl, hfill.node build hword, fun f hf => ?_⟩
    obtain ⟨d, -, hd⟩ := hlift f _ _ (head?_append (hnext rest)) hf
    exact hnone d hd
  | .error .tooDeep => exact h

/-- A phrase that is read and changed in meaning only. -/
theorem Reads.bind_pure {value' : D → β} {r : Except Stop (α × List Token)}
    {k : α × List Token → Except Stop (β × List Token)} (h : Reads value more depth ts r)
    (hk : ∀ d rest, k (value d, rest) = .ok (value' d, rest)) :
    Reads value' more depth ts (r >>= k) := by
  match r with
  | .ok (a, rest) =>
    obtain ⟨d, hts, rfl, honly⟩ := h
    show Reads value' more depth ts (k (value d, rest))
    rw [hk]
    exact ⟨d, hts, rfl, honly⟩
  | .error (.unexpected rest) => exact h
  | .error .tooDeep => exact h

/-- If what follows a phrase never starts with a token that would still belong to it, the first
rule stops where it should. -/
theorem Reads.bind [Fillable E] {value' : D × E → β} {r : Except Stop (α × List Token)}
    {k : α × List Token → Except Stop (β × List Token)} (h : Reads value more₁ depth ts r)
    (hk : ∀ d rest, ts = word d ++ rest → Reads (fun e => value' (d, e)) more
      (depth - (word d).length) rest (k (value d, rest)))
    (hfollow : ∀ (e : E) rest, Ends more rest → Ends more₁ (word e ++ rest)) :
    Reads value' more depth ts (r >>= k) := by
  match r with
  | .error .tooDeep => exact h
  | .error (.unexpected rest) =>
    obtain ⟨front, hts, hfront, hnone⟩ := h
    refine ⟨front, hts, hfront.append, ?_⟩
    rintro ⟨d, e⟩ ⟨rest', tail, hends, hnext, heq⟩
    exact hnone d ⟨word e ++ rest', tail, hfollow e rest' hends, hnext,
      by simpa [word_pair] using heq⟩
  | .ok (a, rest) =>
    obtain ⟨d, hts, rfl, honly⟩ := h
    -- the first part of a phrase that starts alike is the one that was read
    have hfirst : ∀ d' (e : E) rest' front tail, Ends more rest' →
        (front ++ tail).head? = rest.head? →
        word (d', e) ++ rest' = word d ++ (front ++ tail) →
        d' = d ∧ word e ++ rest' = front ++ tail := by
      intro d' e rest' front tail hends hhead heq
      rw [word_pair, List.append_assoc] at heq
      obtain rfl : d' = d := honly d' ⟨word e ++ rest', front ++ tail, hfollow e rest' hends,
        hhead, heq⟩
      exact ⟨rfl, List.append_cancel_left heq⟩
    have hk := hk d rest hts
    show Reads value' more depth ts (k (value d, rest))
    rcases hr : k (value d, rest) with stop | ⟨b, rest₂⟩
    · rw [hr] at hk
      cases stop with
      | tooDeep =>
        have hlen : depth - (word d).length ≤ rest.length := hk
        have htotal : ts.length = (word d).length + rest.length := by rw [hts, List.length_append]
        show depth ≤ ts.length
        omega
      | unexpected rest₂ =>
        obtain ⟨front, rfl, hfront, hnone⟩ := hk
        refine ⟨word d ++ front, by rw [hts, List.append_assoc], hfront.behind d, ?_⟩
        rintro ⟨d', e⟩ ⟨rest', tail, hends, hnext, heq⟩
        obtain ⟨-, heq₂⟩ := hfirst d' e rest' front tail hends (head?_append hnext)
          (by rw [heq, List.append_assoc])
        exact hnone e ⟨rest', tail, hends, hnext, heq₂⟩
    · rw [hr] at hk
      obtain ⟨e, rfl, hvalue, honly₂⟩ := hk
      refine ⟨(d, e), by rw [hts, word_pair, List.append_assoc], hvalue, ?_⟩
      rintro ⟨d', e'⟩ ⟨rest', tail, hends, hnext, heq⟩
      obtain ⟨rfl, heq₂⟩ := hfirst d' e' rest' (word e) tail hends (head?_append hnext)
        (by rw [heq, word_pair, List.append_assoc])
      rw [honly₂ e' ⟨rest', tail, hends, hnext, heq₂⟩]

/-- After a phrase that no token makes longer, anything may follow. -/
theorem Reads.bind_closed [Fillable E] {value' : D × E → β} {r : Except Stop (α × List Token)}
    {k : α × List Token → Except Stop (β × List Token)}
    (h : Reads value (Token.OneOf []) depth ts r)
    (hk : ∀ d rest, ts = word d ++ rest → Reads (fun e => value' (d, e)) more
      (depth - (word d).length) rest (k (value d, rest))) :
    Reads value' more depth ts (r >>= k) :=
  h.bind hk fun _ _ _ _ _ ht => Token.not_oneOf_nil ht

/-! ## Choices by the next token -/

theorem reads_single {value : { t // accepts t } → α} (t : { t // accepts t }) :
    Reads value more depth (t.1 :: rest) (.ok (value t, rest)) := by
  refine ⟨t, rfl, rfl, ?_⟩
  rintro t' ⟨rest', tail, -, -, heq⟩
  exact Subtype.ext (And.left (List.cons.inj heq))

/-- A rule that goes on after an accepted token. -/
theorem reads_after [Fillable E] {value' : { t // accepts t } × E → β}
    {r : Except Stop (β × List Token)} (t : { t // accepts t })
    (h : Reads (fun e => value' (t, e)) more (depth - 1) rest r) :
    Reads value' more depth (t.1 :: rest) r := by
  have hread : Reads id (fun _ => False) depth (t.1 :: rest) (.ok (t, rest)) := reads_single t
  refine hread.bind (k := fun _ => r) (fun t' rest' heq => ?_) (fun _ _ _ _ _ hf => hf)
  obtain ⟨htok, rfl⟩ := List.cons.inj heq
  obtain rfl : t = t' := Subtype.ext htok
  exact h

/-- A rule that first takes off an accepted token, and refuses all others. -/
theorem reads_leaf [Fillable { t // accepts t }] [Fillable E] {value' : { t // accepts t } × E → β}
    {r : Except Stop (β × List Token)}
    (hhit : ∀ (t : { t // accepts t }) (rest : List Token), ts = t.1 :: rest →
      Reads (fun e => value' (t, e)) more (depth - 1) rest r)
    (hmiss : (∀ t rest, ts = t :: rest → ¬ accepts t) → r = .error (.unexpected ts)) :
    Reads value' more depth ts r := by
  by_cases h : ∃ (t : { t // accepts t }) (rest : List Token), ts = t.1 :: rest
  · obtain ⟨t, rest, rfl⟩ := h
    exact reads_after t (hhit t rest rfl)
  · rw [hmiss fun t rest heq ht => h ⟨⟨t, ht⟩, rest, heq⟩]
    refine reads_unexpected ?_
    rintro ⟨t, e⟩ rest - hhead
    rcases ts with _ | ⟨t', ts⟩
    · cases hhead
    · obtain rfl : t.1 = t' := Option.some.inj hhead
      exact h ⟨t, ts, rfl⟩

/-- A phrase that starts with an accepted token, or one that does not and is not followed by
one. -/
theorem reads_either [Fillable D] {value : F → β} {r : Except Stop (β × List Token)}
    (build₁ : { t // accepts t } → D → F) (build₂ : E → F)
    (hsome : ∀ (t : { t // accepts t }) (rest : List Token), ts = t.1 :: rest →
      Reads (fun d => value (build₁ t d)) more (depth - 1) rest r)
    (hnone : (∀ t rest, ts = t :: rest → ¬ accepts t) →
      Reads (fun e => value (build₂ e)) more depth ts r)
    (hother : ∀ (e : E) rest, Ends more rest → Ends accepts (word e ++ rest))
    (hword₁ : ∀ t d, word (build₁ t d) = t.1 :: word d)
    (hword₂ : ∀ e, word (build₂ e) = word e)
    (hcover : ∀ f, (∃ t d, build₁ t d = f) ∨ ∃ e, build₂ e = f) :
    Reads value more depth ts r := by
  by_cases h : ∃ (t : { t // accepts t }) (rest : List Token), ts = t.1 :: rest
  · obtain ⟨t, rest, rfl⟩ := h
    refine Reads.node (fun p : { t // accepts t } × D => build₁ p.1 p.2)
      (reads_after t (hsome t rest rfl)) (fun p => hword₁ p.1 p.2) ?_
    intro f rest' hends hhead
    rcases hcover f with ⟨t', d, rfl⟩ | ⟨e, rfl⟩
    · exact ⟨(t', d), rfl⟩
    · rw [hword₂] at hhead
      exact absurd t.2 (hother e rest' hends t.1 hhead)
  · refine Reads.node build₂ (hnone fun t rest heq ht => h ⟨⟨t, ht⟩, rest, heq⟩) hword₂ ?_
    intro f rest' _ hhead
    rcases hcover f with ⟨t, d, rfl⟩ | ⟨e, rfl⟩
    · rw [hword₁] at hhead
      rcases ts with _ | ⟨t', ts⟩
      · cases hhead
      · obtain rfl : t.1 = t' := Option.some.inj hhead
        exact absurd ⟨t, ts, rfl⟩ h
    · exact ⟨e, rfl⟩

/-! ## Taking tokens off -/

theorem eat?_hit {class_ : Terminal} {l : Lexeme} (hclass : ∀ l', l'.terminal = class_ → l' = l)
    (t : Leaf class_) : eat? l (t.1 :: rest) = some rest := by
  simp [eat?, hclass _ t.2]

theorem eat?_miss {class_ : Terminal} {l : Lexeme} (hl : l.terminal = class_)
    (h : ∀ t rest, ts = t :: rest → t.lexeme.terminal ≠ class_) : eat? l ts = none := by
  rcases ts with _ | ⟨t, rest⟩
  · rfl
  · have hne : t.lexeme ≠ l := fun heq => h t rest rfl (by rw [heq, hl])
    simp [eat?, hne]

/-- A rule that takes off one lexeme only. -/
theorem reads_take [Fillable E] (class_ : Terminal) [Fillable (Leaf class_)] {l : Lexeme}
    (hl : l.terminal = class_) (hclass : ∀ l', l'.terminal = class_ → l' = l)
    {value' : Leaf class_ × E → β} {k : List Token → Except Stop (β × List Token)}
    (hk : ∀ (t : Leaf class_) (rest : List Token), ts = t.1 :: rest →
      Reads (fun e => value' (t, e)) more (depth - 1) rest (k rest)) :
    Reads value' more depth ts
      ((match eat? l ts with
        | some rest => .ok rest
        | none => .error (.unexpected ts)) >>= k) := by
  refine reads_leaf ?_ fun hmiss => ?_
  · rintro t rest rfl
    rw [eat?_hit hclass t]
    exact hk t rest rfl
  · rw [eat?_miss hl hmiss]
    rfl

theorem reads_expect [Fillable E] {mark : Symbol} {value' : Leaf (.symbol mark) × E → β}
    {k : List Token → Except Stop (β × List Token)}
    (hk : ∀ (t : Leaf (.symbol mark)) (rest : List Token), ts = t.1 :: rest →
      Reads (fun e => value' (t, e)) more (depth - 1) rest (k rest)) :
    Reads value' more depth ts (expect mark ts >>= k) :=
  reads_take (.symbol mark) (l := .symbol mark) rfl (fun _ => Lexeme.eq_symbol) hk

/-- The given symbol as the last token of a phrase. -/
theorem reads_expect_last {mark : Symbol} {value : Leaf (.symbol mark) → β}
    {k : List Token → Except Stop (β × List Token)}
    (hk : ∀ t rest, k rest = .ok (value t, rest)) :
    Reads value more depth ts (expect mark ts >>= k) := by
  refine Reads.node (fun p : Leaf (.symbol mark) × Unit => p.1)
    (reads_expect fun t rest _ => ?_) (fun _ => rfl) fun t _ _ _ => ⟨(t, ()), rfl⟩
  rw [hk t rest]
  exact reads_unit

theorem reads_expectWord [Fillable E] {keyword : Keyword}
    {value' : Leaf (.keyword keyword) × E → β} {k : List Token → Except Stop (β × List Token)}
    (hk : ∀ (t : Leaf (.keyword keyword)) (rest : List Token), ts = t.1 :: rest →
      Reads (fun e => value' (t, e)) more (depth - 1) rest (k rest)) :
    Reads value' more depth ts (expectWord keyword ts >>= k) :=
  reads_take (.keyword keyword) (l := .keyword keyword) rfl (fun _ => Lexeme.eq_keyword) hk

theorem reads_identifier [Fillable E] {value' : Leaf .identifier × E → β}
    {k : (String × Token) × List Token → Except Stop (β × List Token)}
    (hk : ∀ (t : Leaf .identifier) (rest : List Token), ts = t.1 :: rest →
      Reads (fun e => value' (t, e)) more (depth - 1) rest (k ((t.1.lexeme.value, t.1), rest))) :
    Reads value' more depth ts (identifier ts >>= k) := by
  refine reads_leaf ?_ fun hmiss => ?_
  · rintro t rest rfl
    have hread : identifier (t.1 :: rest) = .ok ((t.1.lexeme.value, t.1), rest) := by
      obtain ⟨name, hname⟩ := Lexeme.eq_identifier t.2
      simp [identifier, hname, Lexeme.value]
    rw [hread]
    exact hk t rest rfl
  · have hnone : identifier ts = .error (.unexpected ts) := by
      rcases ts with _ | ⟨t, rest⟩
      · rfl
      · have hclass := hmiss t rest rfl
        rw [identifier]
        split
        · rename_i name hname
          exact absurd (by rw [hname]; rfl) hclass
        · rfl
    rw [hnone]
    rfl

/-- A choice by the symbol that comes next. -/
theorem reads_choice [Fillable D] {mark : Symbol} {value : F → β}
    {k : List Token → Except Stop (β × List Token)} {r : Except Stop (β × List Token)}
    (build₁ : Leaf (.symbol mark) → D → F) (build₂ : E → F)
    (hsome : ∀ (t : Leaf (.symbol mark)) (rest : List Token), ts = t.1 :: rest →
      Reads (fun d => value (build₁ t d)) more (depth - 1) rest (k rest))
    (hnone : Reads (fun e => value (build₂ e)) more depth ts r)
    (hother : ∀ (e : E) rest, Ends more rest →
      Ends (fun t => t.lexeme.terminal = .symbol mark) (word e ++ rest))
    (hword₁ : ∀ t d, word (build₁ t d) = t.1 :: word d)
    (hword₂ : ∀ e, word (build₂ e) = word e)
    (hcover : ∀ f, (∃ t d, build₁ t d = f) ∨ ∃ e, build₂ e = f) :
    Reads value more depth ts
      (match eat? (.symbol mark) ts with
        | some rest => k rest
        | none => r) := by
  refine reads_either build₁ build₂ ?_ (fun hmiss => ?_) hother hword₁ hword₂ hcover
  · rintro t rest rfl
    rw [eat?_hit (fun _ => Lexeme.eq_symbol) t]
    exact hsome t rest rfl
  · rw [eat?_miss rfl hmiss]
    exact hnone

end

/-! ## Rows -/

open Token (OneOf not_oneOf)

/-- Phrases with commas between them. -/
abbrev Row (D : Type) := D × List (Leaf (.symbol .comma) × D)

/-- A row up to a closing parenthesis, or that parenthesis alone. -/
abbrev Enclosed (D : Type) := Option (Row D) × Leaf (.symbol .rightParen)

section

variable {α D : Type} [Worded D] [Fillable D] {value : D → α} {marks : List Symbol} {n : Nat}
  {item : Rule α}

/-- The meanings of the phrases of a row. -/
def rowValue (value : D → α) (row : Row D) : List α :=
  value row.1 :: row.2.map fun p => value p.2

/-- The meanings of the phrases of a row that may be missing. -/
def enclosedValue (value : D → α) (p : Enclosed D) : List α :=
  p.1.elim [] (rowValue value)

theorem reads_separated (hitem : ∀ ts, Reads value (OneOf marks) n ts (item ts))
    (hmarks : .comma ∉ marks) {m : Nat} (hm : m ≤ n) (ts : List Token) :
    Reads (rowValue value) (OneOf (.comma :: marks)) m ts (separated item m ts) := by
  induction m generalizing ts with
  | zero => exact reads_tooDeep
  | succ m ih =>
    rw [separated]
    refine ((hitem ts).shallower hm).bind (fun d rest hts => ?_) ?_
    · refine reads_choice (fun c (row : Row D) => (c, row.1) :: row.2) (fun _ : Unit => [])
        (fun t rest' _ => ?_) reads_unit ?_ (fun _ _ => rfl) (fun _ => rfl) ?_
      · exact ((ih (by omega) rest').shallower (by omega)).bind_pure fun row rest'' => rfl
      · exact fun _ rest' hends => hends.imp fun t ht =>
          ⟨.comma, List.mem_cons_self, Lexeme.eq_symbol ht⟩
      · rintro (_ | ⟨⟨c, d'⟩, tail⟩)
        · exact .inr ⟨(), rfl⟩
        · exact .inl ⟨c, (d', tail), rfl⟩
    · rintro (_ | ⟨⟨c, d⟩, tail⟩) rest hends
      · exact hends.imp fun t ht => ht.mono (List.subset_cons_self _ _)
      · exact ends_cons.2 (not_oneOf c.2 fun mark hmark he => hmarks (by cases he; exact hmark))

theorem reads_enclosed (hitem : ∀ ts, Reads value (OneOf marks) n ts (item ts))
    (hcomma : .comma ∉ marks) (hparen : .rightParen ∉ marks)
    (hopens : Opens D fun t => t.lexeme.terminal ≠ .symbol .rightParen) (ts : List Token) :
    Reads (enclosedValue value) (OneOf []) n ts (enclosed item n ts) := by
  refine reads_choice (fun t (_ : Unit) => (none, t))
    (fun p : Row D × Leaf (.symbol .rightParen) => (some p.1, p.2))
    (fun t rest _ => reads_unit) ?_ (fun p rest _ => hopens.pair.pair.ends fun t ht => ht)
    (fun _ _ => rfl) (fun _ => rfl) ?_
  · refine (reads_separated hitem hcomma (Nat.le_refl n) ts).bind
      (fun row rest _ => reads_expect_last fun _ _ => rfl) fun t rest _ => ?_
    refine ends_cons.2 (not_oneOf t.2 fun mark hmark he => ?_)
    cases he
    rcases List.mem_cons.1 hmark with h | h
    · cases h
    · exact hparen h
  · rintro ⟨_ | row, t⟩
    · exact .inl ⟨t, (), rfl⟩
    · exact .inr ⟨(row, t), rfl⟩

end

/-! ## Lists grouped to the left -/

/-- What a base and the parts after it build, grouped to the left. -/
def spine {B S L : Type} (base : B → L) (step : L → S → L) (p : B × List S) : L :=
  p.2.foldl step (base p.1)

section

variable {α B S L : Type} {base : B → L} {step : L → S → L}

theorem word_spine [Worded B] [Worded S] [Worded L] (p : B × List S)
    (hbase : ∀ b, word (base b) = word b)
    (hstep : ∀ l s, word (step l s) = word l ++ word s) :
    word (spine base step p) = word p := by
  obtain ⟨b, tail⟩ := p
  have hfold : ∀ l, word (tail.foldl step l) = word l ++ word tail := by
    induction tail with
    | nil => simp [word_nil]
    | cons s tail ih =>
      intro l
      rw [List.foldl_cons, ih, hstep, word_cons, List.append_assoc]
  rw [spine, hfold, hbase, word_pair]

theorem value_spine (value : L → α) (next : α → S → α)
    (hstep : ∀ l s, value (step l s) = next (value l) s) (p : B × List S) :
    value (spine base step p) = p.2.foldl next (value (base p.1)) := by
  obtain ⟨b, tail⟩ := p
  have hfold : ∀ l, value (tail.foldl step l) = tail.foldl next (value l) := by
    induction tail with
    | nil => simp
    | cons s tail ih =>
      intro l
      rw [List.foldl_cons, List.foldl_cons, ih, hstep]
  exact hfold (base b)

theorem value_row {D : Type} {one : D → L} {more : L → Leaf (.symbol .comma) × D → L}
    {valueL : L → List α} {value : D → α} (hone : ∀ d, valueL (one d) = [value d])
    (hmore : ∀ l s, valueL (more l s) = valueL l ++ [value s.2]) (row : Row D) :
    valueL (spine one more row) = rowValue value row := by
  obtain ⟨d, tail⟩ := row
  have hfold : ∀ as, tail.foldl (fun as s => as ++ [value s.2]) as =
      as ++ tail.map fun s => value s.2 := by
    induction tail with
    | nil => simp
    | cons s tail ih =>
      intro as
      rw [List.foldl_cons, ih, List.map_cons, List.append_assoc, List.singleton_append]
  rw [value_spine valueL (fun as s => as ++ [value s.2]) hmore, hone, hfold]
  rfl

/-- A loop that reads a part after each accepted token, up to a token that is not accepted. -/
theorem reads_loop {E γ : Type} [Worded E] [Fillable E] {accepts more moreE : Token → Prop}
    {value : E → γ} (loop : Nat → α → Rule α) (part : Nat → Rule γ)
    (next : α → { t // accepts t } → γ → α) {n : Nat}
    (hpart : ∀ m < n, ∀ ts, Reads value moreE m ts (part m ts))
    (hdeep : ∀ a ts, loop 0 a ts = .error .tooDeep)
    (hhit : ∀ m a t rest, loop (m + 1) a (t.1 :: rest) =
      part m rest >>= fun p => loop m (next a t p.1) p.2)
    (hmiss : ∀ m a ts, (∀ t rest, ts = t :: rest → ¬ accepts t) → loop (m + 1) a ts = .ok (a, ts))
    (hnext : ∀ t, accepts t → ¬ moreE t) (haccepts : ∀ t, accepts t → more t)
    (hmore : ∀ t, moreE t → more t) {m : Nat} (hm : m ≤ n) (a : α) (ts : List Token) :
    Reads (fun tail : List ({ t // accepts t } × E) =>
      tail.foldl (fun a s => next a s.1 (value s.2)) a) more m ts (loop m a ts) := by
  induction m generalizing a ts with
  | zero =>
    rw [hdeep]
    exact reads_tooDeep
  | succ m ih =>
    refine reads_either (fun t (p : E × List ({ t // accepts t } × E)) => (t, p.1) :: p.2)
      (fun _ : Unit => []) ?_ (fun h => ?_) (fun _ _ hends => hends.imp haccepts) (fun _ _ => rfl)
      (fun _ => rfl) ?_
    · rintro t rest rfl
      rw [hhit]
      refine (hpart m hm rest).bind (fun e rest' _ => ?_) ?_
      · exact (ih (Nat.le_of_succ_le hm) _ rest').shallower (by omega)
      · rintro (_ | ⟨⟨t', e⟩, tail⟩) rest' hends
        · exact hends.imp hmore
        · exact ends_cons.2 (hnext t'.1 t'.2)
    · rw [hmiss m a ts h]
      exact reads_unit
    · rintro (_ | ⟨⟨t, e⟩, tail⟩)
      · exact .inr ⟨(), rfl⟩
      · exact .inl ⟨t, (e, tail), rfl⟩

end

end Parser

end LetPoly
