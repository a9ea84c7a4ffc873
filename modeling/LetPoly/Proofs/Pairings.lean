-- What two runs of inference have in common when only the numbers of their type
-- variables differ: a pairing says which variable of the second run goes with which
-- of the first. It grows as both draw variables, and what went together before still
-- does.
import LetPoly.Proofs.Renaming
import LetPoly.Proofs.Tables

namespace LetPoly

open Function (Injective)

/-! ## Results that may be missing -/

section

variable {α β γ δ : Type} {R : α → β → Prop} {o : Option α} {o' : Option β}

theorem rel_imp {S : α → β → Prop} (h : Option.Rel R o o') (himp : ∀ a b, R a b → S a b) :
    Option.Rel S o o' := by
  cases h with
  | none => exact .none
  | some hr => exact .some (himp _ _ hr)

theorem rel_bind {S : γ → δ → Prop} (h : Option.Rel R o o') {f : α → Option γ}
    {g : β → Option δ} (hfg : ∀ a b, R a b → Option.Rel S (f a) (g b)) :
    Option.Rel S (o.bind f) (o'.bind g) := by
  cases h with
  | none => exact .none
  | some hr => exact hfg _ _ hr

theorem rel_none (h : Option.Rel R o o') : o = none ↔ o' = none := by
  cases h with
  | none => simp
  | some => simp

theorem exists_of_rel_left (h : Option.Rel R o o') {a : α} (ha : o = some a) :
    ∃ b, o' = some b ∧ R a b := by
  subst ha
  cases h with
  | some hr => exact ⟨_, rfl, hr⟩

theorem exists_of_rel_right (h : Option.Rel R o o') {b : β} (hb : o' = some b) :
    ∃ a, o = some a ∧ R a b := by
  subst hb
  cases h with
  | some hr => exact ⟨_, rfl, hr⟩

end

/-! ## Pairings -/

/-- Which variable of a second run goes with each variable of a first one, and the variables that
the two draw next. Those not drawn yet go together in order. -/
structure Pairing where
  map : Int → Int
  first : Int
  second : Int
  injective : Injective map
  drawn : ∀ v, v < first → map v < second
  ahead : ∀ v, first ≤ v → map v = v - first + second

namespace Pairing

/-- Both runs may have drawn more since, but what went together still does. -/
structure Extends (p q : Pairing) : Prop where
  first : p.first ≤ q.first
  second : p.second ≤ q.second
  keep : ∀ v, v < p.first → q.map v = p.map v

theorem Extends.refl (p : Pairing) : p.Extends p :=
  ⟨Int.le_refl _, Int.le_refl _, fun _ _ => rfl⟩

theorem Extends.trans {p q r : Pairing} (h : p.Extends q) (h' : q.Extends r) : p.Extends r := by
  refine ⟨Int.le_trans h.first h'.first, Int.le_trans h.second h'.second, fun v hv => ?_⟩
  have := h.first
  rw [h'.keep v (by omega), h.keep v hv]

/-- Every variable goes with the one as far from the second supply as it is from the first. -/
def between (n m : Int) : Pairing where
  map v := v - n + m
  first := n
  second := m
  injective := fun v w h => by
    simp only at h
    omega
  drawn := fun v h => by omega
  ahead := fun _ _ => rfl

/-- The pairing's map with `k` more variables drawn, which go together by a rearrangement. -/
def drawMap (p : Pairing) (k : Nat) (f : Nat → Nat) (v : Int) : Int :=
  if p.first ≤ v ∧ v < p.first + k then p.second + f (v - p.first).toNat else p.map v

theorem injective_drawMap (p : Pairing) {k : Nat} {f : Nat → Nat} (hlt : ∀ i < k, f i < k)
    (hinj : ∀ i < k, ∀ j < k, f i = f j → i = j) : Injective (p.drawMap k f) := by
  -- a variable drawn now goes above what was drawn before and below what is still ahead
  have hmixed : ∀ v w, (p.first ≤ v ∧ v < p.first + k) → ¬ (p.first ≤ w ∧ w < p.first + k) →
      p.second + f (v - p.first).toNat ≠ p.map w := by
    intro v w hv hw
    have hf := hlt (v - p.first).toNat (by omega)
    by_cases hlow : w < p.first
    · have := p.drawn w hlow
      omega
    · rw [p.ahead w (by omega)]
      omega
  intro v w hvw
  unfold drawMap at hvw
  by_cases hv : p.first ≤ v ∧ v < p.first + k <;> by_cases hw : p.first ≤ w ∧ w < p.first + k
  · rw [if_pos hv, if_pos hw] at hvw
    have := hinj (v - p.first).toNat (by omega) (w - p.first).toNat (by omega) (by omega)
    omega
  · rw [if_pos hv, if_neg hw] at hvw
    exact absurd hvw (hmixed v w hv hw)
  · rw [if_neg hv, if_pos hw] at hvw
    exact absurd hvw.symm (hmixed w v hw hv)
  · rw [if_neg hv, if_neg hw] at hvw
    exact p.injective hvw

theorem drawMap_of_lt (p : Pairing) (k : Nat) (f : Nat → Nat) {v : Int} (hv : v < p.first) :
    p.drawMap k f v = p.map v :=
  if_neg (by omega)

theorem drawMap_add (p : Pairing) {k : Nat} (f : Nat → Nat) {i : Nat} (hi : i < k) :
    p.drawMap k f (p.first + i) = p.second + f i := by
  rw [drawMap, if_pos (by omega)]
  congr 3
  omega

/-- Both runs draw `k` variables, and the ones drawn go together by a rearrangement. -/
def draw (p : Pairing) (k : Nat) (f : Nat → Nat) (hlt : ∀ i < k, f i < k)
    (hinj : ∀ i < k, ∀ j < k, f i = f j → i = j) : Pairing where
  map := p.drawMap k f
  first := p.first + k
  second := p.second + k
  injective := p.injective_drawMap hlt hinj
  drawn := by
    intro v hv
    by_cases hlow : p.first ≤ v
    · rw [drawMap, if_pos ⟨hlow, hv⟩]
      have := hlt (v - p.first).toNat (by omega)
      omega
    · rw [p.drawMap_of_lt k f (by omega)]
      have := p.drawn v (by omega)
      omega
  ahead := by
    intro v hv
    rw [drawMap, if_neg (by omega), p.ahead v (by omega)]
    omega

theorem extends_draw {p : Pairing} {k : Nat} {f : Nat → Nat} {hlt : ∀ i < k, f i < k}
    {hinj : ∀ i < k, ∀ j < k, f i = f j → i = j} : p.Extends (p.draw k f hlt hinj) :=
  ⟨by show p.first ≤ p.first + k; omega, by show p.second ≤ p.second + k; omega,
    fun _ hv => p.drawMap_of_lt k f hv⟩

/-- Both runs draw one variable. -/
def next (p : Pairing) : Pairing :=
  p.draw 1 id (fun _ h => h) fun _ _ _ _ h => h

theorem extends_next (p : Pairing) : p.Extends p.next := extends_draw

theorem next_map (p : Pairing) : p.next.map p.first = p.second := by
  have h : p.drawMap 1 id (p.first + (0 : Nat)) = p.second + (0 : Nat) :=
    p.drawMap_add id Nat.one_pos
  show p.drawMap 1 id p.first = p.second
  simpa using h

end Pairing

/-! ## What else may differ -/

/-- What two runs may differ in beside the numbers of their variables. -/
structure Twinning where
  /-- By how much the number of a variable goes up in the second run, if that is the same for all
  variables. -/
  shift : Option Int
  /-- The names that the two runs may bind to schemes of any kind. -/
  hidden : String → Prop

namespace Twinning

/-- Nothing else differs. -/
def plain : Twinning := ⟨none, fun _ => False⟩

variable {w : Twinning} {p : Pairing}

/-- A pairing shifts all variables by the same, if it has to. -/
def Admits (w : Twinning) (p : Pairing) : Prop := ∀ k, w.shift = some k → ∀ v, p.map v = v + k

theorem Admits.draw (h : w.Admits p) {k : Nat} {f : Nat → Nat} {hlt : ∀ i < k, f i < k}
    {hinj : ∀ i < k, ∀ j < k, f i = f j → i = j} (hf : w.shift ≠ none → ∀ i < k, f i = i) :
    w.Admits (p.draw k f hlt hinj) := by
  intro d hd v
  show p.drawMap k f v = v + d
  rw [Pairing.drawMap]
  by_cases hv : p.first ≤ v ∧ v < p.first + k
  · -- what is still ahead goes together in order, as what is drawn in order does
    rw [if_pos hv, hf (by simp [hd]) _ (by omega), ← h d hd v, p.ahead v hv.1]
    omega
  · rw [if_neg hv, h d hd v]

theorem Admits.next (h : w.Admits p) : w.Admits p.next := h.draw fun _ _ _ => rfl

end Twinning

/-! ## Things that hold variables -/

/-- Things that hold type variables, which may be renamed. -/
class Named (α : Type) where
  vars : α → List Int
  rename : (Int → Int) → α → α
  rename_congr : ∀ {π π' : Int → Int} {a : α}, (∀ v ∈ vars a, π v = π' v) →
    rename π a = rename π' a

instance : Named Ty := ⟨Ty.leaves, Ty.rename, Ty.rename_congr⟩

instance : Named Subst := ⟨Subst.mentioned, Subst.rename, Subst.rename_congr⟩

instance : Named Scheme where
  vars s := s.quantified ++ s.body.leaves
  rename := Scheme.rename
  rename_congr h := Scheme.rename_congr fun v hv => h v (List.mem_append.2 hv)

instance {α : Type} [Named α] : Named (List α) where
  vars as := as.flatMap Named.vars
  rename π as := as.map (Named.rename π)
  rename_congr h := List.map_congr_left fun a ha =>
    Named.rename_congr fun v hv => h v (List.mem_flatMap.2 ⟨a, ha, hv⟩)

instance {α β : Type} [Named α] [Named β] : Named (α × β) where
  vars pair := Named.vars pair.1 ++ Named.vars pair.2
  rename π pair := (Named.rename π pair.1, Named.rename π pair.2)
  rename_congr h := Prod.ext (Named.rename_congr fun v hv => h v (List.mem_append_left _ hv))
    (Named.rename_congr fun v hv => h v (List.mem_append_right _ hv))

namespace Pairing

/-- What the second run has is what goes with what the first one has, and all of it was drawn. -/
structure Matches {α : Type} [Named α] (p : Pairing) (a b : α) : Prop where
  eq : b = Named.rename p.map a
  drawn : ∀ v ∈ Named.vars a, v < p.first

section

variable {α β : Type} [Named α] [Named β] {p q : Pairing}

theorem Matches.mono {a b : α} (h : p.Matches a b) (hq : p.Extends q) : q.Matches a b := by
  have hle := hq.first
  refine ⟨h.eq.trans (Named.rename_congr fun v hv => (hq.keep v (h.drawn v hv)).symm),
    fun v hv => ?_⟩
  have := h.drawn v hv
  omega

theorem Matches.pair {a a' : α} {b b' : β} (ha : p.Matches a a') (hb : p.Matches b b') :
    p.Matches (a, b) (a', b') :=
  ⟨Prod.ext ha.eq hb.eq, fun v hv => (List.mem_append.1 hv).elim (ha.drawn v) (hb.drawn v)⟩

theorem Matches.fst {a b : α × β} (h : p.Matches a b) : p.Matches a.1 b.1 :=
  ⟨congrArg Prod.fst h.eq, fun v hv => h.drawn v (List.mem_append_left _ hv)⟩

theorem Matches.snd {a b : α × β} (h : p.Matches a b) : p.Matches a.2 b.2 :=
  ⟨congrArg Prod.snd h.eq, fun v hv => h.drawn v (List.mem_append_right _ hv)⟩

theorem matches_nil : p.Matches ([] : List α) [] := ⟨rfl, by simp [Named.vars]⟩

theorem Matches.cons {a b : α} {as bs : List α} (h : p.Matches a b) (hs : p.Matches as bs) :
    p.Matches (a :: as) (b :: bs) := by
  refine ⟨?_, fun v hv => ?_⟩
  · rw [h.eq, hs.eq]
    rfl
  · rw [show Named.vars (a :: as) = Named.vars a ++ Named.vars as from List.flatMap_cons] at hv
    exact (List.mem_append.1 hv).elim (h.drawn v) (hs.drawn v)

theorem Matches.of_nil {bs : List α} (h : p.Matches ([] : List α) bs) : bs = [] := h.eq

theorem Matches.of_cons {a : α} {as bs : List α} (h : p.Matches (a :: as) bs) :
    ∃ b bs', bs = b :: bs' ∧ p.Matches a b ∧ p.Matches as bs' := by
  have hvars : Named.vars (a :: as) = Named.vars a ++ Named.vars as := List.flatMap_cons
  refine ⟨_, _, h.eq, ⟨rfl, fun v hv => h.drawn v ?_⟩, ⟨rfl, fun v hv => h.drawn v ?_⟩⟩
  · rw [hvars]
    exact List.mem_append_left _ hv
  · rw [hvars]
    exact List.mem_append_right _ hv

end

variable {p : Pairing}

theorem matches_con (c : String) : p.Matches (Ty.con c) (.con c) :=
  ⟨rfl, by simp [Named.vars]⟩

theorem Matches.fn {params params' : List Ty} {result result' : Ty}
    (hp : p.Matches params params') (hr : p.Matches result result') :
    p.Matches (Ty.fn params result) (.fn params' result') := by
  refine ⟨?_, fun v hv => ?_⟩
  · rw [hp.eq, hr.eq]
    exact (Ty.rename_fn p.map params result).symm
  · rw [show Named.vars (Ty.fn params result) = _ from Ty.leaves_fn params result] at hv
    exact (List.mem_append.1 hv).elim (hp.drawn v) (hr.drawn v)

theorem Matches.of_fn {params : List Ty} {result t : Ty} (h : p.Matches (Ty.fn params result) t) :
    ∃ params' result', t = .fn params' result' ∧ p.Matches params params' ∧
      p.Matches result result' := by
  have hvars : Named.vars (Ty.fn params result) = Named.vars params ++ Named.vars result :=
    Ty.leaves_fn params result
  refine ⟨_, _, h.eq.trans (Ty.rename_fn p.map params result), ⟨rfl, fun v hv => h.drawn v ?_⟩,
    ⟨rfl, fun v hv => h.drawn v ?_⟩⟩
  · rw [hvars]
    exact List.mem_append_left _ hv
  · rw [hvars]
    exact List.mem_append_right _ hv

theorem matches_empty : p.Matches Subst.empty Subst.empty :=
  ⟨rfl, fun _ hv => absurd hv List.not_mem_nil⟩

theorem matches_next (p : Pairing) : p.next.Matches (Ty.var p.first) (.var p.second) := by
  refine ⟨congrArg Ty.var p.next_map.symm, fun v hv => ?_⟩
  obtain rfl : v = p.first := by simpa [Named.vars] using hv
  show p.first < p.first + (1 : Nat)
  omega

/-! ## Substitution and unification side by side -/

/-- Where a result that may be missing is carried along by the pairing, both runs have it or
neither has. -/
theorem rel_matches {α : Type} [Named α] {o o' : Option α}
    (he : o' = o.map (Named.rename p.map))
    (hd : ∀ a, o = some a → ∀ v ∈ Named.vars a, v < p.first) : Option.Rel p.Matches o o' := by
  subst he
  cases o with
  | none => exact .none
  | some a => exact .some ⟨rfl, hd a rfl⟩

variable {s s' r r' : Subst}

theorem Matches.expand? (hs : p.Matches s s') {t t' : Ty} (ht : p.Matches t t') :
    Option.Rel p.Matches (s.expand? t) (s'.expand? t') := by
  refine rel_matches ?_ fun u hu v hv => ?_
  · rw [hs.eq, ht.eq]
    exact Subst.expand?_rename p.injective s t
  · exact (Subst.mem_leaves_expand? hu hv).elim (ht.drawn v) (hs.drawn v)

theorem Matches.expandAll? (hs : p.Matches s s') {ts ts' : List Ty} (ht : p.Matches ts ts') :
    Option.Rel p.Matches (s.expandAll? ts) (s'.expandAll? ts') := by
  refine rel_matches ?_ fun us hus v hv => ?_
  · rw [hs.eq, ht.eq]
    exact Subst.expandAll?_rename p.injective s ts
  · obtain ⟨u, hu, hv⟩ := List.mem_flatMap.1 hv
    refine (Subst.mem_leaves_expandAll? hus hu hv).elim (fun h => ?_) (hs.drawn v)
    exact ht.drawn v (List.mem_flatMap.2 h)

theorem Matches.compose? (hs : p.Matches s s') (hr : p.Matches r r') :
    Option.Rel p.Matches (s.compose? r) (s'.compose? r') := by
  refine rel_matches ?_ fun both hboth v hv => ?_
  · rw [hs.eq, hr.eq]
    exact Subst.compose?_rename p.injective s r
  · exact (Subst.mem_mentioned_compose? hboth hv).elim (hr.drawn v) (hs.drawn v)

end Pairing

/-! ## Schemes side by side -/

/-- The variables drawn for the bound ones, from the given one on, are no bound ones themselves; or
there is just one to draw. -/
def Scheme.Openable (n : Int) (scheme : Scheme) : Prop :=
  (∀ v ∈ scheme.quantified, v < n) ∨ ∃ v, scheme.quantified = [v]

/-- Two schemes go together: all their variables do, or they are closed and differ in the numbers
of the bound variables. -/
inductive Scheme.Alike (w : Twinning) (p : Pairing) (scheme other : Scheme) : Prop
  | drawn : p.Matches scheme other → Alike w p scheme other
  | closed {σ : Int → Int} : w.shift = none → Injective σ → other = scheme.rename σ →
    (∀ v, v ∉ scheme.freeVars) → scheme.Openable p.first → other.Openable p.second →
    Alike w p scheme other

namespace Scheme

variable {w : Twinning} {p q : Pairing} {scheme other : Scheme}

theorem Openable.mono {n m : Int} (h : scheme.Openable n) (hm : n ≤ m) : scheme.Openable m :=
  h.imp_left fun h v hv => by
    have := h v hv
    omega

theorem Alike.mono (h : Alike w p scheme other) (hq : p.Extends q) : Alike w q scheme other := by
  cases h with
  | drawn hm => exact .drawn (hm.mono hq)
  | closed hw hσ he hc h₁ h₂ =>
    exact .closed hw hσ he hc (h₁.mono hq.first) (h₂.mono hq.second)

theorem alike_mono {t t' : Ty} (h : p.Matches t t') : Alike w p (.mono t) (.mono t') := by
  refine .drawn ⟨?_, fun v hv => h.drawn v (by simpa [Named.vars, mono] using hv)⟩
  rw [h.eq]
  exact (rename_mono p.map t).symm

theorem rename_id (scheme : Scheme) : scheme.rename id = scheme := by
  refine Scheme.ext ?_ (Ty.subst_eq_self fun v _ => rfl)
  simp only [rename, quantify, List.map_id]
  exact Ascending.ofList_of_pairwise scheme.ascending

/-- A closed scheme goes with itself. -/
theorem alike_self (hw : w.shift = none) (hc : ∀ v, v ∉ scheme.freeVars)
    (h₁ : scheme.Openable p.first) (h₂ : scheme.Openable p.second) : Alike w p scheme scheme :=
  .closed hw Function.injective_id (rename_id scheme).symm hc h₁ h₂

theorem mem_freeVars_renamed {σ : Int → Int} {w : Int} (hσ : Injective σ)
    (h : w ∈ (scheme.rename σ).freeVars) : ∃ v ∈ scheme.freeVars, σ v = w := by
  obtain ⟨v, hv, rfl⟩ : ∃ v ∈ scheme.body.leaves, σ v = w := by
    simpa using (mem_freeVars.1 h).1
  exact ⟨v, (mem_freeVars_rename hσ).1 h, rfl⟩

theorem Alike.mem_freeVars (h : Alike w p scheme other) {v : Int} :
    p.map v ∈ other.freeVars ↔ v ∈ scheme.freeVars := by
  cases h with
  | drawn hm =>
    rw [hm.eq]
    exact mem_freeVars_rename p.injective
  | closed _ hσ he hc _ _ =>
    refine ⟨fun hv => ?_, fun hv => absurd hv (hc v)⟩
    obtain ⟨w, hw, -⟩ := mem_freeVars_renamed hσ (he ▸ hv)
    exact absurd hw (hc w)

/-- A substitution does nothing to a closed scheme. -/
theorem expand?_of_closed (h : ∀ v, v ∉ scheme.freeVars) (s : Subst) :
    scheme.expand? s = some scheme := by
  have hkeys : ∀ v ∈ scheme.body.leaves, v ∉ Table.keys (s.without scheme.quantified) := by
    intro v hv hk
    have hq : v ∈ scheme.quantified := by
      by_contra hq
      exact h v (Scheme.mem_freeVars.2 ⟨hv, hq⟩)
    obtain ⟨t, ht⟩ := Table.mem_keys.1 hk
    rw [Table.get?_without, if_pos hq] at ht
    cases ht
  have hbody : Subst.expand? (s.without scheme.quantified) scheme.body = some scheme.body := by
    unfold Subst.expand?
    rw [Ty.subst?_eq_some fun v hv => Subst.chase_of_not_mem (hkeys v hv) _]
    exact congrArg some (Ty.subst_eq_self fun v _ => rfl)
  unfold expand?
  rw [hbody]
  rfl

theorem Alike.expand? (h : Alike w p scheme other) {s s' : Subst} (hs : p.Matches s s') :
    Option.Rel (Alike w p) (scheme.expand? s) (other.expand? s') := by
  cases h with
  | drawn hm =>
    have hother : other.expand? s' = (scheme.expand? s).map (rename p.map) := by
      rw [hm.eq, hs.eq]
      exact expand?_rename p.injective s scheme
    rw [hother]
    rcases he : scheme.expand? s with _ | result
    · exact .none
    · obtain ⟨body, hbody, hr⟩ := Option.bind_eq_some_iff.1 he
      obtain rfl := Option.some.inj hr
      refine .some (.drawn ⟨rfl, fun v hv => ?_⟩)
      rcases List.mem_append.1 hv with hv | hv
      · exact hm.drawn v (List.mem_append_left _ hv)
      · rcases Subst.mem_leaves_expand? hbody hv with hv | hv
        · exact hm.drawn v (List.mem_append_right _ hv)
        · exact hs.drawn v (Subst.mem_mentioned_without hv)
  | closed hw hσ he hc h₁ h₂ =>
    have hc' : ∀ v, v ∉ other.freeVars := by
      intro v hv
      obtain ⟨w, hw, -⟩ := mem_freeVars_renamed hσ (he ▸ hv)
      exact hc w hw
    rw [expand?_of_closed hc, expand?_of_closed hc']
    exact .some (.closed hw hσ he hc h₁ h₂)

theorem image_freshen_idxOf {n v : Int} (hv : v ∈ scheme.quantified) :
    (scheme.freshen n).image v = .var (n + scheme.quantified.idxOf v) := by
  obtain ⟨i, hi, himage⟩ := @image_freshen scheme n v hv
  obtain ⟨hlt, rfl⟩ := List.getElem?_eq_some_iff.1 hi
  rw [himage, scheme.nodup_quantified.idxOf_getElem]

/-- Either kind of schemes that go together differ by a renaming which does to the free variables
what the pairing does. -/
theorem Alike.exists_renaming (h : Alike w p scheme other) :
    ∃ σ, Injective σ ∧ other = scheme.rename σ ∧
      ∀ v ∈ scheme.freeVars, v < p.first ∧ σ v = p.map v := by
  cases h with
  | drawn hm =>
    refine ⟨p.map, p.injective, hm.eq, fun v hv => ⟨hm.drawn v ?_, rfl⟩⟩
    exact List.mem_append_right _ (Scheme.mem_freeVars.1 hv).1
  | closed _ hσ he hc _ _ => exact ⟨_, hσ, he, fun v hv => absurd hv (hc v)⟩

theorem Alike.openable (h : Alike w p scheme other) :
    scheme.Openable p.first ∧ other.Openable p.second := by
  cases h with
  | drawn hm =>
    have hlt : ∀ v ∈ scheme.quantified, v < p.first := fun v hv =>
      hm.drawn v (List.mem_append_left _ hv)
    refine ⟨.inl hlt, .inl fun w hw => ?_⟩
    rw [hm.eq] at hw
    obtain ⟨v, hv, rfl⟩ := List.mem_map.1 ((Ascending.mem_ofList _ _).1 hw)
    exact p.drawn v (hlt v hv)
  | closed _ _ _ _ h₁ h₂ => exact ⟨h₁, h₂⟩

/-- Two schemes can both be opened, and their bodies with fresh variables for the bound ones go
together. -/
structure Opens (w : Twinning) (p : Pairing) (scheme other : Scheme) : Prop where
  first : scheme.Openable p.first
  second : other.Openable p.second
  opened : ∃ q, p.Extends q ∧ w.Admits q ∧ q.first = p.first + scheme.quantified.length ∧
    q.second = p.second + other.quantified.length ∧
    q.Matches (scheme.opened p.first) (other.opened p.second)

/-- The fresh variables go together as the bound ones do. -/
theorem exists_opened (hw : w.Admits p) {σ : Int → Int} (hσ : Injective σ)
    (hfree : ∀ v ∈ scheme.freeVars, v < p.first ∧ σ v = p.map v)
    (hsame : w.shift ≠ none → (scheme.rename σ).quantified = scheme.quantified.map σ) :
    ∃ q, p.Extends q ∧ w.Admits q ∧ q.first = p.first + scheme.quantified.length ∧
      q.second = p.second + (scheme.rename σ).quantified.length ∧
      q.Matches (scheme.opened p.first) ((scheme.rename σ).opened p.second) := by
  have hmem : ∀ {v}, σ v ∈ (scheme.rename σ).quantified ↔ v ∈ scheme.quantified :=
    mem_quantified_rename hσ
  have hn := scheme.nodup_quantified
  have hlen : (scheme.rename σ).quantified.length = scheme.quantified.length := by
    simpa [rename, quantify] using (Ascending.perm_ofList (hn.map hσ)).length_eq
  -- the place of a bound variable in the first list goes with its place in the second
  let f : Nat → Nat := fun i => (scheme.rename σ).quantified.idxOf (σ (scheme.quantified.getD i 0))
  have hf : ∀ i (hi : i < scheme.quantified.length),
      f i = (scheme.rename σ).quantified.idxOf (σ scheme.quantified[i]) := by
    intro i hi
    simp [f, hi]
  have hlt : ∀ i < scheme.quantified.length, f i < scheme.quantified.length := by
    intro i hi
    rw [hf i hi, ← hlen, List.idxOf_lt_length_iff, hmem]
    exact List.getElem_mem hi
  have hinj : ∀ i < scheme.quantified.length, ∀ j < scheme.quantified.length, f i = f j →
      i = j := by
    intro i hi j hj hij
    rw [hf i hi, hf j hj, List.idxOf_inj (hmem.2 (List.getElem_mem hi))] at hij
    exact hn.getElem_inj_iff.1 (hσ hij)
  have hid : w.shift ≠ none → ∀ i < scheme.quantified.length, f i = i := by
    intro hshift i hi
    have hi' : i < (scheme.quantified.map σ).length := by simpa using hi
    rw [hf i hi, hsame hshift, ← List.getElem_map σ (h := hi'), (hn.map hσ).idxOf_getElem]
  refine ⟨p.draw _ f hlt hinj, Pairing.extends_draw, hw.draw hid, rfl, by rw [hlen]; rfl, ?_,
    fun v hv => ?_⟩
  · show (scheme.body.rename σ).subst _ = (scheme.body.subst _).rename _
    rw [Ty.subst_rename, Ty.rename_subst]
    refine Ty.subst_congr fun v hv => ?_
    by_cases hq : v ∈ scheme.quantified
    · have hi := List.idxOf_lt_length_iff.2 hq
      rw [image_freshen_idxOf (hmem.2 hq), image_freshen_idxOf hq, Ty.rename_var]
      have hdraw := p.drawMap_add f hi
      rw [hf _ hi, List.getElem_idxOf hi] at hdraw
      exact congrArg Ty.var hdraw.symm
    · obtain ⟨hv, hσv⟩ := hfree v (Scheme.mem_freeVars.2 ⟨hv, hq⟩)
      rw [image_freshen_of_not_mem (mt hmem.1 hq), image_freshen_of_not_mem hq, Ty.rename_var, hσv]
      exact congrArg Ty.var (p.drawMap_of_lt _ f hv).symm
  · show v < p.first + scheme.quantified.length
    rcases leaves_opened hv with hv | hv
    · have := (hfree v hv).1
      omega
    · exact hv.2

theorem Alike.opens (h : Alike w p scheme other) (hw : w.Admits p) : Opens w p scheme other := by
  refine ⟨h.openable.1, h.openable.2, ?_⟩
  cases h with
  | drawn hm =>
    obtain rfl : other = scheme.rename p.map := hm.eq
    refine exists_opened hw p.injective (fun v hv => ⟨hm.drawn v ?_, rfl⟩) fun hshift => ?_
    · exact List.mem_append_right _ (Scheme.mem_freeVars.1 hv).1
    · -- a shift leaves the bound variables in order
      obtain ⟨k, hk⟩ := Option.ne_none_iff_exists'.1 hshift
      refine Ascending.ofList_of_pairwise
        (List.pairwise_map.2 (scheme.ascending.imp fun {v w} hvw => ?_))
      rw [hw k hk, hw k hk]
      omega
  | closed hnone hσ he hc _ _ =>
    subst he
    exact exists_opened hw hσ (fun v hv => absurd hv (hc v)) fun hshift => absurd hnone hshift

/-- A closed scheme that binds at most one variable opens alike in both runs. -/
theorem opens_self (hw : w.Admits p) (hc : ∀ v, v ∉ scheme.freeVars)
    (hone : scheme.quantified = [] ∨ ∃ v, scheme.quantified = [v]) : Opens w p scheme scheme := by
  have ho : ∀ n, scheme.Openable n := fun n => hone.imp_left fun h => by simp [h]
  have hopened := exists_opened hw Function.injective_id (fun v hv => absurd hv (hc v))
    fun _ => by rw [rename_id scheme, List.map_id]
  rw [rename_id scheme] at hopened
  exact ⟨ho _, ho _, hopened⟩

end Scheme

/-! ## Environments side by side -/

/-- What two environments say of a name goes together, or the name is hidden and neither of them
has a variable free in what it says. -/
def Env.AlikeAt (w : Twinning) (p : Pairing) (x : String) (o o' : Option Scheme) : Prop :=
  Option.Rel (Scheme.Alike w p) o o' ∨
    w.hidden x ∧ (∀ scheme, o = some scheme → ∀ v, v ∉ scheme.freeVars) ∧
      ∀ scheme, o' = some scheme → ∀ v, v ∉ scheme.freeVars

/-- Two environments bind the same names to schemes that go together, hidden names apart. -/
def Env.Alike (w : Twinning) (p : Pairing) (env other : Env) : Prop :=
  ∀ x, Env.AlikeAt w p x (env.get? x) (other.get? x)

namespace Env.Alike

variable {w : Twinning} {p q : Pairing} {env other : Env}

theorem mono (h : Alike w p env other) (hq : p.Extends q) : Alike w q env other :=
  fun x => (h x).imp_left fun hx => rel_imp hx fun _ _ hs => hs.mono hq

theorem of_not_hidden (h : Alike w p env other) {x : String} (hx : ¬ w.hidden x) :
    Option.Rel (Scheme.Alike w p) (env.get? x) (other.get? x) :=
  (h x).resolve_right fun hhidden => hx hhidden.1

/-- What stands free in the one environment goes with what stands free in the other. -/
theorem mem_freeVars (h : Alike w p env other) {v : Int} :
    p.map v ∈ other.freeVars ↔ v ∈ env.freeVars := by
  rw [Env.mem_freeVars, Env.mem_freeVars]
  constructor
  · rintro ⟨scheme', hmem, hv⟩
    obtain ⟨x, hx⟩ := Table.exists_get?_of_mem_values hmem
    rcases h x with hrel | ⟨-, -, hclosed⟩
    · obtain ⟨scheme, hget, hs⟩ := exists_of_rel_right hrel hx
      exact ⟨scheme, Table.mem_values_of_get? hget, hs.mem_freeVars.1 hv⟩
    · exact absurd hv (hclosed scheme' hx _)
  · rintro ⟨scheme, hmem, hv⟩
    obtain ⟨x, hx⟩ := Table.exists_get?_of_mem_values hmem
    rcases h x with hrel | ⟨-, hclosed, -⟩
    · obtain ⟨scheme', hget, hs⟩ := exists_of_rel_left hrel hx
      exact ⟨scheme', Table.mem_values_of_get? hget, hs.mem_freeVars.2 hv⟩
    · exact absurd hv (hclosed scheme hx _)

theorem insert (h : Alike w p env other) (x : String) {scheme scheme' : Scheme}
    (hs : Scheme.Alike w p scheme scheme') :
    Alike w p (env.insert x scheme) (other.insert x scheme') := by
  intro y
  rw [Table.get?_insert, Table.get?_insert]
  by_cases hy : x = y
  · rw [if_pos hy, if_pos hy]
    exact .inl (.some hs)
  · rw [if_neg hy, if_neg hy]
    exact h y

theorem withParams (h : Alike w p env other) (params : List Param) {types types' : List Ty}
    (ht : p.Matches types types') :
    Alike w p (Infer.withParams env params types) (Infer.withParams other params types') := by
  induction params generalizing env other types types' with
  | nil => exact h
  | cons param params ih =>
    cases types with
    | nil =>
      obtain rfl := ht.of_nil
      exact h
    | cons t types =>
      obtain ⟨t', types', rfl, ht, hts⟩ := ht.of_cons
      exact ih (h.insert param.name (Scheme.alike_mono ht)) hts

theorem generalize (h : Alike w p env other) {t t' : Ty} (ht : p.Matches t t') :
    Scheme.Alike w p (env.generalize t) (other.generalize t') := by
  refine .drawn ⟨?_, fun v hv => ht.drawn v ?_⟩
  · rw [ht.eq]
    exact Env.generalize_rename fun v _ => h.mem_freeVars
  · exact (List.mem_append.1 hv).elim (fun hv => (Env.mem_quantified_generalize.1 hv).1) id

/-- A substitution makes of a hidden name what it was. -/
theorem bind_expand? {o : Option Scheme} (h : ∀ scheme, o = some scheme → ∀ v, v ∉ scheme.freeVars)
    (s : Subst) : o.bind (Scheme.expand? s) = o := by
  cases o with
  | none => rfl
  | some scheme => exact Scheme.expand?_of_closed (h scheme rfl) s

theorem expandAt? {x : String} {o o' : Option Scheme} (h : AlikeAt w p x o o') {s s' : Subst}
    (hs : p.Matches s s') :
    AlikeAt w p x (o.bind (Scheme.expand? s)) (o'.bind (Scheme.expand? s')) := by
  rcases h with hrel | ⟨hx, hc, hc'⟩
  · exact .inl (rel_bind hrel fun _ _ hab => hab.expand? hs)
  · rw [bind_expand? hc, bind_expand? hc']
    exact .inr ⟨hx, hc, hc'⟩

theorem expand? (h : Alike w p env other) {s s' : Subst} (hs : p.Matches s s') :
    Option.Rel (Alike w p) (Env.expand? s env) (Env.expand? s' other) := by
  rcases Table.map?_cases (Scheme.expand? s) env with
    ⟨u, hu, hget, hall⟩ | ⟨hnone, a, ha, hfail⟩
  · rcases Table.map?_cases (Scheme.expand? s') other with
      ⟨u', hu', hget', -⟩ | ⟨-, b, hb, hfail⟩
    · rw [Env.expand?, Env.expand?, hu, hu']
      refine .some fun x => ?_
      rw [hget, hget']
      exact expandAt? (h x) hs
    · obtain ⟨x, hx⟩ := Table.exists_get?_of_mem_values hb
      rcases h x with hrel | ⟨-, -, hc⟩
      · obtain ⟨a, ha, hab⟩ := exists_of_rel_right hrel hx
        have hnone := (rel_none (hab.expand? hs)).2 hfail
        exact absurd hnone (hall a (Table.mem_values_of_get? ha))
      · simp [Scheme.expand?_of_closed (hc b hx)] at hfail
  · rcases Table.map?_cases (Scheme.expand? s') other with ⟨u', -, -, hall⟩ | ⟨hnone', -⟩
    · obtain ⟨x, hx⟩ := Table.exists_get?_of_mem_values ha
      rcases h x with hrel | ⟨-, hc, -⟩
      · obtain ⟨b, hb, hab⟩ := exists_of_rel_left hrel hx
        have hnone := (rel_none (hab.expand? hs)).1 hfail
        exact absurd hnone (hall b (Table.mem_values_of_get? hb))
      · simp [Scheme.expand?_of_closed (hc a hx)] at hfail
    · rw [Env.expand?, Env.expand?, hnone, hnone']
      exact .none

end Env.Alike

end LetPoly
