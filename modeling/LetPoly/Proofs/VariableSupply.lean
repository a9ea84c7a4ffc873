-- The laws of the supply of type variables. Whatever inference answers is about
-- variables that were free in its environment or that it drew itself, so later
-- answers compose with earlier ones, and no variable that a scheme of the environment
-- binds is ever put in for one that stands free in it.
import LetPoly.Proofs.MostGeneralUnifier
import LetPoly.Proofs.Environments

namespace LetPoly

/-! ## Variables in reach -/

/-- A variable is free in an environment, or was drawn from the supply while its next variable went
from the first number to the second. -/
def Reach (env : Env) (n n' v : Int) : Prop := v ∈ env.freeVars ∨ n ≤ v ∧ v < n'

theorem Reach.mono {env : Env} {n m m' v : Int} (h : Reach env n m v) (hm : m ≤ m') :
    Reach env n m' v :=
  h.imp_right fun hv => ⟨hv.1, Int.lt_of_lt_of_le hv.2 hm⟩

/-- The free variables of an environment come before the given one. -/
def Env.FreeBelow (env : Env) (n : Int) : Prop := ∀ v ∈ env.freeVars, v < n

theorem Env.Below.freeBelow {env : Env} {n : Int} (h : env.Below n) : env.FreeBelow n :=
  fun _ hv => h.free hv

theorem Reach.lt_of_free {env : Env} {n n' v : Int} (h : Reach env n n' v) (hf : env.FreeBelow n)
    (hn : n ≤ n') : v < n' := by
  rcases h with hv | hv
  · exact Int.lt_of_lt_of_le (hf v hv) hn
  · exact hv.2

theorem Reach.lt {env : Env} {n n' v : Int} (h : Reach env n n' v) (hb : env.Below n)
    (hn : n ≤ n') : v < n' :=
  h.lt_of_free hb.freeBelow hn

theorem Reach.free {env : Env} {n n' v : Int} (h : Reach env n n' v) (hv : v < n) :
    v ∈ env.freeVars := by
  rcases h with h | h
  · exact h
  · omega

/-- What is reached from an inner environment is reached from outside. -/
theorem Reach.outer {env inner : Env} {n n₁ n₂ v : Int} (h : Reach inner n₁ n₂ v)
    (hi : ∀ v ∈ inner.freeVars, Reach env n n₁ v) (hn : n ≤ n₁) (hn₂ : n₁ ≤ n₂) :
    Reach env n n₂ v := by
  rcases h with hv | hv
  · exact (hi v hv).mono hn₂
  · exact Or.inr ⟨Int.le_trans hn hv.1, hv.2⟩

/-- A substitution is solved and speaks of variables in reach only. -/
structure Tidy (env : Env) (n : Int) (s : Subst) (n' : Int) : Prop where
  le : n ≤ n'
  solved : s.Solved
  reach : ∀ v ∈ s.mentioned, Reach env n n' v

/-- A variable is in reach and not replaced. -/
def Open (env : Env) (n : Int) (s : Subst) (n' v : Int) : Prop := Reach env n n' v ∧ v ∉ s.keys

theorem Open.mono {env : Env} {n n₁ n₂ v : Int} {s : Subst} (h : Open env n s n₁ v)
    (hn : n₁ ≤ n₂) : Open env n s n₂ v :=
  ⟨h.1.mono hn, h.2⟩

theorem tidy_empty (env : Env) (n : Int) : Tidy env n Subst.empty n :=
  ⟨Int.le_refl n, Subst.solved_empty, by simp⟩

theorem open_empty {env : Env} {n n' v : Int} : Open env n Subst.empty n' v ↔ Reach env n n' v := by
  simp [Open, Subst.empty]

/-- The truth values have no variables, so all of them are open. -/
theorem open_bool {env : Env} {n n' : Int} {s : Subst} :
    ∀ v ∈ Ty.bool.leaves, Open env n s n' v := by
  simp [Ty.bool]

namespace Tidy

variable {env : Env} {n n' n₁ n₂ : Int} {s : Subst}

theorem mono (h : Tidy env n s n₁) (hn : n₁ ≤ n₂) : Tidy env n s n₂ :=
  ⟨Int.le_trans h.le hn, h.solved, fun v hv => (h.reach v hv).mono hn⟩

theorem lt (h : Tidy env n s n') (hb : env.Below n) {v : Int} (hv : v ∈ s.mentioned) : v < n' :=
  (h.reach v hv).lt hb h.le

theorem image (h : Tidy env n s n') {v w : Int} (hv : Reach env n n' v)
    (hw : w ∈ (s.image v).leaves) : Open env n s n' w := by
  refine ⟨?_, h.solved.not_mem_image hw⟩
  rcases Subst.mem_mentioned_of_image hw with rfl | hm
  · exact hv
  · exact h.reach w hm

theorem leaves_subst (h : Tidy env n s n') {t : Ty} (ht : ∀ v ∈ t.leaves, Reach env n n' v) :
    ∀ w ∈ (t.subst s.image).leaves, Open env n s n' w := by
  intro w hw
  obtain ⟨v, hv, hw⟩ := Ty.mem_leaves_subst.1 hw
  exact h.image (ht v hv) hw

theorem free (h : Tidy env n s n') {w : Int} (hw : w ∈ (env.subst s.image).freeVars) :
    Open env n s n' w := by
  obtain ⟨v, hv, hw⟩ := Env.mem_freeVars_of_subst hw
  exact h.image (Or.inl hv) hw

theorem below (h : Tidy env n s n') (hb : env.Below n) : (env.subst s.image).Below n' := by
  intro scheme hs
  refine ⟨fun v hv => (h.free (Env.mem_freeVars.2 ⟨scheme, hs, hv⟩)).1.lt hb h.le, fun v hv => ?_⟩
  obtain ⟨old, ho, rfl⟩ := Env.values_subst hs
  exact Int.lt_of_lt_of_le ((hb old ho).2 v hv) h.le

theorem open_drawn (h : Tidy env n s n₁) (hf : env.FreeBelow n) {v : Int} (h1 : n₁ ≤ v)
    (h2 : v < n₂) : Open env n s n₂ v := by
  refine ⟨Or.inr ⟨Int.le_trans h.le h1, h2⟩, fun hk => ?_⟩
  have := (h.reach v (Subst.keys_subset_mentioned hk)).lt_of_free hf h.le
  omega

theorem open_fresh (h : Tidy env n s n₁) (hb : env.Below n) {v : Int} (h1 : n₁ ≤ v)
    (h2 : v < n₂) : Open env n s n₂ v :=
  h.open_drawn hb.freeBelow h1 h2

/-- What is reached from an environment whose free variables are open is open. -/
theorem open_reached (h : Tidy env n s n₁) (hf : env.FreeBelow n) {inner : Env}
    (hi : ∀ v ∈ inner.freeVars, Open env n s n₁ v) (hn : n₁ ≤ n₂) {v : Int}
    (hv : Reach inner n₁ n₂ v) : Open env n s n₂ v := by
  rcases hv with hv | ⟨h1, h2⟩
  · exact (hi v hv).mono hn
  · exact h.open_drawn hf h1 h2

theorem open_of_reach (h : Tidy env n s n₁) (hb : env.Below n) {inner : Env}
    (hi : ∀ v ∈ inner.freeVars, Open env n s n₁ v) (hn : n₁ ≤ n₂) {v : Int}
    (hv : Reach inner n₁ n₂ v) : Open env n s n₂ v :=
  h.open_reached hb.freeBelow hi hn hv

theorem outer {inner : Env} (h : Tidy inner n₁ s n₂) (hi : ∀ v ∈ inner.freeVars, Reach env n n₁ v)
    (hn : n ≤ n₁) : Tidy env n s n₂ :=
  ⟨Int.le_trans hn h.le, h.solved, fun v hv => (h.reach v hv).outer hi hn h.le⟩

/-- A substitution that is about open variables composes with the one before it. -/
theorem compose (h : Tidy env n s n₁) {s₁ : Subst} (hn : n₁ ≤ n₂) (hs : s₁.Solved)
    (hm : ∀ v ∈ s₁.mentioned, Open env n s n₂ v) :
    ∃ both, s₁.compose? s = some both ∧ Subst.Composed s₁ s both ∧ Tidy env n both n₂ := by
  obtain ⟨both, he, hc⟩ := Subst.exists_composed hs h.solved fun v hv => (hm v hv).2
  refine ⟨both, he, hc, Int.le_trans h.le hn, hc.solved, fun v hv => ?_⟩
  rcases hc.mentioned v hv with hv | hv
  · exact (h.reach v hv).mono hn
  · exact (hm v hv).1

end Tidy

theorem Open.composed {env : Env} {n n' v : Int} {s s₁ both : Subst} (h : Open env n s n' v)
    (hc : Subst.Composed s₁ s both) (hv : v ∉ s₁.keys) : Open env n both n' v :=
  ⟨h.1, fun hk => ((hc.keys v).1 hk).elim h.2 hv⟩

theorem Tidy.open_later {env inner : Env} {n n₁ n₂ : Int} {s s₁ both : Subst}
    (h : Tidy env n s n₁) (hb : env.Below n) (hi : ∀ v ∈ inner.freeVars, Open env n s n₁ v)
    (h₁ : Tidy inner n₁ s₁ n₂) (hc : Subst.Composed s₁ s both) {v : Int}
    (hv : Open inner n₁ s₁ n₂ v) : Open env n both n₂ v :=
  (h.open_of_reach hb hi h₁.le hv.1).composed hc hv.2

/-! ## Environments with more types in them -/

namespace Env

/-- The second environment has the schemes of the first, and types. -/
def Over (types : List Ty) (env inner : Env) : Prop :=
  ∀ scheme ∈ inner.values, scheme ∈ env.values ∨ ∃ t ∈ types, scheme = .mono t

theorem Over.free {types : List Ty} {env inner : Env} (h : Over types env inner) {v : Int}
    (hv : v ∈ inner.freeVars) : v ∈ env.freeVars ∨ ∃ t ∈ types, v ∈ t.leaves := by
  obtain ⟨scheme, hs, hv⟩ := mem_freeVars.1 hv
  rcases h scheme hs with hs | ⟨t, ht, rfl⟩
  · exact Or.inl (mem_freeVars.2 ⟨scheme, hs, hv⟩)
  · exact Or.inr ⟨t, ht, by simpa using hv⟩

theorem Over.reach {types : List Ty} {env inner : Env} (h : Over types env inner) {n n₁ : Int}
    (ht : ∀ t ∈ types, ∀ v ∈ t.leaves, n ≤ v ∧ v < n₁) {v : Int} (hv : v ∈ inner.freeVars) :
    Reach env n n₁ v :=
  (h.free hv).imp_right fun ⟨t, hmem, hv⟩ => ht t hmem v hv

theorem Over.below {types : List Ty} {env inner : Env} (h : Over types env inner) {n n₁ : Int}
    (ht : ∀ t ∈ types, ∀ v ∈ t.leaves, n ≤ v ∧ v < n₁) (hb : env.Below n) (hn : n ≤ n₁) :
    inner.Below n₁ := by
  intro scheme hs
  rcases h scheme hs with hs | ⟨t, hmem, rfl⟩
  · exact hb.mono hn scheme hs
  · exact ⟨fun v hv => (ht t hmem v (by simpa using hv)).2, by simp [Scheme.mono]⟩

/-! ## Variables that could be captured -/

/-- A variable that stands free in the environment is bound by a scheme in which another one
stands free. -/
def Exposed (env : Env) (v w : Int) : Prop :=
  ∃ scheme ∈ env.values, v ∈ scheme.freeVars ∧ w ∈ scheme.quantified ∧ w ∈ env.freeVars

/-- No scheme with a free variable binds a variable that stands free in the environment. -/
def Apart (env : Env) : Prop := ∀ v w, ¬ env.Exposed v w

/-- A replacement of variables leaves alone what could be captured. -/
def Avoids (f : Int → Ty) (env : Env) : Prop :=
  ∀ v w, env.Exposed v w → f w = .var w ∧ w ∉ (f v).leaves

theorem exposed_of_subst {env : Env} {n n' : Int} {s : Subst} (hs : Tidy env n s n')
    (hb : env.Below n) {v' w : Int} (h : (env.subst s.image).Exposed v' w) :
    ∃ v, env.Exposed v w ∧ v' ∈ (s.image v).leaves := by
  obtain ⟨scheme, hmem, hv', hq, hw⟩ := h
  obtain ⟨old, ho, rfl⟩ := values_subst hmem
  obtain ⟨v, hv, hv'⟩ := Scheme.mem_freeVars_of_subst hv'
  exact ⟨v, ⟨old, ho, hv, hq, (hs.free hw).1.free ((hb old ho).2 w hq)⟩, hv'⟩

theorem exposed_of_over {types : List Ty} {env inner : Env} (ho : Over types env inner) {n n₁ : Int}
    (ht : ∀ t ∈ types, ∀ v ∈ t.leaves, n ≤ v ∧ v < n₁) (hb : env.Below n) {v w : Int}
    (h : inner.Exposed v w) : env.Exposed v w := by
  obtain ⟨scheme, hmem, hv, hq, hw⟩ := h
  rcases ho scheme hmem with hmem | ⟨t, -, rfl⟩
  · exact ⟨scheme, hmem, hv, hq, (ho.reach ht hw).free ((hb scheme hmem).2 w hq)⟩
  · cases hq

theorem exposed_of_generalize {env : Env} {x : String} {t : Ty} {v w : Int}
    (h : Exposed (env.insert x (env.generalize t)) v w) : env.Exposed v w := by
  obtain ⟨scheme, hmem, hv, hq, hw⟩ := h
  have hfree : w ∈ env.freeVars := by
    rcases mem_freeVars_insert hw with hw | hw
    · exact (mem_freeVars_generalize.1 hw).2
    · exact hw
  rcases Table.mem_values_insert hmem with rfl | hmem
  · exact absurd hfree (mem_quantified_generalize.1 hq).2
  · exact ⟨scheme, hmem, hv, hq, hfree⟩

/-- Only variables that could be captured are. -/
theorem exposed_of_image {env : Env} {n n' : Int} {s : Subst} (hs : Tidy env n s n')
    (hb : env.Below n) {scheme : Scheme} (hmem : scheme ∈ env.values) {v w : Int}
    (hv : v ∈ scheme.freeVars) (hw : w ∈ (s.image v).leaves) (hq : w ∈ scheme.quantified) :
    env.Exposed v w := by
  have hreach := (hs.image (Or.inl (mem_freeVars.2 ⟨scheme, hmem, hv⟩)) hw).1
  exact ⟨scheme, hmem, hv, hq, hreach.free ((hb scheme hmem).2 w hq)⟩

theorem Apart.clean {env : Env} (h : env.Apart) {n n' : Int} {s : Subst} (hs : Tidy env n s n')
    (hb : env.Below n) : env.Clean s.image :=
  fun _ hmem v hv w hw hq => h v w (exposed_of_image hs hb hmem hv hw hq)

theorem Avoids.clean {f : Int → Ty} {env : Env} (h : env.Avoids f) {n n' : Int} {s : Subst}
    (hs : Tidy env n s n') (hb : env.Below n) (ha : s.Absorbs f) : env.Clean s.image := by
  intro scheme hmem v hv w hw hq
  obtain ⟨hfw, hn⟩ := h v w (exposed_of_image hs hb hmem hv hw hq)
  rw [← ha v] at hn
  exact hn (Ty.mem_leaves_subst.2 ⟨w, hw, by simp [hfw]⟩)

theorem Apart.subst {env : Env} (h : env.Apart) {n n' : Int} {s : Subst} (hs : Tidy env n s n')
    (hb : env.Below n) : (env.subst s.image).Apart := by
  intro v' w he
  obtain ⟨v, he, -⟩ := exposed_of_subst hs hb he
  exact h v w he

theorem Avoids.subst {f : Int → Ty} {env : Env} (h : env.Avoids f) {n n' : Int} {s : Subst}
    (hs : Tidy env n s n') (hb : env.Below n) (ha : s.Absorbs f) :
    (env.subst s.image).Avoids f := by
  intro v' w he
  obtain ⟨v, he, hv'⟩ := exposed_of_subst hs hb he
  obtain ⟨hfw, hn⟩ := h v w he
  refine ⟨hfw, fun hw => hn ?_⟩
  rw [← ha v]
  exact Ty.mem_leaves_subst.2 ⟨v', hv', hw⟩

theorem Apart.of_over {types : List Ty} {env inner : Env} (h : env.Apart)
    (ho : Over types env inner) {n n₁ : Int}
    (ht : ∀ t ∈ types, ∀ v ∈ t.leaves, n ≤ v ∧ v < n₁) (hb : env.Below n) : inner.Apart :=
  fun v w he => h v w (exposed_of_over ho ht hb he)

theorem Avoids.of_over {f : Int → Ty} {types : List Ty} {env inner : Env} (h : env.Avoids f)
    (ho : Over types env inner) {n n₁ : Int}
    (ht : ∀ t ∈ types, ∀ v ∈ t.leaves, n ≤ v ∧ v < n₁) (hb : env.Below n) : inner.Avoids f :=
  fun v w he => h v w (exposed_of_over ho ht hb he)

theorem Avoids.congr {f g : Int → Ty} {env : Env} (h : env.Avoids f)
    (hfg : ∀ v ∈ env.freeVars, f v = g v) : env.Avoids g := by
  intro v w he
  obtain ⟨hfw, hn⟩ := h v w he
  obtain ⟨scheme, hmem, hv, -, hw⟩ := he
  rw [← hfg w hw, ← hfg v (mem_freeVars.2 ⟨scheme, hmem, hv⟩)]
  exact ⟨hfw, hn⟩

end Env

end LetPoly
