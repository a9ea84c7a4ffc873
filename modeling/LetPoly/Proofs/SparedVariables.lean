-- The laws of variables that inference drew and has done with. A variable that a
-- scheme binds never comes up again: later substitutions are about variables that
-- are left in something still in use, or that are drawn later. So the substitution
-- of a whole answer spares it: it is replaced by itself, and put in for no other.
import LetPoly.Proofs.VariableSupply

namespace LetPoly

/-! ## Variables still in use -/

/-- A variable stands in what a substitution puts in for one of those in use. -/
def Left (s : Subst) (used : Int → Prop) (v : Int) : Prop := ∃ u, used u ∧ v ∈ (s.image u).leaves

section

variable {s s₁ both : Subst} {used used' : Int → Prop} {v : Int}

theorem left_of_not_mem (hu : used v) (hv : v ∉ s.keys) : Left s used v :=
  ⟨v, hu, by simp [Subst.image_of_not_mem hv]⟩

theorem Left.mono (h : Left s used v) (hle : ∀ u, used u → used' u) : Left s used' v := by
  obtain ⟨u, hu, hv⟩ := h
  exact ⟨u, hle u hu, hv⟩

theorem left_subst {t : Ty} (ht : ∀ u ∈ t.leaves, used u) (hv : v ∈ (t.subst s.image).leaves) :
    Left s used v := by
  obtain ⟨u, hu, hv⟩ := Ty.mem_leaves_subst.1 hv
  exact ⟨u, ht u hu, hv⟩

theorem left_free {env : Env} (henv : ∀ u ∈ env.freeVars, used u)
    (hv : v ∈ (env.subst s.image).freeVars) : Left s used v := by
  obtain ⟨u, hu, hv⟩ := Env.mem_freeVars_of_subst hv
  exact ⟨u, henv u hu, hv⟩

/-- What is left in a type that a substitution was applied to is left of the type's variables. -/
theorem Left.resolve (hs : s.Solved) {t : Ty}
    (h : Left s (fun v => used v ∨ v ∈ (t.subst s.image).leaves) v)
    (hused : ∀ u, used u → used' u) (ht : ∀ u ∈ t.leaves, used' u) : Left s used' v := by
  obtain ⟨u, hu | hu, hv⟩ := h
  · exact ⟨u, hused u hu, hv⟩
  · rw [Subst.image_of_not_mem (hs.not_mem_subst hu), Ty.leaves_var, List.mem_singleton] at hv
    subst hv
    exact left_subst ht hu

theorem Left.of_composed (hc : Subst.Composed s₁ s both) (h : Left both used v) :
    ∃ w, Left s used w ∧ v ∈ (s₁.image w).leaves := by
  obtain ⟨u, hu, hv⟩ := h
  rw [hc.image] at hv
  obtain ⟨w, hw, hv⟩ := Ty.mem_leaves_subst.1 hv
  exact ⟨w, ⟨u, hu, hw⟩, hv⟩

theorem Left.composed (hc : Subst.Composed s₁ s both) {w : Int} (h : Left s used w)
    (hv : v ∈ (s₁.image w).leaves) : Left both used v := by
  obtain ⟨u, hu, hw⟩ := h
  refine ⟨u, hu, ?_⟩
  rw [hc.image]
  exact Ty.mem_leaves_subst.2 ⟨w, hw, hv⟩

end

theorem Subst.composed_empty {s : Subst} (hs : s.Solved) : Composed s empty s where
  image _ := rfl
  keys v := by simp [empty]
  solved := hs
  mentioned v hv := Or.inr hv
  later := hs.absorbs
  earlier := absorbs_empty s.image

/-! ## Replacements that spare the others -/

/-- A replacement changes nothing for a substitution, and spares each variable that was drawn and
is neither replaced nor left in anything in use: the variable becomes itself, and comes from no
other open one. -/
structure Spares (env : Env) (n : Int) (s : Subst) (n' : Int) (used : Int → Prop)
    (f : Int → Ty) : Prop where
  absorbs : s.Absorbs f
  alone : ∀ v, n ≤ v → v < n' → v ∉ s.keys → ¬ Left s used v →
    f v = .var v ∧ ∀ u, Open env n s n' u → v ∈ (f u).leaves → u = v

theorem Tidy.spares {env : Env} {n n' : Int} {s : Subst} (h : Tidy env n s n')
    (used : Int → Prop) : Spares env n s n' used s.image := by
  refine ⟨h.solved.absorbs, fun v _ _ hk _ => ⟨Subst.image_of_not_mem hk, fun u hu hv => ?_⟩⟩
  rw [Subst.image_of_not_mem hu.2, Ty.leaves_var, List.mem_singleton] at hv
  exact hv.symm

namespace Spares

variable {env inner : Env} {n n₁ n₂ n' : Int} {s s₁ both : Subst} {used used' fresh : Int → Prop}
  {f : Int → Ty}

theorem mono (h : Spares env n s n' used f)
    (hle : ∀ v, v < n' → Left s used v → Left s used' v) : Spares env n s n' used' f :=
  ⟨h.absorbs, fun v h1 h2 hk hl => h.alone v h1 h2 hk fun hv => hl (hle v h2 hv)⟩

/-- What spares the variables after a step spares them before it, if the step is about variables
left in something in use, or drawn during it. -/
theorem before (h : Spares env n both n₂ used f) (hn : n₁ ≤ n₂) (hc : Subst.Composed s₁ s both)
    (ht : Tidy env n both n₂) (hm : ∀ v ∈ s₁.mentioned, v < n₁ → Left s used v) :
    Spares env n s n₁ used f := by
  refine ⟨h.absorbs.trans hc.earlier, fun v h1 h2 hk hl => ?_⟩
  have hfresh : v ∉ s₁.mentioned := fun hv => hl (hm v hv h2)
  have hboth : ¬ Left both used v := by
    intro hv
    obtain ⟨w, hw, hv⟩ := hv.of_composed hc
    rcases Subst.mem_mentioned_of_image hv with rfl | hv
    · exact hl hw
    · exact hfresh hv
  have hkeys : v ∉ both.keys := fun hv =>
    ((hc.keys v).1 hv).elim hk fun hv => hfresh (Subst.keys_subset_mentioned hv)
  obtain ⟨hself, halone⟩ := h.alone v h1 (by omega) hkeys hboth
  refine ⟨hself, fun u hu hv => ?_⟩
  by_cases hs₁ : u ∈ s₁.keys
  · -- what is put in for `u` in the step holds `v`, which the step is not about
    rw [← h.absorbs u] at hv
    obtain ⟨w, hw, hv⟩ := Ty.mem_leaves_subst.1 hv
    obtain rfl := halone w (ht.image (hu.1.mono hn) hw) hv
    rw [hc.image, Subst.image_of_not_mem hu.2, Ty.subst_var] at hw
    exact absurd (Subst.mem_mentioned_of_value (Subst.image_mem_values hs₁) hw) hfresh
  · exact halone u ((hu.mono hn).composed hc hs₁) hv

/-- What spares the variables after an answer in an inner environment, which was composed with the
substitution before it, spares those of the answer itself. -/
theorem inside (h : Spares env n both n₂ used f) (hs : Tidy env n s n₁) (hb : env.Below n)
    (hi : ∀ v ∈ inner.freeVars, Open env n s n₁ v) (h₁ : Tidy inner n₁ s₁ n₂)
    (hc : Subst.Composed s₁ s both)
    (hused : ∀ v, used v → n₁ ≤ v → v ∈ inner.freeVars ∨ used' v) :
    Spares inner n₁ s₁ n₂ (fun v => v ∈ inner.freeVars ∨ used' v) f := by
  refine ⟨h.absorbs.trans hc.later, fun v h1 h2 hk hl => ?_⟩
  have hlater : ∀ w, n₁ ≤ w → w ∉ s.mentioned := fun w hw hm => by
    have := hs.lt hb hm
    omega
  have hboth : ¬ Left both used v := by
    intro hv
    obtain ⟨w, ⟨u, hu, hw⟩, hv⟩ := hv.of_composed hc
    have hstay : n₁ ≤ w → w ∈ inner.freeVars ∨ used' w := fun hle => by
      rcases Subst.mem_mentioned_of_image hw with rfl | hw
      · exact hused _ hu hle
      · exact absurd hw (hlater w hle)
    refine hl ⟨w, ?_, hv⟩
    by_cases hkw : w ∈ s₁.keys
    · rcases h₁.reach w (Subst.keys_subset_mentioned hkw) with hw | hw
      · exact Or.inl hw
      · exact hstay hw.1
    · rw [Subst.image_of_not_mem hkw, Ty.leaves_var, List.mem_singleton] at hv
      exact hstay (hv ▸ h1)
  have hkeys : v ∉ both.keys := fun hv =>
    ((hc.keys v).1 hv).elim (fun hv => hlater v h1 (Subst.keys_subset_mentioned hv)) hk
  obtain ⟨hself, halone⟩ := h.alone v (Int.le_trans hs.le h1) h2 hkeys hboth
  exact ⟨hself, fun u hu hv => halone u (hs.open_later hb hi h₁ hc hu) hv⟩

/-- An answer for a part that is inferred first, in an environment with types drawn for it. -/
theorem body (h : Spares env n s n₂ (fun v => Reach env n n₁ v ∨ fresh v) f) (hn : n ≤ n₁)
    (hb : env.Below n) (hi : ∀ v ∈ inner.freeVars, Reach env n n₁ v) (h₁ : Tidy inner n₁ s n₂) :
    Spares inner n₁ s n₂ (fun v => v ∈ inner.freeVars ∨ fresh v) f := by
  refine h.inside ((tidy_empty env n).mono hn) hb (fun v hv => open_empty.2 (hi v hv)) h₁
    (Subst.composed_empty h₁.solved) fun v hv hle => ?_
  rcases hv with hv | hv
  · have := hv.lt hb hn
    omega
  · exact Or.inr hv

/-- The two together: before the answer, and in it. -/
theorem split (h : Spares env n both n₂ (fun v => used v ∨ fresh v) f) (hs : Tidy env n s n₁)
    (hb : env.Below n) (hi : ∀ v ∈ inner.freeVars, Open env n s n₁ v ∧ Left s used v)
    (h₁ : Tidy inner n₁ s₁ n₂) (hc : Subst.Composed s₁ s both) (ht : Tidy env n both n₂)
    (hused : ∀ v, used v → v < n₁) (hfresh : ∀ v, fresh v → Open inner n₁ s₁ n₂ v) :
    Spares env n s n₁ used f ∧
      Spares inner n₁ s₁ n₂ (fun v => v ∈ inner.freeVars ∨ fresh v) f := by
  refine ⟨(h.before h₁.le hc ht fun v hv hlt => ?_).mono fun v hlt hv => ?_,
    h.inside hs hb (fun v hv => (hi v hv).1) h₁ hc fun v hv hle => ?_⟩
  · exact (hi v ((h₁.reach v hv).free hlt)).2.mono fun _ => Or.inl
  · obtain ⟨u, hu | hu, hv⟩ := hv
    · exact ⟨u, hu, hv⟩
    · -- a variable of the answer is not replaced before it
      have hopen := hs.open_of_reach hb (fun v hv => (hi v hv).1) h₁.le (hfresh u hu).1
      rw [Subst.image_of_not_mem hopen.2, Ty.leaves_var, List.mem_singleton] at hv
      subst hv
      exact (hi v ((hfresh v hu).1.free hlt)).2
  · rcases hv with hv | hv
    · have := hused v hv
      omega
    · exact Or.inr hv

end Spares

/-- What spares the variables of an answer makes every type that the generalized scheme reaches an
instance of the type that was generalized. -/
theorem Spares.exists_instance {env : Env} {n n' : Int} {s : Subst} {f : Int → Ty}
    (h : Spares env n s n' (· ∈ env.freeVars) f) (hc : env.Clean s.image) {t u : Ty}
    (hl : ∀ v ∈ t.leaves, Open env n s n' v)
    (hu : ((env.subst s.image).generalize t).Reaches f u) : ∃ g, u = (t.subst f).subst g := by
  obtain ⟨r, hr, rfl⟩ := hu
  set scheme := (env.subst s.image).generalize t with hscheme
  -- a bound variable was drawn and is left in nothing of the environment
  have hspared : ∀ v ∈ scheme.quantified,
      f v = .var v ∧ ∀ w, Open env n s n' w → v ∈ (f w).leaves → w = v := by
    intro v hv
    obtain ⟨hvt, hfree⟩ := Env.mem_quantified_generalize.1 hv
    have hleft : ¬ Left s (· ∈ env.freeVars) v := by
      rintro ⟨w, hw, hv⟩
      exact hfree (Env.mem_freeVars_subst hc hw hv)
    rcases (hl v hvt).1 with hv | hv
    · exact absurd (left_of_not_mem hv (hl v hvt).2) hleft
    · exact h.alone v hv.1 hv.2 (hl v hvt).2 hleft
  refine ⟨fun v => if v ∈ scheme.quantified then r v else .var v, ?_⟩
  rw [Ty.subst_subst]
  refine Ty.subst_congr fun v hv => ?_
  by_cases hq : v ∈ scheme.quantified
  · simp [(hspared v hq).1, hq]
  · rw [hr v hq]
    refine (Ty.subst_eq_self fun w hw => if_neg fun hw' => ?_).symm
    obtain rfl := (hspared w hw').2 v (hl v hv) hw
    exact hq hw'

end LetPoly
