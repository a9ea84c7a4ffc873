-- Inference is complete: what can be derived by the typing rules is found, in its most
-- general form. A derivation comes with a replacement of the variables known so far;
-- inference succeeds, and the replacement extends to the variables drawn on the way so
-- that it explains the answer.
import LetPoly.Proofs.InferenceSound

namespace LetPoly

/-! ## Replacements that grow -/

theorem Agree.absorbs {env : Env} {n n' : Int} {g f : Int → Ty} {s : Subst} (h : Agree n' g f)
    (hs : Tidy env n s n') (hb : env.Below n) (hf : s.Absorbs f) : s.Absorbs g := by
  intro v
  by_cases hv : v ∈ s.keys
  · have hlt := hs.lt hb (Subst.keys_subset_mentioned hv)
    rw [h v hlt, ← hf v]
    refine h.subst fun w hw => ?_
    rcases Subst.mem_mentioned_of_image hw with rfl | hm
    · exact hlt
    · exact hs.lt hb hm
  · rw [Subst.image_of_not_mem hv, Ty.subst_var]

/-- Under a replacement of variables the second environment is at most as general as the first,
and nothing is captured. -/
structure Fit (f : Int → Ty) (env other : Env) : Prop where
  atMost : env.AtMost f other
  avoids : env.Avoids f

namespace Fit

variable {env inner other : Env} {n n' n₁ : Int} {f g : Int → Ty} {s : Subst}

theorem agree (h : Fit f env other) (hb : env.Below n) (hg : Agree n g f) : Fit g env other :=
  ⟨h.atMost.congr fun v hv => (hg v (hb.free hv)).symm,
    h.avoids.congr fun v hv => (hg v (hb.free hv)).symm⟩

theorem subst (h : Fit f env other) (hs : Tidy env n s n') (hb : env.Below n)
    (ha : s.Absorbs f) : Fit f (env.subst s.image) other :=
  ⟨h.atMost.absorb (h.avoids.clean hs hb ha) ha, h.avoids.subst hs hb ha⟩

theorem of_over {inner' : Env} {types : List Ty} (h : Fit f env other)
    (ho : Env.Over types env inner) (ht : ∀ t ∈ types, ∀ v ∈ t.leaves, n ≤ v ∧ v < n₁)
    (hb : env.Below n) (hrel : inner.AtMost f inner') : Fit f inner inner' :=
  ⟨hrel, h.avoids.of_over ho ht hb⟩

theorem generalize (h : Fit f env other) (x : String) (t : Ty) :
    Fit f (env.insert x (env.generalize t)) (other.insert x (other.generalize (t.subst f))) :=
  ⟨h.atMost.insert x (Env.atMost_generalize h.atMost t),
    fun v w he => h.avoids v w (Env.exposed_of_generalize he)⟩

end Fit

namespace Infer

/-- Fresh variables become any types, with nothing changed before them. -/
theorem exists_freshVars (ts : List Ty) (n : Int) (f : Int → Ty) :
    ∃ g, Agree n g f ∧ (freshVars n ts.length).map (Ty.subst g) = ts := by
  induction ts generalizing n f with
  | nil => exact ⟨f, fun _ _ => rfl, rfl⟩
  | cons t ts ih =>
    obtain ⟨g, hg, hts⟩ := ih (n + 1) (Function.update f n t)
    have hn : g n = t := (hg n (by omega)).trans (Function.update_self ..)
    refine ⟨g, fun v hv => ?_, by simp [freshVars, hn, hts]⟩
    rw [hg v (by omega)]
    exact Function.update_of_ne (Int.ne_of_lt hv) _ _

theorem exists_freshFn (ts : List Ty) (t : Ty) (n : Int) (f : Int → Ty) :
    ∃ g, Agree n g f ∧ (freshVars n ts.length).map (Ty.subst g) = ts ∧ g (n + ts.length) = t := by
  obtain ⟨g, hg, hts⟩ := exists_freshVars ts n f
  have hold : Agree (n + ts.length) (Function.update g (n + ts.length) t) g :=
    fun v hv => Function.update_of_ne (Int.ne_of_lt hv) _ _
  refine ⟨Function.update g (n + ts.length) t, (hold.mono (by omega)).trans hg, ?_,
    Function.update_self ..⟩
  rw [hold.substAll fun u hu v hv => (leaves_freshVars hu v hv).2, hts]

theorem leads_unifyOr_of {n : Int} {f : Int → Ty} {a b : Ty} (hf : a.subst f = b.subst f)
    {blame : Clash → InferFailure} {E : InferFailure → Prop} :
    Leads InferState.next (unifyOr a b blame) n
      (fun s m => m = n ∧ unify a b = .ok s ∧ s.Absorbs f) E := by
  obtain ⟨s, hs⟩ := exists_unify hf
  refine (leads_unifyOr fun clash h => ?_).imp ?_
  · rw [hs] at h
    cases h
  · rintro s' m ⟨rfl, h⟩
    exact ⟨rfl, h, (absorbs_unifier h).2 hf⟩

/-! ## What completeness means -/

/-- Each derivation for an expression is explained by an answer. -/
def Complete (rules : Rules) (e : Term) : Prop :=
  ∀ (env : Env) (position : Position) (n : Int) (f : Int → Ty) (other : Env) (t : Ty),
    env.Below n → Fit f env other → HasType rules other e t →
    Achieves (infer rules e env position) n fun answer n' =>
      Inferred rules env n e answer n' ∧
        ∃ g, Agree n g f ∧ answer.1.Absorbs g ∧ answer.2.subst g = t

/-- Each derivation for a statement is explained by an answer. -/
def Succeeds (rules : Rules) (e : Term) : Prop :=
  ∀ (env : Env) (position : Position) (n : Int) (f : Int → Ty) (other other' : Env),
    env.Below n → Fit f env other → Binds rules other e other' →
    Achieves (check rules e env position) n fun answer n' =>
      Passed rules env n e answer n' ∧
        ∃ g, Agree n g f ∧ answer.1.Absorbs g ∧ Fit g answer.2 other'

variable {rules : Rules} {env other : Env} {n n₁ n' : Int} {e : Term} {s : Subst} {f : Int → Ty}
  {t : Ty}

theorem complete_of (hr : rules.Proper)
    (h : ∀ (env : Env) (position : Position) (n : Int) (f : Int → Ty) (other : Env) (t : Ty),
      env.Below n → Fit f env other → HasType rules other e t →
      Achieves (infer rules e env position) n fun answer _ =>
        ∃ g, Agree n g f ∧ answer.1.Absorbs g ∧ answer.2.subst g = t) : Complete rules e :=
  fun env position n f other t hb hfit hd =>
    ((h env position n f other t hb hfit hd).and (sound hr e env position n hb)).imp
      fun _ _ h => h.symm

theorem succeeds_of (hr : rules.Proper)
    (h : ∀ (env : Env) (position : Position) (n : Int) (f : Int → Ty) (other other' : Env),
      env.Below n → Fit f env other → Binds rules other e other' →
      Achieves (check rules e env position) n fun answer _ =>
        ∃ g, Agree n g f ∧ answer.1.Absorbs g ∧ Fit g answer.2 other') : Succeeds rules e :=
  fun env position n f other other' hb hfit hd =>
    ((h env position n f other other' hb hfit hd).and (passes hr e env position n hb)).imp
      fun _ _ h => h.symm

/-! ## Expressions -/

theorem complete_number (hr : rules.Proper) (k : Int) (l : Option Location) :
    Complete rules (.number k l) := by
  refine complete_of hr fun env position n f other t hb hfit hd => ?_
  cases hd with
  | number =>
    rw [infer]
    exact leads_conclude ⟨f, fun _ _ => rfl, Subst.absorbs_empty f, rfl⟩

theorem complete_boolean (hr : rules.Proper) (b : Bool) (l : Option Location) :
    Complete rules (.boolean b l) := by
  refine complete_of hr fun env position n f other t hb hfit hd => ?_
  cases hd with
  | boolean =>
    rw [infer]
    exact leads_conclude ⟨f, fun _ _ => rfl, Subst.absorbs_empty f, rfl⟩

theorem complete_name (hr : rules.Proper) (x : String) (l : Option Location) :
    Complete rules (.name x l) := by
  refine complete_of hr fun env position n f other t hb hfit hd => ?_
  cases hd with
  | name hget hi =>
    obtain ⟨scheme, hget', hs⟩ := Table.Rel.get?_right hfit.atMost hget
    have hbelow := hb scheme (Table.mem_values_of_get? hget')
    obtain ⟨g, hg, ht⟩ := (hs.instances t hi).exists_opened hbelow.1
    rw [infer, hget']
    refine (returns_instantiate (Or.inl hbelow.2)).bind (leads_conclude ?_)
    exact ⟨g, hg, Subst.absorbs_empty g, ht⟩

theorem achieves_argument (hr : rules.Proper) (he : Complete rules e) (hs : Tidy env n s n₁)
    (hb : env.Below n) (hfit : Fit f env other) (hf : s.Absorbs f) {param : Ty}
    (hp : ∀ v ∈ param.leaves, Reach env n n₁ v) (hd : HasType rules other e (param.subst f))
    (position : Position) (site : Site) :
    Achieves (argument (fun env => infer rules e env position) site param s env) n₁
      fun s' n' => Argued rules env n n₁ [e] [param] s s' n' ∧
        ∃ g, Agree n₁ g f ∧ s'.Absorbs g := by
  suffices hex : Achieves (argument (fun env => infer rules e env position) site param s env) n₁
      fun s' _ => ∃ g, Agree n₁ g f ∧ s'.Absorbs g from
    (hex.and (settles_argument (sound hr e) hs hb hp position site)).imp fun _ _ h => h.symm
  unfold argument
  refine (returns_applyEnv hs.solved env).bind ?_
  refine (he _ position n₁ f other _ (hs.below hb) (hfit.subst hs hb hf) hd).bind ?_
  rintro ⟨s₁, t⟩ n₂ ⟨h₁, g, hg, hg₁, ht⟩
  refine (leads_compose_later hs hb (fun v hv => hs.free hv) h₁.tidy).bind ?_
  rintro s₂ _ ⟨rfl, hc, hs₂⟩
  have hg₂ : s₂.Absorbs g := hc.absorbs hg₁ (hg.absorbs hs hb hf)
  refine (returns_apply hs₂.solved param).bind ?_
  have hunifies : (param.subst s₂.image).subst g = t.subst g := by
    rw [hg₂.subst, ht]
    exact hg.subst fun v hv => (hp v hv).lt hb hs.le
  refine (leads_unifyOr_of hunifies).bind ?_
  rintro s₃ _ ⟨rfl, hu, hg₃⟩
  have hparam := hs₂.leaves_subst fun v hv => (hp v hv).mono h₁.tidy.le
  refine (leads_compose_unifier hs₂ hu hparam (h₁.after hs hb hc hs₂).leaves).imp ?_
  rintro s' _ ⟨rfl, hc', -⟩
  exact ⟨g, hg, hc'.absorbs hg₃ hg₂⟩

theorem achieves_inferAll (hr : rules.Proper) {es : List Term} (hes : ∀ e ∈ es, Complete rules e)
    {params : List Ty} (hs : Tidy env n s n₁) (hb : env.Below n) (hfit : Fit f env other)
    (hf : s.Absorbs f) (hp : ∀ param ∈ params, ∀ v ∈ param.leaves, Reach env n n₁ v)
    (hd : HaveTypes rules other es (params.map (Ty.subst f))) (position : Position) (slot : Nat) :
    Achieves (inferAll rules es params s env position slot) n₁
      fun s' _ => ∃ g, Agree n₁ g f ∧ s'.Absorbs g := by
  induction es generalizing params s n₁ f slot with
  | nil =>
    rw [inferAll]
    · exact leads_pure ⟨f, fun _ _ => rfl, hf⟩
    · simp
  | cons e es ih =>
    cases params with
    | nil => cases hd
    | cons param params =>
      cases hd with
      | cons hd hds =>
        rw [inferAll]
        have hparam := hp param (by simp)
        refine (achieves_argument hr (hes e (by simp)) hs hb hfit hf hparam hd _ _).bind ?_
        rintro s₁ n₂ ⟨h₁, g, hg, hg₁⟩
        have hsame : params.map (Ty.subst g) = params.map (Ty.subst f) :=
          hg.substAll fun q hq v hv => (hp q (by simp [hq]) v hv).lt hb hs.le
        refine (ih (fun e he => hes e (by simp [he])) h₁.tidy
          (hfit.agree hb (hg.mono hs.le)) hg₁
          (fun q hq v hv => (hp q (by simp [hq]) v hv).mono h₁.le) (hsame ▸ hds) _).imp ?_
        rintro s' n' ⟨g', hg', hs'⟩
        exact ⟨g', (hg'.mono h₁.le).trans hg, hs'⟩

theorem complete_binary (hr : rules.Proper) {left right : Term} (hleft : Complete rules left)
    (hright : Complete rules right) (operator : String) (l : Option Location) :
    Complete rules (.binary left operator right l) := by
  refine complete_of hr fun env position n f other t hb hfit hd => ?_
  cases hd with
  | @binary _ _ _ _ _ scheme a b _ hop hi hl hr' =>
    obtain ⟨a', b', t', heq, hreturns, hleaves⟩ := exists_operator hr hop n
    have hclosed := (hr operator scheme hop).2.1
    have hreaches : scheme.Reaches f (.fn [a, b] t) := hi.congr fun v hv => absurd hv (hclosed v)
    obtain ⟨g, hg, ht⟩ := hreaches.exists_opened (n := n) fun v hv => absurd hv (hclosed v)
    simp only [heq, Ty.subst_fn, List.map_cons, List.map_nil, Ty.fn.injEq, List.cons.injEq,
      and_true] at ht
    obtain ⟨⟨rfl, rfl⟩, rfl⟩ := ht
    rw [infer, hop]
    refine hreturns.bind ?_
    have hs : Tidy env n Subst.empty (n + scheme.quantified.length) :=
      (tidy_empty env n).mono (by omega)
    refine (achieves_argument hr hleft hs hb (hfit.agree hb hg) (Subst.absorbs_empty g)
      (fun v hv => .inr (hleaves a' (by simp) v hv)) hl _ _).bind ?_
    rintro s₁ n₁ ⟨h₁, g₁, hg₁, hs₁⟩
    rw [← hg₁.subst fun v hv => (hleaves b' (by simp) v hv).2] at hr'
    refine (achieves_argument hr hright h₁.tidy hb
      (hfit.agree hb ((hg₁.mono hs.le).trans hg)) hs₁
      (fun v hv => Reach.mono (.inr (hleaves b' (by simp) v hv)) h₁.le) hr' _ _).bind ?_
    rintro s₂ n₂ ⟨h₂, g₂, hg₂, hs₂⟩
    refine (returns_apply h₂.tidy.solved t').bind (leads_conclude ⟨g₂, ?_, hs₂, ?_⟩)
    · exact (hg₂.mono h₁.tidy.le).trans ((hg₁.mono hs.le).trans hg)
    · rw [hs₂.subst]
      exact ((hg₂.mono h₁.le).trans hg₁).subst fun v hv => (hleaves t' (by simp) v hv).2

theorem haveTypes_length {es : List Term} {ts : List Ty} (h : HaveTypes rules env es ts) :
    ts.length = es.length := by
  induction es generalizing ts with
  | nil =>
    cases h
    rfl
  | cons e es ih =>
    cases h with
    | cons _ hs => simp [ih hs]

theorem complete_call (hr : rules.Proper) {callee : Term} (hcallee : Complete rules callee)
    {arguments : List Term} (harguments : ∀ e ∈ arguments, Complete rules e)
    (l : Option Location) : Complete rules (.call callee arguments l) := by
  refine complete_of hr fun env position n f other t hb hfit hd => ?_
  cases hd with
  | @call _ _ _ _ types _ hc ha =>
    rw [infer]
    refine (hcallee env _ n f other _ hb hfit hc).bind ?_
    rintro ⟨s₁, calleeType⟩ n₁ ⟨h₁, g, hg, hgs, hgt⟩
    -- the fresh variables stand for the parameters and the result of the derivation
    obtain ⟨g', hg', hparams, hresult⟩ := exists_freshFn types t n₁ g
    rw [haveTypes_length ha] at hparams hresult
    have hs : Tidy env n s₁ (n₁ + arguments.length + 1) := h₁.tidy.mono (by omega)
    have hagree : Agree n g' f := (hg'.mono h₁.tidy.le).trans hg
    have hcalleeType : ∀ v ∈ calleeType.leaves, v < n₁ := fun v hv =>
      (h₁.leaves v hv).1.lt hb h₁.tidy.le
    refine (returns_freshMany _).bind (returns_fresh.bind ?_)
    have hunifies : calleeType.subst g' =
        (Ty.fn (freshVars n₁ arguments.length) (.var (n₁ + arguments.length))).subst g' := by
      rw [hg'.subst hcalleeType, hgt, Ty.subst_fn, hparams, Ty.subst_var, hresult]
    refine (leads_unifyOr_of hunifies).bind ?_
    rintro s₂ _ ⟨rfl, hu, hg₂⟩
    refine (leads_compose_unifier hs hu (fun v hv => (h₁.leaves v hv).mono (by omega)) fun v hv =>
      h₁.tidy.open_fresh hb (leaves_freshFn hv).1 (leaves_freshFn hv).2).bind ?_
    rintro s _ ⟨rfl, hc', ht⟩
    have hgs' : s.Absorbs g' := hc'.absorbs hg₂ (hg'.absorbs h₁.tidy hb hgs)
    have hfresh : ∀ param ∈ freshVars n₁ arguments.length, ∀ v ∈ param.leaves,
        Reach env n (n₁ + arguments.length + 1) v := fun param hmem v hv => by
      have hv := leaves_freshVars hmem v hv
      exact Or.inr ⟨Int.le_trans h₁.tidy.le hv.1, by omega⟩
    refine ((achieves_inferAll hr harguments ht hb (hfit.agree hb hagree) hgs' hfresh
      (by rwa [hparams]) position 1).and (settles_inferAll (fun e _ => sound hr e)
        (length_freshVars _ _) ht hb hfresh position 1)).bind ?_
    rintro s' n' ⟨⟨g'', hg'', hs'⟩, h'⟩
    refine (returns_apply h'.tidy.solved _).bind (leads_conclude ⟨g'', ?_, hs', ?_⟩)
    · exact (hg''.mono ht.le).trans hagree
    · rw [hs'.subst, Ty.subst_var, hg'' _ (by omega), hresult]

theorem complete_lambda (hr : rules.Proper) {body : Term} (hbody : Complete rules body)
    (params : List Param) (l : Option Location) : Complete rules (.lambda params body l) := by
  refine complete_of hr fun env position n f other t hb hfit hd => ?_
  cases hd with
  | @lambda _ _ _ _ types t names ha hd =>
    rw [infer]
    refine ((achieves_reading (fun hm hw hf => Param.leads_becomesAll hm hw hf ha position 0) f).and
      (settles_reading fun hm hw => Param.leads_resolveAll hm hw params position 0)).bind ?_
    rintro types' n₁ ⟨⟨g, hg, htypes⟩, hdrawn, -⟩
    have hover := over_withParams env params types'
    have hrel := rel_withParams (Scheme.atMost_mono g) (hfit.agree hb hg).atMost params types'
    rw [htypes] at hrel
    refine (returns_noteParams _ _ _ _).bind ?_
    refine (hbody _ _ n₁ g _ t (hover.below hdrawn.leaves hb hdrawn.le)
      ((hfit.agree hb hg).of_over hover hdrawn.leaves hb hrel) hd).bind ?_
    rintro ⟨s, t'⟩ n₂ ⟨h, g', hg', hs, ht⟩
    refine (returns_applyAll h.tidy.solved types').bind (leads_conclude ⟨g', ?_, hs, ?_⟩)
    · exact (hg'.mono hdrawn.le).trans hg
    · rw [Ty.subst_fn, hs.substAll, ht,
        hg'.substAll fun u hu v hv => (hdrawn.leaves u hu v hv).2, htypes]

theorem complete_conditional (hr : rules.Proper) {condition thenBranch elseBranch : Term}
    (hcond : Complete rules condition) (hthen : Complete rules thenBranch)
    (helse : Complete rules elseBranch) (l : Option Location) :
    Complete rules (.conditional condition thenBranch elseBranch l) := by
  refine complete_of hr fun env position n f other t hb hfit hd => ?_
  cases hd with
  | conditional hdcond hdthen hdelse =>
    rw [infer]
    refine (hcond env _ n f other _ hb hfit hdcond).bind ?_
    rintro ⟨s₁, conditionType⟩ n₁ ⟨h₁, g₁, hg₁, hgs₁, hgt₁⟩
    have hbool : Ty.bool.subst g₁ = conditionType.subst g₁ := hgt₁.symm
    refine (leads_unifyOr_of hbool).bind ?_
    rintro s₂ _ ⟨rfl, hu₂, hgs₂⟩
    refine (leads_compose_unifier h₁.tidy hu₂ open_bool h₁.leaves).bind ?_
    rintro s _ ⟨rfl, hc, ht⟩
    have hfit₁ := hfit.agree hb hg₁
    have hgs := hc.absorbs hgs₂ hgs₁
    refine (returns_applyEnv ht.solved env).bind ?_
    refine (hthen _ _ _ g₁ other t (ht.below hb) (hfit₁.subst ht hb hgs) hdthen).bind ?_
    rintro ⟨s₃, thenType⟩ n₂ ⟨h₃, g₃, hg₃, hgs₃, hgt₃⟩
    refine (leads_compose_later ht hb (fun v hv => ht.free hv) h₃.tidy).bind ?_
    rintro s' _ ⟨rfl, hc', ht'⟩
    have hfit₃ := hfit₁.agree hb (hg₃.mono ht.le)
    have hgs' := hc'.absorbs hgs₃ (hg₃.absorbs ht hb hgs)
    have h₂ := h₃.after ht hb hc' ht'
    refine (returns_applyEnv ht'.solved env).bind ?_
    refine (helse _ _ _ g₃ other t (ht'.below hb) (hfit₃.subst ht' hb hgs') hdelse).bind ?_
    rintro ⟨s₄, elseType⟩ n₃ ⟨h₄, g₄, hg₄, hgs₄, hgt₄⟩
    refine (leads_compose_later ht' hb (fun v hv => ht'.free hv) h₄.tidy).bind ?_
    rintro s'' _ ⟨rfl, hc'', ht''⟩
    have hgs'' := hc''.absorbs hgs₄ (hg₄.absorbs ht' hb hgs')
    have h₅ := h₄.after ht' hb hc'' ht''
    have hl := ht''.leaves_subst fun v hv => (h₂.leaves v hv).1.mono h₄.tidy.le
    have hthenType : (thenType.subst s''.image).subst g₄ = t := by
      rw [hgs''.subst, ← hgt₃]
      exact hg₄.subst fun v hv => (h₂.leaves v hv).1.lt hb ht'.le
    refine (returns_apply ht''.solved thenType).bind ?_
    refine (leads_unifyOr_of (f := g₄) (hthenType.trans hgt₄.symm)).bind ?_
    rintro s₆ _ ⟨rfl, hu₆, hgs₆⟩
    refine (leads_compose_unifier ht'' hu₆ hl h₅.leaves).bind ?_
    rintro r _ ⟨rfl, hcr, htr⟩
    have hgr := hcr.absorbs hgs₆ hgs''
    refine (returns_apply htr.solved _).bind (leads_conclude ⟨g₄, ?_, hgr, ?_⟩)
    · exact ((hg₄.mono ht'.le).trans (hg₃.mono ht.le)).trans hg₁
    · rw [hgr.subst, hthenType]

/-! ## Blocks -/

theorem achieves_checkAll {es : List Term} (hes : ∀ e ∈ es, Succeeds rules e)
    (hs : Tidy env n s n₁) (hb : env.Below n) {inner : Env} (hib : inner.Below n₁)
    (hi : ∀ v ∈ inner.freeVars, Open env n s n₁ v) (hf : s.Absorbs f) {other other' : Env}
    (hfit : Fit f inner other) (hd : BindAll rules other es other')
    (position : Position) (slot : Nat) :
    Achieves (checkAll rules es inner position slot s) n₁ fun answer _ =>
      ∃ g, Agree n₁ g f ∧ answer.1.Absorbs g ∧ Fit g answer.2 other' := by
  induction es generalizing inner other s n₁ f slot with
  | nil =>
    cases hd
    rw [checkAll]
    exact leads_pure ⟨f, fun _ _ => rfl, hf, hfit⟩
  | cons e es ih =>
    cases hd with
    | cons hd hds =>
      rw [checkAll]
      refine (hes e (by simp) inner _ n₁ f other _ hib hfit hd).bind ?_
      rintro ⟨s₁, inner₁⟩ n₂ ⟨h₁, g, hg, hgs, hfit₁⟩
      refine (leads_compose_later hs hb hi h₁.tidy).bind ?_
      rintro both _ ⟨rfl, hc, ht⟩
      refine (ih (fun e he => hes e (by simp [he])) ht h₁.below
        (fun v hv => hs.open_later hb hi h₁.tidy hc (h₁.free v hv))
        (hc.absorbs hgs (hg.absorbs hs hb hf)) hfit₁ hds _).imp ?_
      rintro answer n' ⟨g', hg', hgs', hfit'⟩
      exact ⟨g', (hg'.mono h₁.tidy.le).trans hg, hgs', hfit'⟩

theorem achieves_statements (hr : rules.Proper) {es : List Term}
    (hes : ∀ e ∈ es, Succeeds rules e) (hb : env.Below n) {other' : Env} (hfit : Fit f env other)
    (hd : BindAll rules other es other') (position : Position) :
    Achieves (checkAll rules es env position 0 Subst.empty) n fun answer n' =>
      (∃ g, Agree n g f ∧ answer.1.Absorbs g ∧ Fit g answer.2 other') ∧
        PassedAll rules env n n env es Subst.empty answer n' :=
  (achieves_checkAll hes (tidy_empty env n) hb hb (fun _ hv => open_empty.2 (.inl hv))
    (Subst.absorbs_empty f) hfit hd position 0).and
    (settles_checkAll hr (passesAll hr es) (tidy_empty env n) hb hb
      (fun _ hv => open_empty.2 (.inl hv)) position 0)

theorem complete_unit (hr : rules.Proper) {statements : List Term}
    (hs : ∀ e ∈ statements, Succeeds rules e) (l : Option Location) :
    Complete rules (.block statements none l) := by
  refine complete_of hr fun env position n f other t hb hfit hd => ?_
  cases hd with
  | unit hd =>
    rw [infer]
    refine (achieves_statements hr hs hb hfit hd position).bind ?_
    rintro ⟨s, inner⟩ n₁ ⟨⟨g, hg, hgs, -⟩, -⟩
    exact leads_conclude ⟨g, hg, hgs, rfl⟩

theorem complete_block (hr : rules.Proper) {statements : List Term}
    (hs : ∀ e ∈ statements, Succeeds rules e) {result : Term} (hresult : Complete rules result)
    (l : Option Location) : Complete rules (.block statements (some result) l) := by
  refine complete_of hr fun env position n f other t hb hfit hd => ?_
  cases hd with
  | block hds hd =>
    rw [infer]
    refine (achieves_statements hr hs hb hfit hds position).bind ?_
    rintro ⟨s, inner⟩ n₁ ⟨⟨g, hg, hgs, hfit'⟩, h⟩
    refine (hresult inner _ n₁ g _ t h.below hfit' hd).bind ?_
    rintro ⟨s₁, t'⟩ n₂ ⟨h₁, g₁, hg₁, hgs₁, hgt₁⟩
    refine (leads_compose_later h.tidy hb h.free h₁.tidy).bind ?_
    rintro both _ ⟨rfl, hc, -⟩
    refine leads_conclude ⟨g₁, (hg₁.mono h.le).trans hg, ?_, hgt₁⟩
    exact hc.absorbs hgs₁ (hg₁.absorbs h.tidy hb hgs)

/-! ## Statements -/

theorem succeeds_discard (hr : rules.Proper) {value : Term} (hvalue : Complete rules value)
    (l : Option Location) : Succeeds rules (.discard value l) := by
  refine succeeds_of hr fun env position n f other other' hb hfit hd => ?_
  cases hd with
  | discard hd =>
    rw [check]
    refine (hvalue env _ n f other _ hb hfit hd).bind ?_
    rintro ⟨s, t⟩ n₁ ⟨h, g, hg, hgs, -⟩
    refine (returns_note _).bind ((returns_applyEnv h.tidy.solved env).bind ?_)
    exact leads_pure ⟨g, hg, hgs, (hfit.agree hb hg).subst h.tidy hb hgs⟩

theorem succeeds_let (hr : rules.Proper) {value : Term} (hvalue : Complete rules value)
    (x : String) (l : Option Location) : Succeeds rules (.letBinding x value none l) := by
  refine succeeds_of hr fun env position n f other other' hb hfit hd => ?_
  cases hd with
  | letBinding names hd _ =>
    rw [check]
    refine (hvalue env _ n f other _ hb hfit hd).bind ?_
    rintro ⟨s, t⟩ n₁ ⟨h, g, hg, hgs, rfl⟩
    refine (returns_applyEnv h.tidy.solved env).bind ?_
    refine (returns_note _).bind ((returns_note _).bind (leads_pure ⟨g, hg, hgs, ?_⟩))
    exact ((hfit.agree hb hg).subst h.tidy hb hgs).generalize x t

theorem succeeds_ascribed (hr : rules.Proper) {value : Term} (hvalue : Complete rules value)
    (x : String) (ascription : TypeExpr) (l : Option Location) :
    Succeeds rules (.letBinding x value (some ascription) l) := by
  refine succeeds_of hr fun env position n f other other' hb hfit hd => ?_
  cases hd with
  | @letBinding _ _ _ _ _ t names hd ha =>
    rw [check]
    refine (hvalue env _ n f other _ hb hfit hd).bind ?_
    rintro ⟨s, t'⟩ n₁ ⟨h, g, hg, hgs, hgt⟩
    refine ((achieves_reading
      (fun hm hw hf => TypeExpr.leads_becomes hm hw hf (ha ascription rfl) _) g).and
      (settles_reading fun hm hw => TypeExpr.leads_resolve hm hw ascription _)).bind ?_
    rintro declared n₂ ⟨⟨g', hg', hdeclared⟩, hdrawn, -⟩
    obtain rfl : declared.subst g' = t := by simpa using hdeclared
    have hsame : t'.subst g' = declared.subst g' := by
      rw [← hgt]
      exact hg'.subst fun v hv => (h.leaves v hv).1.lt hb h.tidy.le
    have hs := h.tidy.mono hdrawn.le
    have hleaves := hdrawn.leaves declared (by simp)
    refine (leads_unifyOr_of hsame.symm).bind ?_
    rintro s₁ _ ⟨rfl, hu, hgs₁⟩
    refine (leads_compose_unifier hs hu
      (fun v hv => h.tidy.open_fresh hb (hleaves v hv).1 (hleaves v hv).2)
      fun v hv => (h.leaves v hv).mono hdrawn.le).bind ?_
    rintro both _ ⟨rfl, hc, ht⟩
    have hagree : Agree n g' f := (hg'.mono h.tidy.le).trans hg
    have hgb : both.Absorbs g' := hc.absorbs hgs₁ (hg'.absorbs h.tidy hb hgs)
    refine (returns_apply (found_of_unify hu).solved t').bind ?_
    refine (returns_applyEnv ht.solved env).bind ?_
    refine (returns_note _).bind ((returns_note _).bind (leads_pure ⟨g', hagree, hgb, ?_⟩))
    rw [← hsame, ← hgs₁.subst]
    exact ((hfit.agree hb hagree).subst ht hb hgb).generalize x _

theorem succeeds_definition (hr : rules.Proper) {body : Term} (hbody : Complete rules body)
    (g : String) (params : List Param) (returns : Option TypeExpr) (l : Option Location) :
    Succeeds rules (.definition g params returns body l) := by
  refine succeeds_of hr fun env position n f other other' hb hfit hd => ?_
  cases hd with
  | @definition _ _ _ _ _ _ types t names hp ha hd =>
    rw [check]
    refine ((achieves_reading
      (fun hm hw hf => Param.leads_becomesSignature hm hw hf hp ha position) f).and
      (settles_reading fun hm hw => Param.leads_signature hm hw params returns position)).bind ?_
    rintro ⟨types', result⟩ n₁ ⟨⟨f₁, hf₁, htypes⟩, hdrawn, -⟩
    obtain ⟨rfl, rfl⟩ : types'.map (Ty.subst f₁) = types ∧ result.subst f₁ = t := by
      simpa using htypes
    have hover := over_inner env g params types' result
    have hfit₁ := hfit.agree hb hf₁
    have hrel := rel_inner (Scheme.atMost_mono f₁) hfit₁.atMost g params types' result
    refine (returns_noteParams _ _ _ _).bind ?_
    refine (hbody _ _ n₁ f₁ _ _ (hover.below hdrawn.inner hb hdrawn.le)
      (hfit₁.of_over hover hdrawn.inner hb hrel) hd).bind ?_
    rintro ⟨s, bodyType⟩ n₂ ⟨h, f₂, hf₂, hfs, hft⟩
    have hi : ∀ v ∈ Env.freeVars (withParams (env.insert g (.mono (.fn types' result))) params
        types'), Reach env n n₁ v := fun v hv => hover.reach hdrawn.inner hv
    have hs := h.tidy.outer hi hdrawn.le
    have hreach : ∀ v ∈ (Ty.fn types' result).leaves, Reach env n n₂ v := fun v hv =>
      Reach.mono (.inr (hdrawn.inner _ (by simp) v hv)) h.tidy.le
    have hsame : (Ty.fn types' result).subst f₂ = (Ty.fn types' result).subst f₁ :=
      hf₂.subst fun v hv => (hdrawn.inner _ (by simp) v hv).2
    have hresult : (result.subst s.image).subst f₂ = bodyType.subst f₂ := by
      rw [hfs.subst, hft]
      exact hf₂.subst fun v hv => (hdrawn.leaves result (by simp) v hv).2
    refine (returns_apply h.tidy.solved result).bind ((leads_unifyOr_of hresult).bind ?_)
    rintro s₁ _ ⟨rfl, hu, hfs₁⟩
    refine (leads_compose_unifier hs hu (hs.leaves_subst fun v hv => hreach v (by simp [hv]))
      fun v hv => ⟨(h.leaves v hv).1.outer hi hdrawn.le h.tidy.le, (h.leaves v hv).2⟩).bind ?_
    rintro both _ ⟨rfl, hc, ht⟩
    have hagree : Agree n f₂ f := (hf₂.mono hdrawn.le).trans hf₁
    have hfb : both.Absorbs f₂ := hc.absorbs hfs₁ hfs
    refine (returns_applyEnv ht.solved env).bind ((returns_apply ht.solved _).bind ?_)
    refine (returns_note _).bind ((returns_note _).bind (leads_pure ⟨f₂, hagree, hfb, ?_⟩))
    rw [← Ty.subst_fn, ← hsame, ← hfb.subst]
    exact ((hfit.agree hb hagree).subst ht hb hfb).generalize g _

/-! ## All terms -/

mutual

/-- Whatever can be derived for an expression is found. -/
theorem complete (hr : rules.Proper) (e : Term) : Complete rules e := by
  match e with
  | .number k l => exact complete_number hr k l
  | .boolean b l => exact complete_boolean hr b l
  | .name x l => exact complete_name hr x l
  | .binary left operator right l =>
    exact complete_binary hr (complete hr left) (complete hr right) operator l
  | .call callee arguments l =>
    exact complete_call hr (complete hr callee) (completeAll hr arguments) l
  | .lambda params body l => exact complete_lambda hr (complete hr body) params l
  | .block statements none l => exact complete_unit hr (succeedsAll hr statements) l
  | .block statements (some result) l =>
    exact complete_block hr (succeedsAll hr statements) (complete hr result) l
  | .conditional condition thenBranch elseBranch l =>
    exact complete_conditional hr (complete hr condition) (complete hr thenBranch)
      (complete hr elseBranch) l
  | .letBinding .. | .definition .. | .discard .. | .strayParam _ | .strayType _
  | .strayProgram .. =>
    intro env position n f other t _ _ hd
    cases hd

/-- Whatever can be derived for a statement is found. -/
theorem succeeds (hr : rules.Proper) (e : Term) : Succeeds rules e := by
  match e with
  | .discard value l => exact succeeds_discard hr (complete hr value) l
  | .letBinding x value none l => exact succeeds_let hr (complete hr value) x l
  | .letBinding x value (some ascription) l =>
    exact succeeds_ascribed hr (complete hr value) x ascription l
  | .definition f params returns body l =>
    exact succeeds_definition hr (complete hr body) f params returns l
  | .number .. | .boolean .. | .name .. | .binary .. | .call .. | .lambda .. | .block ..
  | .conditional .. | .strayParam _ | .strayType _ | .strayProgram .. =>
    intro env position n f other other' _ _ hd
    cases hd

theorem completeAll (hr : rules.Proper) (es : List Term) : ∀ e ∈ es, Complete rules e := by
  match es with
  | [] => simp
  | e :: es => exact List.forall_mem_cons.2 ⟨complete hr e, completeAll hr es⟩

theorem succeedsAll (hr : rules.Proper) (es : List Term) : ∀ e ∈ es, Succeeds rules e := by
  match es with
  | [] => simp
  | e :: es => exact List.forall_mem_cons.2 ⟨succeeds hr e, succeedsAll hr es⟩

end

end Infer

end LetPoly
