-- Inference is sound: what it answers can be derived by the typing rules. An answer is
-- judged by every replacement of variables that its substitution changes nothing for:
-- under each of them the expression has the replaced type, in all environments that
-- are at least as general as the replaced one.
--
-- From here on runs are evaluated by `cbv`. The whole library is imported for its
-- equations of `EStateM`, which none of its parts has.
import Mathlib
import LetPoly.Proofs.Annotations

namespace LetPoly.Infer

/-! ## What answers are worth -/

/-- An answer for an expression: what it is about, and that it can be derived. -/
structure Inferred (rules : Rules) (env : Env) (n : Int) (e : Term) (answer : Subst × Ty)
    (n' : Int) : Prop where
  tidy : Tidy env n answer.1 n'
  leaves : ∀ v ∈ answer.2.leaves, Open env n answer.1 n' v
  derives : env.Apart → ∀ f other, answer.1.Absorbs f → env.AtLeast f other →
    HasType rules other e (answer.2.subst f)

/-- An answer for a statement: what it is about, and that it can be derived. -/
structure Passed (rules : Rules) (env : Env) (n : Int) (e : Term) (answer : Subst × Env)
    (n' : Int) : Prop where
  tidy : Tidy env n answer.1 n'
  below : answer.2.Below n'
  free : ∀ v ∈ answer.2.freeVars, Open env n answer.1 n' v
  exposed : ∀ v' w, answer.2.Exposed v' w → ∃ v, env.Exposed v w ∧ v' ∈ (answer.1.image v).leaves
  derives : env.Apart → Binds rules (env.subst answer.1.image) e answer.2

theorem Passed.apart {rules : Rules} {env : Env} {n n' : Int} {e : Term} {answer : Subst × Env}
    (h : Passed rules env n e answer n') (ha : env.Apart) : answer.2.Apart := by
  intro v' w he
  obtain ⟨v, he, -⟩ := h.exposed v' w he
  exact ha v w he

/-- Every answer for an expression is worth something. -/
def Sound (rules : Rules) (e : Term) : Prop :=
  ∀ (env : Env) (position : Position) (n : Int), env.Below n →
    Settles (infer rules e env position) n (Inferred rules env n e)

/-- Every answer for a statement is worth something. -/
def Passes (rules : Rules) (e : Term) : Prop :=
  ∀ (env : Env) (position : Position) (n : Int), env.Below n →
    Settles (check rules e env position) n (Passed rules env n e)

variable {rules : Rules} {env : Env} {n n₁ n' : Int} {e : Term} {s s₁ both : Subst} {t : Ty}

theorem inferred_empty (hn : n ≤ n') (hl : ∀ v ∈ t.leaves, Reach env n n' v)
    (hd : env.Apart → ∀ f other, env.AtLeast f other → HasType rules other e (t.subst f)) :
    Inferred rules env n e (Subst.empty, t) n' :=
  ⟨(tidy_empty env n).mono hn, fun v hv => open_empty.2 (hl v hv),
    fun ha f other _ hle => hd ha f other hle⟩

/-- An answer under a substitution that was there before, composed with it. -/
theorem Inferred.after (h : Inferred rules (env.subst s.image) n₁ e (s₁, t) n')
    (hs : Tidy env n s n₁) (hb : env.Below n) (hc : Subst.Composed s₁ s both)
    (ht : Tidy env n both n') : Inferred rules env n e (both, t) n' := by
  refine ⟨ht, fun v hv => ?_, fun ha f other hf hle => ?_⟩
  · exact hs.open_later hb (fun w hw => hs.free hw) h.tidy hc (h.leaves v hv)
  · exact h.derives (ha.subst hs hb) f other (hf.trans hc.later)
      (hle.absorb (ha.clean hs hb) (hf.trans hc.earlier))

/-- The derivation in the environment of the answer itself. -/
theorem Inferred.hasType (h : Inferred rules env n e (s, t) n') (hb : env.Below n)
    (ha : env.Apart) : HasType rules (env.subst s.image) e t := by
  have hd := h.derives ha s.image _ h.tidy.solved.absorbs (Env.atLeast_self (ha.clean h.tidy hb))
  rwa [Subst.subst_of_not_mem fun v hv => (h.leaves v hv).2] at hd

theorem apart_of_closed (hc : ∀ v, v ∉ env.freeVars) : env.Apart :=
  fun _ w ⟨_, _, _, _, hw⟩ => hc w hw

theorem Inferred.of_closed (h : Inferred rules env n e (s, t) n') (hb : env.Below n)
    (hc : ∀ v, v ∉ env.freeVars) : HasType rules env e t := by
  have hd := h.hasType hb (apart_of_closed hc)
  rwa [Env.subst_eq_self fun v hv => absurd hv (hc v)] at hd

theorem Passed.of_closed {env' : Env} (h : Passed rules env n e (s, env') n')
    (hc : ∀ v, v ∉ env.freeVars) : Binds rules env e env' := by
  have hd := h.derives (apart_of_closed hc)
  rwa [Env.subst_eq_self fun v hv => absurd hv (hc v)] at hd

/-! ## Expressions -/

theorem sound_number (k : Int) (l : Option Location) : Sound rules (.number k l) := by
  intro env position n hb
  rw [infer]
  refine leads_conclude (inferred_empty (Int.le_refl n) ?_ fun _ _ _ _ => .number)
  simp [Ty.number]

theorem sound_boolean (b : Bool) (l : Option Location) : Sound rules (.boolean b l) := by
  intro env position n hb
  rw [infer]
  refine leads_conclude (inferred_empty (Int.le_refl n) ?_ fun _ _ _ _ => .boolean)
  simp [Ty.bool]

theorem sound_name (x : String) (l : Option Location) : Sound rules (.name x l) := by
  intro env position n hb
  rw [infer]
  rcases hget : env.get? x with _ | scheme
  · exact leads_throw nofun
  · have hmem := Table.mem_values_of_get? hget
    refine (returns_instantiate (Or.inl (hb scheme hmem).2)).bind (leads_conclude ?_)
    refine inferred_empty (by omega) (fun v hv => ?_) fun _ f other hle => ?_
    · exact (Scheme.leaves_opened hv).imp_left fun hv => Env.mem_freeVars.2 ⟨scheme, hmem, hv⟩
    · obtain ⟨scheme', hget', hs⟩ := Table.Rel.get?_left hle hget
      exact .name hget' (hs _ ((scheme.instance_opened n).subst f))

/-! ## Arguments -/

/-- What is answered for arguments: what it is about, that it keeps what was answered before, and
that the arguments have the types of the parameters. -/
structure Argued (rules : Rules) (env : Env) (n n₁ : Int) (es : List Term) (params : List Ty)
    (s s' : Subst) (n' : Int) : Prop where
  le : n₁ ≤ n'
  tidy : Tidy env n s' n'
  keeps : s.Absorbs s'.image
  derives : env.Apart → ∀ f other, s'.Absorbs f → env.AtLeast f other →
    HaveTypes rules other es (params.map (Ty.subst f))

theorem settles_argument (he : Sound rules e) (hs : Tidy env n s n₁) (hb : env.Below n)
    {param : Ty} (hp : ∀ v ∈ param.leaves, Reach env n n₁ v) (position : Position) (site : Site) :
    Settles (argument (fun env => infer rules e env position) site param s env) n₁
      fun s' n' => Argued rules env n n₁ [e] [param] s s' n' := by
  unfold argument
  refine (returns_applyEnv hs.solved env).bind ?_
  refine (he _ position n₁ (hs.below hb)).bind ?_
  rintro ⟨s₁, t⟩ n₂ h₁
  refine (leads_compose_later hs hb (fun v hv => hs.free hv) h₁.tidy).bind ?_
  rintro s₂ _ ⟨rfl, hc, ht⟩
  have h := h₁.after hs hb hc ht
  have hparam := ht.leaves_subst fun v hv => (hp v hv).mono h₁.tidy.le
  refine (returns_apply ht.solved param).bind ?_
  refine (leads_unifyOr fun _ _ => nofun).bind ?_
  rintro s₃ _ ⟨rfl, hu⟩
  refine (leads_compose_unifier ht hu hparam h.leaves).imp ?_
  rintro s' _ ⟨rfl, hc', ht'⟩
  refine ⟨h₁.tidy.le, ht', hc'.earlier.trans hc.earlier, fun ha f other hf hle => ?_⟩
  have hd := h.derives ha f other (hf.trans hc'.earlier) hle
  have heq : param.subst f = t.subst f := by
    rw [← (hf.trans hc'.earlier).subst param]
    exact (absorbs_unifier hu).1 (hf.trans hc'.later)
  simp only [List.map_cons, List.map_nil, heq]
  exact .cons hd .nil

theorem settles_inferAll {es : List Term} (hes : ∀ e ∈ es, Sound rules e) {params : List Ty}
    (hlen : params.length = es.length) (hs : Tidy env n s n₁) (hb : env.Below n)
    (hp : ∀ param ∈ params, ∀ v ∈ param.leaves, Reach env n n₁ v) (position : Position)
    (slot : Nat) :
    Settles (inferAll rules es params s env position slot) n₁
      fun s' n' => Argued rules env n n₁ es params s s' n' := by
  induction es generalizing params s n₁ slot with
  | nil =>
    obtain rfl := List.eq_nil_of_length_eq_zero hlen
    rw [inferAll]
    · exact leads_pure ⟨Int.le_refl _, hs, hs.solved.absorbs, fun _ _ _ _ _ => .nil⟩
    · simp
  | cons e es ih =>
    obtain ⟨param, params, rfl⟩ := List.exists_cons_of_length_eq_add_one hlen
    rw [inferAll]
    have he := hes e (by simp)
    refine (settles_argument he hs hb (hp param (by simp)) _ _).bind fun s₁ n₂ h₁ => ?_
    refine (ih (fun e he => hes e (by simp [he])) (by simpa using hlen) h₁.tidy
      (fun q hq v hv => (hp q (by simp [hq]) v hv).mono h₁.le) _).imp fun s' n' h => ?_
    refine ⟨Int.le_trans h₁.le h.le, h.tidy, h.keeps.trans h₁.keeps, fun ha f other hf hle => ?_⟩
    cases h₁.derives ha f other (hf.trans h.keeps) hle with
    | cons hd _ => exact .cons hd (h.derives ha f other hf hle)

/-- An operator is given two parameters and a result that are made of fresh variables only. -/
theorem exists_operator (hr : rules.Proper) {operator : String} {scheme : Scheme}
    (hop : rules.operators.get? operator = some scheme) (n : Int) :
    ∃ a b t, scheme.opened n = .fn [a, b] t ∧
      Returns InferState.next (instantiate scheme) n (.fn [a, b] t)
        (n + scheme.quantified.length) ∧
      ∀ u ∈ [a, b, t], ∀ v ∈ u.leaves, n ≤ v ∧ v < n + scheme.quantified.length := by
  obtain ⟨⟨a, b, t, hbody⟩, hclosed, hone⟩ := hr operator scheme hop
  have heq : scheme.opened n = .fn [a.subst (scheme.freshen n).image,
      b.subst (scheme.freshen n).image] (t.subst (scheme.freshen n).image) := by
    simp [Scheme.opened, hbody]
  refine ⟨_, _, _, heq, heq ▸ returns_instantiate ?_, fun u hu v hv => ?_⟩
  · exact hone.imp_left fun h => by simp [h]
  · refine (Scheme.leaves_opened ?_).resolve_left (hclosed v)
    simp only [List.mem_cons, List.not_mem_nil, or_false] at hu
    rw [heq]
    rcases hu with rfl | rfl | rfl <;> simp [hv]

theorem sound_binary (hr : rules.Proper) {left right : Term} (hleft : Sound rules left)
    (hright : Sound rules right) (operator : String) (l : Option Location) :
    Sound rules (.binary left operator right l) := by
  intro env position n hb
  rw [infer]
  rcases hop : rules.operators.get? operator with _ | scheme
  · exact leads_throw nofun
  · obtain ⟨a, b, t, heq, hreturns, hleaves⟩ := exists_operator hr hop n
    refine hreturns.bind ?_
    have hs : Tidy env n Subst.empty (n + scheme.quantified.length) :=
      (tidy_empty env n).mono (by omega)
    refine (settles_argument hleft hs hb (fun v hv => .inr (hleaves a (by simp) v hv)) _ _).bind
      fun s₁ n₁ h₁ => ?_
    refine (settles_argument hright h₁.tidy hb (fun v hv => ?_) _ _).bind fun s₂ n₂ h₂ => ?_
    · exact Reach.mono (.inr (hleaves b (by simp) v hv)) h₁.le
    refine (returns_apply h₂.tidy.solved t).bind (leads_conclude ⟨h₂.tidy, ?_, ?_⟩)
    · refine h₂.tidy.leaves_subst fun v hv => ?_
      exact Reach.mono (.inr (hleaves t (by simp) v hv)) (Int.le_trans h₁.le h₂.le)
    · intro ha f other hf hle
      have hi := hr.instance_subst hop f (scheme.instance_opened n)
      rw [heq, Ty.subst_fn] at hi
      rw [hf.subst t]
      cases h₁.derives ha f other (hf.trans h₂.keeps) hle with
      | cons hl _ =>
        cases h₂.derives ha f other hf hle with
        | cons hr _ => exact .binary hop hi hl hr

theorem sound_call {callee : Term} (hcallee : Sound rules callee) {arguments : List Term}
    (harguments : ∀ e ∈ arguments, Sound rules e) (l : Option Location) :
    Sound rules (.call callee arguments l) := by
  intro env position n hb
  rw [infer]
  refine (hcallee env _ n hb).bind ?_
  rintro ⟨s₁, calleeType⟩ n₁ h₁
  refine (returns_freshMany _).bind (returns_fresh.bind ?_)
  have hs : Tidy env n s₁ (n₁ + arguments.length + 1) := h₁.tidy.mono (by omega)
  refine (leads_unifyOr fun _ _ => nofun).bind ?_
  rintro s₂ _ ⟨rfl, hu⟩
  refine (leads_compose_unifier hs hu (fun v hv => (h₁.leaves v hv).mono (by omega)) fun v hv =>
    h₁.tidy.open_fresh hb (leaves_freshFn hv).1 (leaves_freshFn hv).2).bind ?_
  rintro s _ ⟨rfl, hc, ht⟩
  have hreach : ∀ v, n₁ ≤ v ∧ v < n₁ + arguments.length + 1 →
      Reach env n (n₁ + arguments.length + 1) v :=
    fun v hv => Or.inr ⟨Int.le_trans h₁.tidy.le hv.1, hv.2⟩
  refine (settles_inferAll harguments (length_freshVars _ _) ht hb (fun t ht v hv => ?_) _ _).bind
    fun s' n' h => ?_
  · have := leaves_freshVars ht v hv
    exact hreach v (by omega)
  refine (returns_apply h.tidy.solved _).bind (leads_conclude ⟨h.tidy, ?_, ?_⟩)
  · refine h.tidy.leaves_subst fun v hv => ?_
    obtain rfl : v = n₁ + arguments.length := by simpa using hv
    exact (hreach _ (by omega)).mono h.le
  · intro ha f other hf hle
    have hfs := hf.trans h.keeps
    have hcallee' := h₁.derives ha f other (hfs.trans hc.earlier) hle
    rw [(absorbs_unifier hu).1 (hfs.trans hc.later), Ty.subst_fn] at hcallee'
    rw [hf.subst]
    exact .call hcallee' (h.derives ha f other hf hle)

theorem over_withParams (env : Env) (params : List Param) (types : List Ty) :
    Env.Over types env (withParams env params types) := by
  intro scheme hs
  rcases Table.mem_values_insertAll hs with hs | hs
  · rw [List.map_map, List.mem_map] at hs
    obtain ⟨⟨p, t⟩, hpt, rfl⟩ := hs
    exact Or.inr ⟨t, (List.of_mem_zip hpt).2, rfl⟩
  · exact Or.inl hs

theorem sound_lambda {body : Term} (hbody : Sound rules body) (params : List Param)
    (l : Option Location) : Sound rules (.lambda params body l) := by
  intro env position n hb
  rw [infer]
  refine (settles_reading fun hm hw => Param.leads_resolveAll hm hw params position 0).bind ?_
  rintro types n₁ ⟨hdrawn, names, hallow⟩
  have hover := over_withParams env params types
  have hi : ∀ v ∈ (withParams env params types).freeVars, Reach env n n₁ v :=
    fun v hv => hover.reach hdrawn.leaves hv
  refine (returns_noteParams _ _ _ _).bind ?_
  refine (hbody _ _ n₁ (hover.below hdrawn.leaves hb hdrawn.le)).bind ?_
  rintro ⟨s, t⟩ n₂ h
  have ht := h.tidy.outer hi hdrawn.le
  refine (returns_applyAll h.tidy.solved types).bind (leads_conclude ⟨ht, ?_, ?_⟩)
  · intro v hv
    rw [Ty.leaves_fn, List.mem_append, List.mem_flatMap] at hv
    rcases hv with ⟨u, hu, hv⟩ | hv
    · obtain ⟨u, hmem, rfl⟩ := List.mem_map.1 hu
      exact ht.leaves_subst
        (fun w hw => Reach.mono (.inr (hdrawn.leaves u hmem w hw)) h.tidy.le) v hv
    · obtain ⟨hreach, hk⟩ := h.leaves v hv
      exact ⟨hreach.outer hi hdrawn.le h.tidy.le, hk⟩
  · intro ha f other hf hle
    rw [Ty.subst_fn, hf.substAll]
    refine .lambda _ (hallow.subst f) (h.derives (ha.of_over hover hdrawn.leaves hb) f _ hf ?_)
    exact rel_withParams (Scheme.atLeast_mono f) hle params types

theorem sound_conditional {condition thenBranch elseBranch : Term} (hcond : Sound rules condition)
    (hthen : Sound rules thenBranch) (helse : Sound rules elseBranch) (l : Option Location) :
    Sound rules (.conditional condition thenBranch elseBranch l) := by
  intro env position n hb
  rw [infer]
  refine (hcond env _ n hb).bind ?_
  rintro ⟨s₁, conditionType⟩ n₁ h₁
  refine (leads_unifyOr fun _ _ => nofun).bind ?_
  rintro s₂ _ ⟨rfl, hu₂⟩
  refine (leads_compose_unifier h₁.tidy hu₂ open_bool h₁.leaves).bind ?_
  rintro s _ ⟨rfl, hc, ht⟩
  refine (returns_applyEnv ht.solved env).bind ((hthen _ _ _ (ht.below hb)).bind ?_)
  rintro ⟨s₃, thenType⟩ n₂ h₃
  refine (leads_compose_later ht hb (fun v hv => ht.free hv) h₃.tidy).bind ?_
  rintro s' _ ⟨rfl, hc', ht'⟩
  have h₂ := h₃.after ht hb hc' ht'
  refine (returns_applyEnv ht'.solved env).bind ((helse _ _ _ (ht'.below hb)).bind ?_)
  rintro ⟨s₄, elseType⟩ n₃ h₄
  refine (leads_compose_later ht' hb (fun v hv => ht'.free hv) h₄.tidy).bind ?_
  rintro s'' _ ⟨rfl, hc'', ht''⟩
  have h₅ := h₄.after ht' hb hc'' ht''
  have hl := ht''.leaves_subst fun v hv => (h₂.leaves v hv).1.mono h₄.tidy.le
  refine (returns_apply ht''.solved thenType).bind ((leads_unifyOr fun _ _ => nofun).bind ?_)
  rintro s₆ _ ⟨rfl, hu₆⟩
  refine (leads_compose_unifier ht'' hu₆ hl h₅.leaves).bind ?_
  rintro r _ ⟨rfl, hcr, htr⟩
  refine (returns_apply htr.solved _).bind (leads_conclude ⟨htr, ?_, fun ha f other hf hle => ?_⟩)
  · exact htr.leaves_subst fun v hv => (hl v hv).1
  · -- whatever absorbs the whole substitution absorbs each part of it
    have hf'' := hf.trans hcr.earlier
    have hf' := hf''.trans hc''.earlier
    have hfs := hf'.trans hc'.earlier
    have hdcond := h₁.derives ha f other (hfs.trans hc.earlier) hle
    have hdthen := h₂.derives ha f other hf' hle
    have hdelse := h₅.derives ha f other hf'' hle
    rw [← (absorbs_unifier hu₂).1 (hfs.trans hc.later)] at hdcond
    rw [← (absorbs_unifier hu₆).1 (hf.trans hcr.later), hf''.subst] at hdelse
    rw [hf.subst, hf''.subst]
    exact .conditional hdcond hdthen hdelse

/-! ## Blocks -/

/-- What is answered for statements: what it is about, that it keeps what was answered before, and
that the statements can be derived one after the other. -/
structure PassedAll (rules : Rules) (env : Env) (n n₁ : Int) (inner : Env) (es : List Term)
    (s : Subst) (answer : Subst × Env) (n' : Int) : Prop where
  le : n₁ ≤ n'
  tidy : Tidy env n answer.1 n'
  keeps : s.Absorbs answer.1.image
  below : answer.2.Below n'
  free : ∀ v ∈ answer.2.freeVars, Open env n answer.1 n' v
  apart : inner.Apart → answer.2.Apart
  derives : inner.Apart → ∀ f other, answer.1.Absorbs f → inner.AtLeast f other →
    ∃ other', BindAll rules other es other' ∧ answer.2.AtLeast f other'

theorem settles_checkAll (hr : rules.Proper) {es : List Term} (hes : ∀ e ∈ es, Passes rules e)
    (hs : Tidy env n s n₁) (hb : env.Below n) {inner : Env} (hib : inner.Below n₁)
    (hi : ∀ v ∈ inner.freeVars, Open env n s n₁ v) (position : Position) (slot : Nat) :
    Settles (checkAll rules es inner position slot s) n₁
      (PassedAll rules env n n₁ inner es s) := by
  induction es generalizing inner s n₁ slot with
  | nil =>
    rw [checkAll]
    exact leads_pure ⟨Int.le_refl _, hs, hs.solved.absorbs, hib, hi, id,
      fun _ f other _ hle => ⟨other, .nil, hle⟩⟩
  | cons e es ih =>
    rw [checkAll]
    refine (hes e (by simp) inner _ n₁ hib).bind ?_
    rintro ⟨s₁, inner₁⟩ n₂ h₁
    refine (leads_compose_later hs hb hi h₁.tidy).bind ?_
    rintro both _ ⟨rfl, hc, ht⟩
    have hi₁ : ∀ v ∈ inner₁.freeVars, Open env n both _ v :=
      fun v hv => hs.open_later hb hi h₁.tidy hc (h₁.free v hv)
    refine (ih (fun e he => hes e (by simp [he])) ht h₁.below hi₁ _).imp fun answer n' h => ?_
    refine ⟨Int.le_trans h₁.tidy.le h.le, h.tidy, h.keeps.trans hc.earlier, h.below, h.free,
      fun ha => h.apart (h₁.apart ha), fun ha f other hf hle => ?_⟩
    have hle₁ := hle.absorb (ha.clean h₁.tidy hib) ((hf.trans h.keeps).trans hc.later)
    obtain ⟨other₁, hbind, hle₁⟩ := (h₁.derives ha).subst hr hle₁
    obtain ⟨other₂, hrest, hle₂⟩ := h.derives (h₁.apart ha) f other₁ hf hle₁
    exact ⟨other₂, .cons hbind hrest, hle₂⟩

theorem sound_unit (hr : rules.Proper) {statements : List Term}
    (hs : ∀ e ∈ statements, Passes rules e) (l : Option Location) :
    Sound rules (.block statements none l) := by
  intro env position n hb
  rw [infer]
  refine (settles_checkAll hr hs (tidy_empty env n) hb hb
    (fun v hv => open_empty.2 (.inl hv)) _ _).bind ?_
  rintro ⟨s, inner⟩ n₁ h
  refine leads_conclude ⟨h.tidy, by simp [Ty.unit], fun ha f other hf hle => ?_⟩
  obtain ⟨other', hbind, -⟩ := h.derives ha f other hf hle
  exact .unit hbind

theorem sound_block (hr : rules.Proper) {statements : List Term}
    (hs : ∀ e ∈ statements, Passes rules e) {result : Term} (hresult : Sound rules result)
    (l : Option Location) : Sound rules (.block statements (some result) l) := by
  intro env position n hb
  rw [infer]
  refine (settles_checkAll hr hs (tidy_empty env n) hb hb
    (fun v hv => open_empty.2 (.inl hv)) _ _).bind ?_
  rintro ⟨s, inner⟩ n₁ h
  refine (hresult inner _ n₁ h.below).bind ?_
  rintro ⟨s₁, t⟩ n₂ h₁
  refine (leads_compose_later h.tidy hb h.free h₁.tidy).bind ?_
  rintro both _ ⟨rfl, hc, ht⟩
  refine leads_conclude ⟨ht, fun v hv => ?_, fun ha f other hf hle => ?_⟩
  · exact h.tidy.open_later hb h.free h₁.tidy hc (h₁.leaves v hv)
  · obtain ⟨other', hbind, hle'⟩ := h.derives ha f other (hf.trans hc.earlier) hle
    exact .block hbind (h₁.derives (h.apart ha) f other' (hf.trans hc.later) hle')

/-! ## Statements -/

theorem passed_discard {value : Term} (h : Inferred rules env n value (s, t) n')
    (hb : env.Below n) (l : Option Location) :
    Passed rules env n (.discard value l) (s, env.subst s.image) n' :=
  ⟨h.tidy, h.tidy.below hb, fun _ hv => h.tidy.free hv,
    fun _ _ he => Env.exposed_of_subst h.tidy hb he, fun ha => .discard (h.hasType hb ha)⟩

/-- A binding of what was generalized after the substitution. -/
theorem passed_generalize (ht : Tidy env n s n') (hb : env.Below n)
    (hl : ∀ v ∈ t.leaves, Open env n s n' v) (x : String)
    (hd : env.Apart → Binds rules (env.subst s.image) e
      ((env.subst s.image).insert x ((env.subst s.image).generalize t))) :
    Passed rules env n e
      (s, (env.subst s.image).insert x ((env.subst s.image).generalize t)) n' := by
  refine ⟨ht, ?_, fun v hv => ?_, fun v' w he => ?_, hd⟩
  · exact (ht.below hb).generalize x fun v hv => (hl v hv).1.lt hb ht.le
  · rcases Env.mem_freeVars_insert hv with hv | hv
    · exact hl v (Env.mem_freeVars_generalize.1 hv).1
    · exact ht.free hv
  · exact Env.exposed_of_subst ht hb (Env.exposed_of_generalize he)

theorem passes_discard {value : Term} (hvalue : Sound rules value) (l : Option Location) :
    Passes rules (.discard value l) := by
  intro env position n hb
  rw [check]
  refine (hvalue env _ n hb).bind ?_
  rintro ⟨s, t⟩ n₁ h
  refine (returns_note _).bind ((returns_applyEnv h.tidy.solved env).bind ?_)
  exact leads_pure (passed_discard h hb l)

theorem passes_let {value : Term} (hvalue : Sound rules value) (x : String)
    (l : Option Location) : Passes rules (.letBinding x value none l) := by
  intro env position n hb
  rw [check]
  refine (hvalue env _ n hb).bind ?_
  rintro ⟨s, t⟩ n₁ h
  refine (returns_applyEnv h.tidy.solved env).bind ?_
  refine (returns_note _).bind ((returns_note _).bind (leads_pure ?_))
  refine passed_generalize h.tidy hb h.leaves x fun ha => ?_
  exact .letBinding (fun _ => .unit) (h.hasType hb ha) (by simp [TypeExpr.Allows])

theorem passes_ascribed {value : Term} (hvalue : Sound rules value) (x : String)
    (ascription : TypeExpr) (l : Option Location) :
    Passes rules (.letBinding x value (some ascription) l) := by
  intro env position n hb
  rw [check]
  refine (hvalue env _ n hb).bind ?_
  rintro ⟨s, t⟩ n₁ h
  refine (settles_reading fun hm hw => TypeExpr.leads_resolve hm hw ascription _).bind ?_
  rintro declared n₂ ⟨hdrawn, names, hmeans⟩
  have hs := h.tidy.mono hdrawn.le
  have hdeclared : ∀ v ∈ declared.leaves, n₁ ≤ v ∧ v < n₂ := hdrawn.leaves declared (by simp)
  refine (leads_unifyOr fun _ _ => nofun).bind ?_
  rintro s₁ _ ⟨rfl, hu⟩
  refine (leads_compose_unifier hs hu
    (fun v hv => h.tidy.open_fresh hb (hdeclared v hv).1 (hdeclared v hv).2)
    fun v hv => (h.leaves v hv).mono hdrawn.le).bind ?_
  rintro both _ ⟨rfl, hc, ht⟩
  refine (returns_apply (found_of_unify hu).solved t).bind ?_
  refine (returns_applyEnv ht.solved env).bind ?_
  refine (returns_note _).bind ((returns_note _).bind (leads_pure ?_))
  -- the substitution before the unifier has no effect on the value's type
  have heq : t.subst s₁.image = t.subst both.image := by
    rw [hc.subst, Subst.subst_of_not_mem fun v hv => (h.leaves v hv).2]
  rw [heq]
  refine passed_generalize ht hb ?_ x fun ha => ?_
  · exact ht.leaves_subst fun v hv => (h.leaves v hv).1.mono hdrawn.le
  · refine .letBinding (fun a => (names a).subst both.image) (h.derives ha both.image _ hc.earlier
      (Env.atLeast_self (ha.clean ht hb))) ?_
    rintro written hw
    obtain rfl : ascription = written := Option.some.inj hw
    rw [← (absorbs_unifier hu).1 hc.later]
    exact hmeans.subst both.image

/-- The environment of a definition's body has the function's type and the parameters' on top. -/
theorem over_inner (env : Env) (f : String) (params : List Param) (types : List Ty) (t : Ty) :
    Env.Over (.fn types t :: types) env
      (withParams (env.insert f (.mono (.fn types t))) params types) := by
  intro scheme hs
  rcases over_withParams _ params types scheme hs with hs | ⟨u, hu, rfl⟩
  · rcases Table.mem_values_insert hs with rfl | hs
    · exact Or.inr ⟨_, List.mem_cons_self .., rfl⟩
    · exact Or.inl hs
  · exact Or.inr ⟨u, List.mem_cons_of_mem _ hu, rfl⟩

theorem Drawn.inner {types : List Ty} (h : Drawn n n' (types ++ [t])) :
    ∀ u ∈ Ty.fn types t :: types, ∀ v ∈ u.leaves, n ≤ v ∧ v < n' := by
  intro u hu v hv
  rcases List.mem_cons.1 hu with rfl | hu
  · rw [Ty.leaves_fn, List.mem_append, List.mem_flatMap] at hv
    rcases hv with ⟨w, hw, hv⟩ | hv
    · exact h.leaves w (by simp [hw]) v hv
    · exact h.leaves t (by simp) v hv
  · exact h.leaves u (by simp [hu]) v hv

theorem passes_definition {body : Term} (hbody : Sound rules body) (f : String)
    (params : List Param) (returns : Option TypeExpr) (l : Option Location) :
    Passes rules (.definition f params returns body l) := by
  intro env position n hb
  rw [check]
  refine (settles_reading fun hm hw =>
    Param.leads_signature hm hw params returns position).bind ?_
  rintro ⟨types, result⟩ n₁ ⟨hdrawn, names, hallow, hreturns⟩
  have hover := over_inner env f params types result
  have hi : ∀ v ∈ Env.freeVars (withParams (env.insert f (.mono (.fn types result))) params types),
      Reach env n n₁ v := fun v hv => hover.reach hdrawn.inner hv
  refine (returns_noteParams _ _ _ _).bind ?_
  refine (hbody _ _ n₁ (hover.below hdrawn.inner hb hdrawn.le)).bind ?_
  rintro ⟨s, bodyType⟩ n₂ h
  have hs := h.tidy.outer hi hdrawn.le
  have hfinal : ∀ v ∈ (Ty.fn types result).leaves, Reach env n n₂ v := fun v hv =>
    Reach.mono (.inr (hdrawn.inner _ (by simp) v hv)) h.tidy.le
  refine (returns_apply h.tidy.solved result).bind ((leads_unifyOr fun _ _ => ?_).bind ?_)
  · split <;> nofun
  rintro s₁ _ ⟨rfl, hu⟩
  refine (leads_compose_unifier hs hu (hs.leaves_subst fun v hv => hfinal v (by simp [hv]))
    fun v hv => ⟨(h.leaves v hv).1.outer hi hdrawn.le h.tidy.le, (h.leaves v hv).2⟩).bind ?_
  rintro both _ ⟨rfl, hc, ht⟩
  refine (returns_applyEnv ht.solved env).bind ((returns_apply ht.solved _).bind ?_)
  refine (returns_note _).bind ((returns_note _).bind (leads_pure ?_))
  refine passed_generalize ht hb (ht.leaves_subst hfinal) f fun ha => ?_
  have hd := h.derives (ha.of_over hover hdrawn.inner hb) both.image _ hc.earlier
    (rel_inner (Scheme.atLeast_mono both.image) (Env.atLeast_self (ha.clean ht hb)) f params types
      result)
  rw [← (absorbs_unifier hu).1 hc.later, hc.earlier.subst] at hd
  rw [Ty.subst_fn]
  exact .definition _ (hallow.subst both.image) (hreturns.subst both.image) hd

/-! ## All terms -/

theorem sound_stray
    (h : ∀ env position, infer rules e env position = throw (.notExpression e.kind)) :
    Sound rules e := by
  intro env position n _
  rw [h]
  exact leads_throw nofun

theorem passes_stray
    (h : ∀ env position, check rules e env position = throw (.notStatement e.kind)) :
    Passes rules e := by
  intro env position n _
  rw [h]
  exact leads_throw nofun

mutual

/-- Whatever is inferred for an expression can be derived. -/
theorem sound (hr : rules.Proper) (e : Term) : Sound rules e := by
  match e with
  | .number k l => exact sound_number k l
  | .boolean b l => exact sound_boolean b l
  | .name x l => exact sound_name x l
  | .binary left operator right l =>
    exact sound_binary hr (sound hr left) (sound hr right) operator l
  | .call callee arguments l => exact sound_call (sound hr callee) (soundAll hr arguments) l
  | .lambda params body l => exact sound_lambda (sound hr body) params l
  | .block statements none l => exact sound_unit hr (passesAll hr statements) l
  | .block statements (some result) l =>
    exact sound_block hr (passesAll hr statements) (sound hr result) l
  | .conditional condition thenBranch elseBranch l =>
    exact sound_conditional (sound hr condition) (sound hr thenBranch) (sound hr elseBranch) l
  | .letBinding .. | .definition .. | .discard .. | .strayParam _ | .strayType _
  | .strayProgram .. => exact sound_stray fun _ _ => by rw [infer] <;> simp

/-- Whatever is answered for a statement can be derived. -/
theorem passes (hr : rules.Proper) (e : Term) : Passes rules e := by
  match e with
  | .discard value l => exact passes_discard (sound hr value) l
  | .letBinding x value none l => exact passes_let (sound hr value) x l
  | .letBinding x value (some ascription) l =>
    exact passes_ascribed (sound hr value) x ascription l
  | .definition f params returns body l =>
    exact passes_definition (sound hr body) f params returns l
  | .number .. | .boolean .. | .name .. | .binary .. | .call .. | .lambda .. | .block ..
  | .conditional .. | .strayParam _ | .strayType _ | .strayProgram .. =>
    exact passes_stray fun _ _ => by rw [check] <;> simp

theorem soundAll (hr : rules.Proper) (es : List Term) : ∀ e ∈ es, Sound rules e := by
  match es with
  | [] => simp
  | e :: es => exact List.forall_mem_cons.2 ⟨sound hr e, soundAll hr es⟩

theorem passesAll (hr : rules.Proper) (es : List Term) : ∀ e ∈ es, Passes rules e := by
  match es with
  | [] => simp
  | e :: es => exact List.forall_mem_cons.2 ⟨passes hr e, passesAll hr es⟩

end

/-! ## Answers are derivations -/

/-- The type inferred for an expression can be derived in the environment that the answer makes of
the given one, and so can a statement, with just the binding that the rules give it. All variables
of the environment come from before the supply, and no scheme with a free variable binds one that
stands free in the environment. -/
theorem whatever_is_inferred_can_be_derived (extraTypes : List String) (env : Env)
    (position : Position) (start : InferState) (hb : env.Below start.next) (ha : env.Apart) :
    (∀ e s t stop, infer (.standard extraTypes) e env position start = .ok (s, t) stop →
      ∃ env', Env.expand? s env = some env' ∧ HasType (.standard extraTypes) env' e t) ∧
    ∀ e s env' stop, check (.standard extraTypes) e env position start = .ok (s, env') stop →
      ∃ outer, Env.expand? s env = some outer ∧ Binds (.standard extraTypes) outer e env' := by
  have hr := Rules.proper_standard extraTypes
  refine ⟨fun e s t stop h => ?_, fun e s env' stop h => ?_⟩
  · have hi := sound hr e env position _ hb start rfl
    rw [h] at hi
    exact ⟨_, Env.expand?_eq_some hi.tidy.solved env, hi.hasType hb ha⟩
  · have hp := passes hr e env position _ hb start rfl
    rw [h] at hp
    exact ⟨_, Env.expand?_eq_some hp.tidy.solved env, hp.derives ha⟩

/-- A polymorphic identity, and a name whose type is a variable. -/
def identityEnv : Env :=
  ⟨[("id", ⟨[0], .fn [.var 0] (.var 0), by decide⟩), ("y", .mono (.var 1))], by decide⟩

/-- `def first(a : 'a, b) : 'a { id(a) }` -/
def firstDefinition : Term :=
  .definition "first" [⟨"a", some (.quoted "a" none), none⟩, ⟨"b", none, none⟩]
    (some (.quoted "a" none))
    (.block [] (some (.call (.name "id" none) [.name "a" none] none)) none) none

/-- `{ def first(a : 'a, b) : 'a { id(a) } first(first(y, 1), first) }` -/
def firstBlock : Term :=
  .block [firstDefinition] (some (.call (.name "first" none)
    [.call (.name "first" none) [.name "y" none, .number 1 none] none, .name "first" none]
    none)) none

theorem below_identityEnv : identityEnv.Below 2 := by
  intro scheme hs
  simp only [identityEnv, Table.values, List.map_cons, List.map_nil, List.mem_cons,
    List.not_mem_nil, or_false] at hs
  rcases hs with rfl | rfl
  · simp [Scheme.mem_freeVars]
  · simp [Scheme.mono, Scheme.mem_freeVars]

theorem apart_identityEnv : identityEnv.Apart := by
  rintro v w ⟨scheme, hs, hv, hq, -⟩
  simp only [identityEnv, Table.values, List.map_cons, List.map_nil, List.mem_cons,
    List.not_mem_nil, or_false] at hs
  rcases hs with rfl | rfl
  · obtain ⟨hl, hn⟩ := Scheme.mem_freeVars.1 hv
    simp_all
  · cases hq

/-- A definition that is used at two types, and a variable of the environment in the answer. -/
theorem whatever_is_inferred_can_be_derived_of_two_instances :
    identityEnv.Below 2 ∧ identityEnv.Apart ∧
    (∃ s stop env', infer (.standard []) firstBlock identityEnv [] (.start 2) =
        .ok (s, .var 1) stop ∧
      Env.expand? s identityEnv = some env' ∧ HasType (.standard []) env' firstBlock (.var 1)) ∧
    ∃ s env' stop outer, check (.standard []) firstDefinition identityEnv [] (.start 2) =
        .ok (s, env') stop ∧
      Env.expand? s identityEnv = some outer ∧
      Binds (.standard []) outer firstDefinition env' := by
  obtain ⟨hexpression, hstatement⟩ := whatever_is_inferred_can_be_derived [] identityEnv []
    (.start 2) below_identityEnv apart_identityEnv
  refine ⟨below_identityEnv, apart_identityEnv, ?_, ?_⟩
  · have ht : (answer? (infer (.standard []) firstBlock identityEnv [] (.start 2))).map (·.2) =
        some (.var 1) := by cbv
    obtain ⟨⟨s, t⟩, hrun, rfl⟩ := Option.map_eq_some_iff.1 ht
    obtain ⟨stop, hrun⟩ := exists_of_answer? hrun
    obtain ⟨env', he, hd⟩ := hexpression _ _ _ _ hrun
    exact ⟨s, stop, env', hrun, he, hd⟩
  · have ht : (answer? (check (.standard []) firstDefinition identityEnv [] (.start 2))).map
        (·.2.keys) = some ["id", "y", "first"] := by cbv
    obtain ⟨⟨s, env'⟩, hrun, -⟩ := Option.map_eq_some_iff.1 ht
    obtain ⟨stop, hrun⟩ := exists_of_answer? hrun
    obtain ⟨outer, he, hd⟩ := hstatement _ _ _ _ hrun
    exact ⟨s, env', stop, outer, hrun, he, hd⟩

/-! ## Captured variables -/

/-- The scheme of `x` binds a variable that stands free in the type of `y`. -/
def exposedEnv : Env :=
  ⟨[("x", ⟨[0], .fn [.var 0] (.var 1), by decide⟩), ("y", .mono (.var 0)), ("z", .mono (.var 1))],
    by decide⟩

/-- `{ x(1) == z; z == y; x }` -/
def capturingBlock : Term :=
  .block
    [.discard (.binary (.call (.name "x" none) [.number 1 none] none) "==" (.name "z" none) none)
      none,
     .discard (.binary (.name "z" none) "==" (.name "y" none) none) none]
    (some (.name "x" none)) none

/-- The environment that the answer makes, with the variable captured by the scheme of `x`. -/
def capturedEnv : Env :=
  ⟨[("x", ⟨[0], .fn [.var 0] (.var 0), by decide⟩), ("y", .mono (.var 0)), ("z", .mono (.var 0))],
    by decide⟩

/-- The environment that the answer should make, with the variable free in the scheme of `x`. -/
def renamedEnv : Env :=
  ⟨[("x", ⟨[2], .fn [.var 2] (.var 0), by decide⟩), ("y", .mono (.var 0)), ("z", .mono (.var 0))],
    by decide⟩

theorem hasType_name {x : String} {l : Option Location} {scheme : Scheme}
    (h : HasType rules env (.name x l) t) (hget : env.get? x = some scheme) :
    scheme.Instance t := by
  cases h with
  | name hget' hi =>
    rw [hget] at hget'
    cases hget'
    exact hi

theorem hasType_equality {left right : Term} {l : Option Location}
    (h : HasType (.standard []) env (.binary left "==" right l) t) :
    ∃ u, HasType (.standard []) env left u ∧ HasType (.standard []) env right u := by
  cases h with
  | binary hop hi hl hr =>
    obtain rfl := Option.some.inj ((rfl : some Rules.equality = _).trans hop)
    obtain ⟨rfl, -⟩ := Rules.instance_equality.1 hi
    exact ⟨_, hl, hr⟩

/-- In the environment that the answer makes, the block has no type. -/
theorem not_hasType_capturedEnv : ¬ HasType (.standard []) capturedEnv capturingBlock t := by
  intro h
  cases h with
  | block hs _ =>
    cases hs with
    | cons hb _ =>
      cases hb with
      | discard he =>
        obtain ⟨u, hcall, hz⟩ := hasType_equality he
        obtain rfl : u = .var 0 := by simpa using hasType_name hz rfl
        cases hcall with
        | call hx ha =>
          obtain ⟨g, -, heq⟩ := hasType_name hx rfl
          cases ha with
          | cons hn ha =>
            cases hn
            cases ha
            simp only [Ty.subst_fn, List.map_cons, List.map_nil, Ty.subst_var, Ty.fn.injEq,
              List.cons.injEq, and_true] at heq
            exact absurd (heq.1.trans heq.2.symm) (by simp [Ty.number])

/-- In the environment that the answer should make, the block has not the type of the answer. -/
theorem not_hasType_renamedEnv :
    ¬ HasType (.standard []) renamedEnv capturingBlock (.fn [.var 7] (.var 7)) := by
  intro h
  cases h with
  | block hs hx =>
    cases hs with
    | cons h₁ hs =>
      cases hs with
      | cons h₂ hs =>
        cases h₁
        cases h₂
        cases hs
        obtain ⟨g, hg, heq⟩ := hasType_name hx rfl
        simp [hg 0] at heq

/-- A scheme may capture a variable that stands free elsewhere, and the answer is then derived
neither with the variable captured nor without. -/
theorem a_captured_variable_spoils_the_answer :
    exposedEnv.Below 2 ∧
    ∃ s stop, infer (.standard []) capturingBlock exposedEnv [] (.start 2) =
        .ok (s, .fn [.var 7] (.var 7)) stop ∧
      Env.expand? s exposedEnv = some capturedEnv ∧
      ¬ HasType (.standard []) capturedEnv capturingBlock (.fn [.var 7] (.var 7)) ∧
      ¬ HasType (.standard []) renamedEnv capturingBlock (.fn [.var 7] (.var 7)) := by
  refine ⟨fun scheme hs => ?_, ?_⟩
  · simp only [exposedEnv, Table.values, List.map_cons, List.map_nil, List.mem_cons,
      List.not_mem_nil, or_false] at hs
    rcases hs with rfl | rfl | rfl <;> simp [Scheme.mono, Scheme.mem_freeVars]
  · have ht : (answer? (infer (.standard []) capturingBlock exposedEnv [] (.start 2))).map
        (fun a => (a.2, Env.expand? a.1 exposedEnv)) =
        some (.fn [.var 7] (.var 7), some capturedEnv) := by cbv
    obtain ⟨⟨s, t⟩, hrun, heq⟩ := Option.map_eq_some_iff.1 ht
    obtain ⟨rfl, he⟩ := Prod.mk.inj heq
    obtain ⟨stop, hrun⟩ := exists_of_answer? hrun
    exact ⟨s, stop, hrun, he, not_hasType_capturedEnv, not_hasType_renamedEnv⟩

end LetPoly.Infer
