-- What watched runs keep. Every environment that is met has free variables from before
-- the supply, every substitution that is composed with an earlier one speaks of none of
-- the variables that the earlier one replaces, and no substitution leads into a cycle.
-- In an environment whose schemes bind none of its free variables, this stays so, and no
-- variable is ever captured.
import LetPoly.Proofs.InferenceSound
import LetPoly.Proofs.WatchedRuns

namespace LetPoly

/-! ## Environments that inference is ready for -/

namespace Env

/-- No scheme binds a variable that stands free in the environment. -/
def Separate (env : Env) : Prop := ∀ scheme ∈ env.values, ∀ v ∈ scheme.quantified, v ∉ env.freeVars

/-- The free variables come from before the supply. A strict reading also asks that all bound
variables come from before the supply and that none of them stands free. -/
structure Ready (strict : Prop) (env : Env) (n : Int) : Prop where
  free : env.FreeBelow n
  strictly : strict → env.Below n ∧ env.Separate

variable {strict : Prop} {env inner : Env} {n n' : Int} {s : Subst}

theorem Below.ready (h : env.Below n) : env.Ready False n :=
  ⟨h.freeBelow, False.elim⟩

theorem Below.ready_of_separate (h : env.Below n) (hs : env.Separate) : env.Ready True n :=
  ⟨h.freeBelow, fun _ => ⟨h, hs⟩⟩

theorem Separate.apart (h : env.Separate) : env.Apart :=
  fun _ w ⟨scheme, hs, _, hq, hw⟩ => h scheme hs w hq hw

theorem Separate.subst (h : env.Separate) (hb : env.Below n) (hs : Tidy env n s n') :
    (env.subst s.image).Separate := by
  intro scheme hmem v hv hfree
  obtain ⟨old, ho, rfl⟩ := values_subst hmem
  exact h old ho v hv ((hs.free hfree).1.free ((hb old ho).2 v hv))

theorem Separate.of_over {types : List Ty} (h : env.Separate) (hb : env.Below n)
    (ho : Over types env inner) (ht : ∀ t ∈ types, ∀ v ∈ t.leaves, n ≤ v ∧ v < n') :
    inner.Separate := by
  intro scheme hmem v hv hfree
  rcases ho scheme hmem with hmem | ⟨t, -, rfl⟩
  · exact h scheme hmem v hv ((ho.reach ht hfree).free ((hb scheme hmem).2 v hv))
  · cases hv

theorem mem_freeVars_insert_generalize {x : String} {t : Ty} {v : Int}
    (h : v ∈ Env.freeVars (env.insert x (env.generalize t))) : v ∈ env.freeVars := by
  rcases mem_freeVars_insert h with h | h
  · exact (mem_freeVars_generalize.1 h).2
  · exact h

theorem Separate.generalize (h : env.Separate) (x : String) (t : Ty) :
    Separate (env.insert x (env.generalize t)) := by
  intro scheme hmem v hv hfree
  have hfree := mem_freeVars_insert_generalize hfree
  rcases Table.mem_values_insert hmem with rfl | hmem
  · exact (mem_quantified_generalize.1 hv).2 hfree
  · exact h scheme hmem v hv hfree

namespace Ready

theorem clean (h : env.Ready strict n) (hs : Tidy env n s n') (hstrict : strict) :
    env.Clean s.image :=
  (h.strictly hstrict).2.apart.clean hs (h.strictly hstrict).1

theorem subst (h : env.Ready strict n) (hs : Tidy env n s n') :
    (env.subst s.image).Ready strict n' := by
  refine ⟨fun v hv => (hs.free hv).1.lt_of_free h.free hs.le, fun hstrict => ?_⟩
  obtain ⟨hb, hsep⟩ := h.strictly hstrict
  exact ⟨hs.below hb, hsep.subst hb hs⟩

theorem of_over (h : env.Ready strict n) {types : List Ty} (ho : Over types env inner)
    (ht : ∀ t ∈ types, ∀ v ∈ t.leaves, n ≤ v ∧ v < n') (hn : n ≤ n') : inner.Ready strict n' := by
  refine ⟨fun v hv => (ho.reach ht hv).lt_of_free h.free hn, fun hstrict => ?_⟩
  obtain ⟨hb, hsep⟩ := h.strictly hstrict
  exact ⟨ho.below ht hb hn, hsep.of_over hb ho ht⟩

theorem generalize (h : env.Ready strict n) (x : String) {t : Ty} (ht : ∀ v ∈ t.leaves, v < n) :
    Ready strict (env.insert x (env.generalize t)) n := by
  refine ⟨fun v hv => h.free v (mem_freeVars_insert_generalize hv), fun hstrict => ?_⟩
  obtain ⟨hb, hsep⟩ := h.strictly hstrict
  exact ⟨hb.generalize x ht, hsep.generalize x t⟩

end Ready

/-- Whatever name is looked up, its scheme is instantiated with fresh variables. -/
theorem exists_instantiated {x : String} {scheme : Scheme} (hget : env.get? x = some scheme)
    (n : Int) :
    ∃ t, (scheme.freshen n).expand? scheme.body = some t ∧
      ∀ v ∈ t.leaves, Reach env n (n + scheme.quantified.length) v := by
  obtain ⟨t, he, ht⟩ := scheme.exists_expand?_freshen n
  refine ⟨t, he, fun v hv => (ht v hv).imp_left fun hv => ?_⟩
  exact mem_freeVars.2 ⟨scheme, Table.mem_values_of_get? hget, hv⟩

end Env

/-! ## Actions in order -/

/-- What is done is in order: what is applied is there, and a substitution is composed with one
that replaces none of its variables. A strict reading also asks that no environment is met in which
a scheme binds a free variable, and that no variable is captured. -/
def Action.Orderly (strict : Prop) : Action → Prop
  | met env => strict → env.Separate
  | applied s types => ∃ us, s.expandAll? types = some us
  | appliedEnv s env => s.Solved ∧ (strict → env.Clean s.image)
  | composed later earlier => later.Solved ∧ earlier.Solved ∧ later.LeavesAlone earlier
  | unified _ _ => True

namespace Watched

variable {α β : Type} {strict : Prop} {x : Watched α} {k : α → Watched β} {n n' : Int}
  {P P' : α → Int → Prop} {Q : β → Int → Prop} {action : Action}

/-- From a state with the given next variable, after actions in order, a watched step leads to an
answer as the condition says or to a failure that is no cycle, and all its actions are in order. -/
def Keeps (strict : Prop) (x : Watched α) (n : Int) (P : α → Int → Prop) : Prop :=
  ∀ w, w.state.next = n → (∀ a ∈ w.actions, a.Orderly strict) → match x w with
    | .ok a w' => (∀ a ∈ w'.actions, a.Orderly strict) ∧ P a w'.state.next
    | .error e w' => (∀ a ∈ w'.actions, a.Orderly strict) ∧ e ≠ .cyclic

theorem keeps_pure {a : α} (h : P a n) : Keeps strict (pure a) n P := by
  rintro w rfl hw
  exact ⟨hw, h⟩

theorem Keeps.imp (hx : Keeps strict x n P) (hP : ∀ a n', P a n' → P' a n') :
    Keeps strict x n P' := by
  intro w hn hw
  have h := hx w hn hw
  rcases hrun : x w with ⟨a, w'⟩ | ⟨e, w'⟩
  · rw [hrun] at h
    exact ⟨h.1, hP a _ h.2⟩
  · rw [hrun] at h
    exact h

theorem Keeps.bind (hx : Keeps strict x n P) (hk : ∀ a n', P a n' → Keeps strict (k a) n' Q) :
    Keeps strict (x >>= k) n Q := by
  intro w hn hw
  have h := hx w hn hw
  rcases hrun : x w with ⟨a, w'⟩ | ⟨e, w'⟩
  · rw [hrun] at h
    rw [bind_of_ok hrun]
    exact hk a _ h.2 w' rfl h.1
  · rw [hrun] at h
    rw [bind_of_error hrun]
    exact h

theorem Keeps.act (hx : Keeps strict x n P) (ha : action.Orderly strict) :
    Keeps strict (do act action; x) n P := by
  intro w hn hw
  refine hx { w with actions := w.actions ++ [action] } hn ?_
  exact List.forall_mem_append.2 ⟨hw, List.forall_mem_singleton.2 ha⟩

theorem keeps_unseen {y : Infer α} (h : Infer.Settles y n P) : Keeps strict (unseen y) n P := by
  intro w hn hw
  have hy := h w.state hn
  unfold unseen
  rcases hrun : y w.state with ⟨a, s⟩ | ⟨e, s⟩
  · rw [hrun] at hy
    exact ⟨hw, hy⟩
  · rw [hrun] at hy
    exact ⟨hw, hy⟩

theorem keeps_doing {y : Infer α} (ha : action.Orderly strict) (h : Infer.Settles y n P) :
    Keeps strict (doing action y) n P :=
  (keeps_unseen h).act ha

/-- All that a watched step did is in order, whether it came to an answer or failed. -/
theorem Keeps.orderly (h : Keeps strict x n P) (start : InferState) (hn : start.next = n) :
    ∀ a ∈ actions (x ⟨start, []⟩), a.Orderly strict := by
  have hrun := h ⟨start, []⟩ hn nofun
  rcases hx : x ⟨start, []⟩ with ⟨a, w⟩ | ⟨e, w⟩
  · rw [hx] at hrun
    exact hrun.1
  · rw [hx] at hrun
    exact hrun.1

/-- What a watched step keeps, the step of inference that it shows settles. -/
theorem Keeps.settles {y : Infer α} (h : Keeps strict x n P) (hshows : Shows x y) :
    Infer.Settles y n P := by
  intro s hs
  have hrun := h ⟨s, []⟩ hs nofun
  have heq := hshows ⟨s, []⟩
  rcases hx : x ⟨s, []⟩ with ⟨a, w⟩ | ⟨e, w⟩
  · rw [hx] at hrun heq
    rw [← show _ = y s from heq]
    exact hrun.2
  · rw [hx] at hrun heq
    rw [← show _ = y s from heq]
    exact hrun.2

/-! ## The small steps -/

section

variable {a : α} {y : Infer α}

theorem bind_unseen (hy : Returns InferState.next y n a n') (hk : Keeps strict (k a) n' Q) :
    Keeps strict (unseen y >>= k) n Q := by
  refine (keeps_unseen (hy.leads (P := fun b m => b = a ∧ m = n') ⟨rfl, rfl⟩)).bind ?_
  rintro _ _ ⟨rfl, rfl⟩
  exact hk

theorem bind_doing (ha : action.Orderly strict) (hy : Returns InferState.next y n a n')
    (hk : Keeps strict (k a) n' Q) : Keeps strict (doing action y >>= k) n Q := by
  refine (keeps_doing ha (hy.leads (P := fun b m => b = a ∧ m = n') ⟨rfl, rfl⟩)).bind ?_
  rintro _ _ ⟨rfl, rfl⟩
  exact hk

end

theorem bind_apply {k : Ty → Watched β} {s : Subst} (h : s.Solved) (t : Ty)
    (hk : Keeps strict (k (t.subst s.image)) n Q) : Keeps strict (apply s t >>= k) n Q :=
  bind_doing ⟨_, h.expandAll? [t]⟩ (Infer.returns_apply h t) hk

theorem bind_applyAll {k : List Ty → Watched β} {s : Subst} (h : s.Solved) (ts : List Ty)
    (hk : Keeps strict (k (ts.map (Ty.subst s.image))) n Q) :
    Keeps strict (applyAll s ts >>= k) n Q :=
  bind_doing ⟨_, h.expandAll? ts⟩ (Infer.returns_applyAll h ts) hk

theorem bind_applyEnv {k : Env → Watched β} {env : Env} {m n₁ : Int} {s : Subst}
    (hr : env.Ready strict m) (hs : Tidy env m s n₁)
    (hk : Keeps strict (k (env.subst s.image)) n Q) : Keeps strict (applyEnv s env >>= k) n Q :=
  bind_doing ⟨hs.solved, hr.clean hs⟩ (Infer.returns_applyEnv hs.solved env) hk

theorem keeps_conclude {site : Site} {s : Subst} {t : Ty} {P : Subst × Ty → Int → Prop}
    (h : P (s, t) n) : Keeps strict (unseen (Infer.conclude site s t)) n P :=
  keeps_unseen (Infer.leads_conclude h)

theorem keeps_unifyOr {expected actual : Ty} {blame : Clash → InferFailure}
    (herr : ∀ clash, blame clash ≠ .cyclic) :
    Keeps strict (unifyOr expected actual blame) n
      fun s m => m = n ∧ unify expected actual = .ok s :=
  keeps_doing trivial (Infer.leads_unifyOr fun clash _ => herr clash)

theorem keeps_unifyAt (expected actual : Ty) (site : Site) :
    Keeps strict (unifyAt expected actual site) n
      fun s m => m = n ∧ unify expected actual = .ok s :=
  keeps_doing trivial (Infer.leads_unifyOr fun _ _ => nofun)

theorem keeps_instantiate {scheme : Scheme} {t : Ty}
    (h : (scheme.freshen n).expand? scheme.body = some t) :
    Keeps strict (instantiate scheme) n
      fun u m => u = t ∧ m = n + scheme.quantified.length := by
  rintro w rfl hw
  have hdone : (Action.applied (scheme.freshen w.state.next) [scheme.body]).Orderly strict := by
    refine ⟨[t], ?_⟩
    rw [Subst.expandAll?, Ty.substAll?, Ty.substAll?, show scheme.body.subst? _ = some t from h]
    rfl
  have hsettles : Infer.Settles (Infer.instantiate scheme) w.state.next
      fun u m => u = t ∧ m = w.state.next + scheme.quantified.length :=
    (Infer.returns_instantiate_of h).leads ⟨rfl, rfl⟩
  have hrun : instantiate scheme w = doing (.applied (scheme.freshen w.state.next) [scheme.body])
      (Infer.instantiate scheme) w := rfl
  rw [hrun]
  exact keeps_doing hdone hsettles w rfl hw

theorem keeps_compose {env : Env} {m n₁ n₂ : Int} {s s₁ : Subst} (h : Tidy env m s n₁)
    (hn : n₁ ≤ n₂) (hs : s₁.Solved) (hm : ∀ v ∈ s₁.mentioned, Open env m s n₂ v) :
    Keeps strict (compose s₁ s) n
      fun both n' => n' = n ∧ Subst.Composed s₁ s both ∧ Tidy env m both n₂ :=
  keeps_doing ⟨hs, h.solved, fun v hv => (hm v hv).2⟩ (Infer.leads_compose h hn hs hm)

/-- The unifier of types whose variables are open is composed with the substitution before it. -/
theorem keeps_compose_unifier {env : Env} {m : Int} {s s₁ : Subst} (h : Tidy env m s n) {a b : Ty}
    (hu : unify a b = .ok s₁) (ha : ∀ v ∈ a.leaves, Open env m s n v)
    (hb : ∀ v ∈ b.leaves, Open env m s n v) :
    Keeps strict (compose s₁ s) n
      fun both n' => n' = n ∧ Subst.Composed s₁ s both ∧ Tidy env m both n :=
  keeps_compose h (Int.le_refl n) (found_of_unify hu).solved fun v hv =>
    (mem_of_unify hu hv).elim (ha v) (hb v)

/-- What is answered in an environment of open variables is composed with the substitution before
it. -/
theorem keeps_compose_later {env inner : Env} {m n₁ n₂ : Int} {s s₁ : Subst} (h : Tidy env m s n₁)
    (hf : env.FreeBelow m) (hi : ∀ v ∈ inner.freeVars, Open env m s n₁ v)
    (h₁ : Tidy inner n₁ s₁ n₂) :
    Keeps strict (compose s₁ s) n
      fun both n' => n' = n ∧ Subst.Composed s₁ s both ∧ Tidy env m both n₂ :=
  keeps_compose h h₁.le h₁.solved fun v hv => h.open_reached hf hi h₁.le (h₁.reach v hv)

/-! ## Answers -/

/-- An answer for an expression speaks of variables in reach only, and its substitution leaves the
variables of its type alone. -/
structure Answered (env : Env) (n : Int) (answer : Subst × Ty) (n' : Int) : Prop where
  tidy : Tidy env n answer.1 n'
  leaves : ∀ v ∈ answer.2.leaves, Open env n answer.1 n' v

/-- An answer for a statement speaks of variables in reach only, and what follows is ready, with no
more free variables than the substitution leaves. -/
structure Bound (strict : Prop) (env : Env) (n : Int) (answer : Subst × Env) (n' : Int) : Prop where
  tidy : Tidy env n answer.1 n'
  ready : answer.2.Ready strict n'
  free : ∀ v ∈ answer.2.freeVars, v ∈ (env.subst answer.1.image).freeVars

/-- In an environment that is ready, a watched run for an expression keeps all in order. -/
def KeepsInfer (strict : Prop) (rules : Rules) (e : Term) : Prop :=
  ∀ (env : Env) (position : Position) (n : Int), env.Ready strict n →
    Keeps strict (infer rules e env position) n (Answered env n)

/-- In an environment that is ready, a watched check of a statement keeps all in order. -/
def KeepsCheck (strict : Prop) (rules : Rules) (e : Term) : Prop :=
  ∀ (env : Env) (position : Position) (n : Int), env.Ready strict n →
    Keeps strict (check rules e env position) n (Bound strict env n)

variable {rules : Rules} {env : Env} {e : Term} {s s₁ both : Subst} {t : Ty} {n₁ : Int}

theorem orderly_met (hr : env.Ready strict n) : (Action.met env).Orderly strict :=
  fun hstrict => (hr.strictly hstrict).2

theorem answered_empty (hn : n ≤ n') (hl : ∀ v ∈ t.leaves, Reach env n n' v) :
    Answered env n (Subst.empty, t) n' :=
  ⟨(tidy_empty env n).mono hn, fun v hv => open_empty.2 (hl v hv)⟩

/-- An answer under a substitution that was there before, composed with it. -/
theorem Answered.after {inner : Env} (h : Answered inner n₁ (s₁, t) n') (hs : Tidy env n s n₁)
    (hf : env.FreeBelow n) (hi : ∀ v ∈ inner.freeVars, Open env n s n₁ v)
    (hc : Subst.Composed s₁ s both) (ht : Tidy env n both n') : Answered env n (both, t) n' :=
  ⟨ht, fun v hv => (hs.open_reached hf hi h.tidy.le (h.leaves v hv).1).composed hc
    (h.leaves v hv).2⟩

theorem Answered.outer {inner : Env} (h : Answered inner n₁ (s, t) n')
    (hi : ∀ v ∈ inner.freeVars, Reach env n n₁ v) (hn : n ≤ n₁) : Answered env n (s, t) n' :=
  ⟨h.tidy.outer hi hn, fun v hv => ⟨(h.leaves v hv).1.outer hi hn h.tidy.le, (h.leaves v hv).2⟩⟩

theorem Bound.open {answer : Subst × Env} (h : Bound strict env n answer n') :
    ∀ v ∈ answer.2.freeVars, Open env n answer.1 n' v :=
  fun v hv => h.tidy.free (h.free v hv)

/-- A binding of what was generalized after the substitution. -/
theorem bound_generalize (ht : Tidy env n s n') (hr : env.Ready strict n)
    (hl : ∀ v ∈ t.leaves, Open env n s n' v) (x : String) :
    Bound strict env n
      (s, (env.subst s.image).insert x ((env.subst s.image).generalize t)) n' := by
  refine ⟨ht, (hr.subst ht).generalize x fun v hv => ?_, fun v hv => ?_⟩
  · exact (hl v hv).1.lt_of_free hr.free ht.le
  · exact Env.mem_freeVars_insert_generalize hv

/-! ## Expressions -/

theorem keeps_literal (hinfer : ∀ env position, infer rules e env position =
      doing (.met env) (Infer.infer rules e env position))
    (hsettles : ∀ env position n, Infer.Settles (Infer.infer rules e env position) n
      (Answered env n)) : KeepsInfer strict rules e := by
  intro env position n hr
  rw [hinfer]
  exact keeps_doing (orderly_met hr) (hsettles env position n)

theorem keeps_number (k : Int) (l : Option Location) : KeepsInfer strict rules (.number k l) := by
  refine keeps_literal (fun _ _ => by rw [infer] <;> simp) fun env position n => ?_
  rw [Infer.infer]
  exact Infer.leads_conclude (answered_empty (Int.le_refl n) (by simp [Ty.number]))

theorem keeps_boolean (b : Bool) (l : Option Location) :
    KeepsInfer strict rules (.boolean b l) := by
  refine keeps_literal (fun _ _ => by rw [infer] <;> simp) fun env position n => ?_
  rw [Infer.infer]
  exact Infer.leads_conclude (answered_empty (Int.le_refl n) (by simp [Ty.bool]))

theorem keeps_name (x : String) (l : Option Location) : KeepsInfer strict rules (.name x l) := by
  intro env position n hr
  rw [infer]
  refine Keeps.act ?_ (orderly_met hr)
  rcases hget : env.get? x with _ | scheme
  · exact keeps_unseen (leads_throw nofun)
  · obtain ⟨t, he, hl⟩ := Env.exists_instantiated hget n
    refine (keeps_instantiate he).bind ?_
    rintro _ _ ⟨rfl, rfl⟩
    exact keeps_conclude (answered_empty (by omega) hl)

theorem keeps_argument (he : KeepsInfer strict rules e) (hs : Tidy env n s n₁)
    (hr : env.Ready strict n) {param : Ty} (hp : ∀ v ∈ param.leaves, Reach env n n₁ v)
    (position : Position) (site : Site) :
    Keeps strict (argument (fun env => infer rules e env position) site param s env) n₁
      fun s' n' => n₁ ≤ n' ∧ Tidy env n s' n' := by
  unfold argument
  refine bind_applyEnv hr hs ((he _ position n₁ (hr.subst hs)).bind ?_)
  rintro ⟨s₁, t⟩ n₂ h₁
  refine (keeps_compose_later hs hr.free (fun v hv => hs.free hv) h₁.tidy).bind ?_
  rintro s₂ _ ⟨rfl, hc, ht⟩
  have h := h₁.after hs hr.free (fun v hv => hs.free hv) hc ht
  refine bind_apply ht.solved param ((keeps_unifyAt _ _ _).bind ?_)
  rintro s₃ _ ⟨rfl, hu⟩
  have hparam := ht.leaves_subst fun v hv => (hp v hv).mono h₁.tidy.le
  refine (keeps_compose_unifier ht hu hparam h.leaves).imp ?_
  rintro s' _ ⟨rfl, -, ht'⟩
  exact ⟨h₁.tidy.le, ht'⟩

theorem keeps_inferAll {es : List Term} (hes : ∀ e ∈ es, KeepsInfer strict rules e)
    {params : List Ty} (hs : Tidy env n s n₁) (hr : env.Ready strict n)
    (hp : ∀ param ∈ params, ∀ v ∈ param.leaves, Reach env n n₁ v) (position : Position)
    (slot : Nat) :
    Keeps strict (inferAll rules es params s env position slot) n₁
      fun s' n' => n₁ ≤ n' ∧ Tidy env n s' n' := by
  induction es generalizing params s n₁ slot with
  | nil =>
    rw [inferAll]
    exact keeps_pure ⟨Int.le_refl _, hs⟩
  | cons e es ih =>
    cases params with
    | nil =>
      rw [inferAll]
      exact keeps_pure ⟨Int.le_refl _, hs⟩
    | cons param params =>
      rw [inferAll]
      refine (keeps_argument (hes e (by simp)) hs hr (hp param (by simp)) _ _).bind ?_
      rintro s₁ n₂ ⟨hle, hs₁⟩
      refine (ih (fun e he => hes e (by simp [he])) hs₁
        (fun q hq v hv => (hp q (by simp [hq]) v hv).mono hle) _).imp ?_
      rintro s' n' ⟨hle', hs'⟩
      exact ⟨Int.le_trans hle hle', hs'⟩

theorem keeps_binary (hrules : rules.Proper) {left right : Term}
    (hleft : KeepsInfer strict rules left) (hright : KeepsInfer strict rules right)
    (operator : String) (l : Option Location) :
    KeepsInfer strict rules (.binary left operator right l) := by
  intro env position n hr
  rw [infer]
  refine Keeps.act ?_ (orderly_met hr)
  rcases hop : rules.operators.get? operator with _ | scheme
  · exact keeps_unseen (leads_throw nofun)
  · obtain ⟨a, b, t, heq, -, hleaves⟩ := Infer.exists_operator hrules hop n
    obtain ⟨-, -, hone⟩ := hrules operator scheme hop
    have hdirect : (scheme.freshen n).Direct :=
      Scheme.direct_freshen (hone.imp_left fun h => by simp [h])
    have hopened := hdirect.expand? scheme.body
    refine (keeps_instantiate (hopened.trans (congrArg some heq))).bind ?_
    rintro _ _ ⟨rfl, rfl⟩
    have hreach : ∀ u ∈ [a, b, t], ∀ v ∈ u.leaves, Reach env n (n + scheme.quantified.length) v :=
      fun u hu v hv => .inr (hleaves u hu v hv)
    have hs : Tidy env n Subst.empty (n + scheme.quantified.length) :=
      (tidy_empty env n).mono (by omega)
    refine (keeps_argument hleft hs hr (hreach a (by simp)) _ _).bind ?_
    rintro s₁ n₁ ⟨hle₁, h₁⟩
    refine (keeps_argument hright h₁ hr (fun v hv => ?_) _ _).bind ?_
    · exact (hreach b (by simp) v hv).mono hle₁
    rintro s₂ n₂ ⟨hle₂, h₂⟩
    refine bind_apply h₂.solved t (keeps_conclude ⟨h₂, h₂.leaves_subst fun v hv => ?_⟩)
    exact (hreach t (by simp) v hv).mono (Int.le_trans hle₁ hle₂)

theorem keeps_call {callee : Term} (hcallee : KeepsInfer strict rules callee)
    {arguments : List Term} (harguments : ∀ e ∈ arguments, KeepsInfer strict rules e)
    (l : Option Location) : KeepsInfer strict rules (.call callee arguments l) := by
  intro env position n hr
  rw [infer]
  refine Keeps.act ((hcallee env _ n hr).bind ?_) (orderly_met hr)
  rintro ⟨s₁, calleeType⟩ n₁ h₁
  refine bind_unseen (Infer.returns_freshMany _) (bind_unseen Infer.returns_fresh ?_)
  have hs : Tidy env n s₁ (n₁ + arguments.length + 1) := h₁.tidy.mono (by omega)
  refine (keeps_unifyAt _ _ _).bind ?_
  rintro s₂ _ ⟨rfl, hu⟩
  refine (keeps_compose_unifier hs hu (fun v hv => (h₁.leaves v hv).mono (by omega)) fun v hv =>
    h₁.tidy.open_drawn hr.free (Infer.leaves_freshFn hv).1 (Infer.leaves_freshFn hv).2).bind ?_
  rintro s _ ⟨rfl, -, ht⟩
  have hreach : ∀ v, n₁ ≤ v ∧ v < n₁ + arguments.length + 1 →
      Reach env n (n₁ + arguments.length + 1) v :=
    fun v hv => .inr ⟨Int.le_trans h₁.tidy.le hv.1, hv.2⟩
  refine (keeps_inferAll harguments ht hr (fun t ht v hv => ?_) _ _).bind ?_
  · have := Infer.leaves_freshVars ht v hv
    exact hreach v (by omega)
  rintro s' n' ⟨hle, h⟩
  refine bind_apply h.solved _ (keeps_conclude ⟨h, h.leaves_subst fun v hv => ?_⟩)
  obtain rfl : v = n₁ + arguments.length := by simpa using hv
  exact (hreach _ (by omega)).mono hle

theorem keeps_lambda {body : Term} (hbody : KeepsInfer strict rules body) (params : List Param)
    (l : Option Location) : KeepsInfer strict rules (.lambda params body l) := by
  intro env position n hr
  rw [infer]
  refine Keeps.act ((keeps_unseen (Infer.settles_reading fun hm hw =>
    Param.leads_resolveAll hm hw params position 0)).bind ?_) (orderly_met hr)
  rintro types n₁ ⟨hdrawn, -⟩
  have hover := Infer.over_withParams env params types
  refine bind_unseen (Infer.returns_noteParams _ _ _ _) ?_
  refine (hbody _ _ n₁ (hr.of_over hover hdrawn.leaves hdrawn.le)).bind ?_
  rintro ⟨s, t⟩ n₂ h
  have hout := h.outer (fun v hv => hover.reach hdrawn.leaves hv) hdrawn.le
  refine bind_applyAll h.tidy.solved types (keeps_conclude ⟨hout.tidy, fun v hv => ?_⟩)
  rw [Ty.leaves_fn, List.mem_append, List.mem_flatMap] at hv
  rcases hv with ⟨u, hu, hv⟩ | hv
  · obtain ⟨u, hmem, rfl⟩ := List.mem_map.1 hu
    exact hout.tidy.leaves_subst
      (fun w hw => Reach.mono (.inr (hdrawn.leaves u hmem w hw)) h.tidy.le) v hv
  · exact hout.leaves v hv

theorem keeps_conditional {condition thenBranch elseBranch : Term}
    (hcond : KeepsInfer strict rules condition) (hthen : KeepsInfer strict rules thenBranch)
    (helse : KeepsInfer strict rules elseBranch) (l : Option Location) :
    KeepsInfer strict rules (.conditional condition thenBranch elseBranch l) := by
  intro env position n hr
  rw [infer]
  refine Keeps.act ((hcond env _ n hr).bind ?_) (orderly_met hr)
  rintro ⟨s₁, conditionType⟩ n₁ h₁
  refine (keeps_unifyAt _ _ _).bind ?_
  rintro s₂ _ ⟨rfl, hu₂⟩
  refine (keeps_compose_unifier h₁.tidy hu₂ open_bool h₁.leaves).bind ?_
  rintro s _ ⟨rfl, -, ht⟩
  refine bind_applyEnv hr ht ((hthen _ _ _ (hr.subst ht)).bind ?_)
  rintro ⟨s₃, thenType⟩ n₂ h₃
  refine (keeps_compose_later ht hr.free (fun v hv => ht.free hv) h₃.tidy).bind ?_
  rintro s' _ ⟨rfl, hc', ht'⟩
  have h₂ := h₃.after ht hr.free (fun v hv => ht.free hv) hc' ht'
  refine bind_applyEnv hr ht' ((helse _ _ _ (hr.subst ht')).bind ?_)
  rintro ⟨s₄, elseType⟩ n₃ h₄
  refine (keeps_compose_later ht' hr.free (fun v hv => ht'.free hv) h₄.tidy).bind ?_
  rintro s'' _ ⟨rfl, hc'', ht''⟩
  have h₅ := h₄.after ht' hr.free (fun v hv => ht'.free hv) hc'' ht''
  have hl := ht''.leaves_subst fun v hv => (h₂.leaves v hv).1.mono h₄.tidy.le
  refine bind_apply ht''.solved thenType ((keeps_unifyOr fun _ => ?_).bind ?_)
  · nofun
  rintro s₆ _ ⟨rfl, hu₆⟩
  refine (keeps_compose_unifier ht'' hu₆ hl h₅.leaves).bind ?_
  rintro r _ ⟨rfl, -, htr⟩
  refine bind_apply htr.solved _ (keeps_conclude ⟨htr, htr.leaves_subst fun v hv => ?_⟩)
  exact (hl v hv).1

/-! ## Blocks -/

/-- What is answered for statements that follow others: what `Bound` says of one, seen from the
environment before all of them. -/
structure BoundAll (strict : Prop) (env : Env) (n n₁ : Int) (answer : Subst × Env) (n' : Int) :
    Prop where
  le : n₁ ≤ n'
  tidy : Tidy env n answer.1 n'
  ready : answer.2.Ready strict n'
  open_ : ∀ v ∈ answer.2.freeVars, Open env n answer.1 n' v

theorem keeps_checkAll {es : List Term} (hes : ∀ e ∈ es, KeepsCheck strict rules e)
    (hs : Tidy env n s n₁) (hf : env.FreeBelow n) {inner : Env} (hr : inner.Ready strict n₁)
    (hi : ∀ v ∈ inner.freeVars, Open env n s n₁ v) (position : Position) (slot : Nat) :
    Keeps strict (checkAll rules es inner position slot s) n₁ (BoundAll strict env n n₁) := by
  induction es generalizing inner s n₁ slot with
  | nil =>
    rw [checkAll]
    exact keeps_pure ⟨Int.le_refl _, hs, hr, hi⟩
  | cons e es ih =>
    rw [checkAll]
    refine (hes e (by simp) inner _ n₁ hr).bind ?_
    rintro ⟨s₁, inner₁⟩ n₂ h₁
    refine (keeps_compose_later hs hf hi h₁.tidy).bind ?_
    rintro both _ ⟨rfl, hc, ht⟩
    have hi₁ : ∀ v ∈ inner₁.freeVars, Open env n both _ v := fun v hv =>
      (hs.open_reached hf hi h₁.tidy.le (h₁.open v hv).1).composed hc (h₁.open v hv).2
    refine (ih (fun e he => hes e (by simp [he])) ht h₁.ready hi₁ _).imp fun answer n' h => ?_
    exact ⟨Int.le_trans h₁.tidy.le h.le, h.tidy, h.ready, h.open_⟩

theorem keeps_statements {es : List Term} (hes : ∀ e ∈ es, KeepsCheck strict rules e)
    (hr : env.Ready strict n) (position : Position) :
    Keeps strict (checkAll rules es env position 0 Subst.empty) n (BoundAll strict env n n) :=
  keeps_checkAll hes (tidy_empty env n) hr.free hr (fun _ hv => open_empty.2 (.inl hv)) position 0

theorem keeps_unit {statements : List Term} (hs : ∀ e ∈ statements, KeepsCheck strict rules e)
    (l : Option Location) : KeepsInfer strict rules (.block statements none l) := by
  intro env position n hr
  rw [infer]
  refine Keeps.act ((keeps_statements hs hr position).bind ?_) (orderly_met hr)
  rintro ⟨s, inner⟩ n₁ h
  exact keeps_conclude ⟨h.tidy, by simp [Ty.unit]⟩

theorem keeps_block {statements : List Term} (hs : ∀ e ∈ statements, KeepsCheck strict rules e)
    {result : Term} (hresult : KeepsInfer strict rules result) (l : Option Location) :
    KeepsInfer strict rules (.block statements (some result) l) := by
  intro env position n hr
  rw [infer]
  refine Keeps.act ((keeps_statements hs hr position).bind ?_) (orderly_met hr)
  rintro ⟨s, inner⟩ n₁ h
  refine (hresult inner _ n₁ h.ready).bind ?_
  rintro ⟨s₁, t⟩ n₂ h₁
  refine (keeps_compose_later h.tidy hr.free h.open_ h₁.tidy).bind ?_
  rintro both _ ⟨rfl, hc, ht⟩
  exact keeps_conclude (h₁.after h.tidy hr.free h.open_ hc ht)

/-! ## Statements -/

/-- What a binding does last. -/
theorem keeps_binding {site : Site} {word : Keyword} {x : String} {scheme : Scheme} {inner : Env}
    (h : Bound strict env n₁ (s, inner) n) :
    Keeps strict (do
      unseen (Infer.note (.typed site t))
      unseen (Infer.note (.bound word x scheme))
      pure (s, inner)) n (Bound strict env n₁) :=
  bind_unseen (Infer.returns_note _) (bind_unseen (Infer.returns_note _) (keeps_pure h))

theorem keeps_discard {value : Term} (hvalue : KeepsInfer strict rules value)
    (l : Option Location) : KeepsCheck strict rules (.discard value l) := by
  intro env position n hr
  rw [check]
  refine Keeps.act ((hvalue env _ n hr).bind ?_) (orderly_met hr)
  rintro ⟨s, t⟩ n₁ h
  refine bind_unseen (Infer.returns_note _) (bind_applyEnv hr h.tidy (keeps_pure ?_))
  exact ⟨h.tidy, hr.subst h.tidy, fun _ hv => hv⟩

theorem keeps_let {value : Term} (hvalue : KeepsInfer strict rules value) (x : String)
    (l : Option Location) : KeepsCheck strict rules (.letBinding x value none l) := by
  intro env position n hr
  rw [check]
  refine Keeps.act ((hvalue env _ n hr).bind ?_) (orderly_met hr)
  rintro ⟨s, t⟩ n₁ h
  exact bind_applyEnv hr h.tidy (keeps_binding (bound_generalize h.tidy hr h.leaves x))

theorem keeps_ascribed {value : Term} (hvalue : KeepsInfer strict rules value) (x : String)
    (ascription : TypeExpr) (l : Option Location) :
    KeepsCheck strict rules (.letBinding x value (some ascription) l) := by
  intro env position n hr
  rw [check]
  refine Keeps.act ((hvalue env _ n hr).bind ?_) (orderly_met hr)
  rintro ⟨s, t⟩ n₁ h
  refine (keeps_unseen (Infer.settles_reading fun hm hw =>
    TypeExpr.leads_resolve hm hw ascription _)).bind ?_
  rintro declared n₂ ⟨hdrawn, -⟩
  have hs := h.tidy.mono hdrawn.le
  have hdeclared : ∀ v ∈ declared.leaves, n₁ ≤ v ∧ v < n₂ := hdrawn.leaves declared (by simp)
  refine (keeps_unifyAt _ _ _).bind ?_
  rintro s₁ _ ⟨rfl, hu⟩
  refine (keeps_compose_unifier hs hu
    (fun v hv => h.tidy.open_drawn hr.free (hdeclared v hv).1 (hdeclared v hv).2)
    fun v hv => (h.leaves v hv).mono hdrawn.le).bind ?_
  rintro both _ ⟨rfl, hc, ht⟩
  refine bind_apply (found_of_unify hu).solved t (bind_applyEnv hr ht ?_)
  -- the substitution before the unifier has no effect on the value's type
  have heq : t.subst s₁.image = t.subst both.image := by
    rw [hc.subst, Subst.subst_of_not_mem fun v hv => (h.leaves v hv).2]
  rw [heq]
  refine keeps_binding (bound_generalize ht hr (ht.leaves_subst fun v hv => ?_) x)
  exact (h.leaves v hv).1.mono hdrawn.le

theorem keeps_definition {body : Term} (hbody : KeepsInfer strict rules body) (f : String)
    (params : List Param) (returns : Option TypeExpr) (l : Option Location) :
    KeepsCheck strict rules (.definition f params returns body l) := by
  intro env position n hr
  rw [check]
  refine Keeps.act ((keeps_unseen (Infer.settles_reading fun hm hw =>
    Param.leads_signature hm hw params returns position)).bind ?_) (orderly_met hr)
  rintro ⟨types, result⟩ n₁ ⟨hdrawn, -⟩
  have hover := Infer.over_inner env f params types result
  refine bind_unseen (Infer.returns_noteParams _ _ _ _) ?_
  refine (hbody _ _ n₁ (hr.of_over hover hdrawn.inner hdrawn.le)).bind ?_
  rintro ⟨s, bodyType⟩ n₂ h
  have hout := h.outer (fun v hv => hover.reach hdrawn.inner hv) hdrawn.le
  have hs := hout.tidy
  have hfinal : ∀ v ∈ (Ty.fn types result).leaves, Reach env n n₂ v := fun v hv =>
    Reach.mono (.inr (hdrawn.inner _ (by simp) v hv)) h.tidy.le
  refine bind_apply h.tidy.solved result ((keeps_unifyOr fun _ => ?_).bind ?_)
  · cases Infer.resultSite? _ body ((params.length + 1) :: position) <;> simp
  rintro s₁ _ ⟨rfl, hu⟩
  refine (keeps_compose_unifier hs hu (hs.leaves_subst fun v hv => hfinal v (by simp [hv]))
    hout.leaves).bind ?_
  rintro both _ ⟨rfl, hc, ht⟩
  refine bind_applyEnv hr ht (bind_apply ht.solved _ ?_)
  exact keeps_binding (bound_generalize ht hr (ht.leaves_subst hfinal) f)

/-! ## All terms -/

theorem keeps_stray (h : ∀ env position, infer rules e env position =
      doing (.met env) (throw (.notExpression e.kind))) : KeepsInfer strict rules e := by
  intro env position n hr
  rw [h]
  exact keeps_doing (orderly_met hr) (leads_throw nofun)

theorem keeps_uncheckable (h : ∀ env position, check rules e env position =
      doing (.met env) (throw (.notStatement e.kind))) : KeepsCheck strict rules e := by
  intro env position n hr
  rw [h]
  exact keeps_doing (orderly_met hr) (leads_throw nofun)

mutual

/-- Whatever is done for an expression is in order. -/
theorem keeps_infer (strict : Prop) (hrules : rules.Proper) (e : Term) :
    KeepsInfer strict rules e := by
  match e with
  | .number k l => exact keeps_number k l
  | .boolean b l => exact keeps_boolean b l
  | .name x l => exact keeps_name x l
  | .binary left operator right l =>
    exact keeps_binary hrules (keeps_infer strict hrules left) (keeps_infer strict hrules right)
      operator l
  | .call callee arguments l =>
    exact keeps_call (keeps_infer strict hrules callee) (keeps_inferEach strict hrules arguments) l
  | .lambda params body l => exact keeps_lambda (keeps_infer strict hrules body) params l
  | .block statements none l => exact keeps_unit (keeps_checkEach strict hrules statements) l
  | .block statements (some result) l =>
    exact keeps_block (keeps_checkEach strict hrules statements)
      (keeps_infer strict hrules result) l
  | .conditional condition thenBranch elseBranch l =>
    exact keeps_conditional (keeps_infer strict hrules condition)
      (keeps_infer strict hrules thenBranch) (keeps_infer strict hrules elseBranch) l
  | .letBinding .. | .definition .. | .discard .. | .strayParam _ | .strayType _
  | .strayProgram .. => exact keeps_stray fun _ _ => by rw [infer, Infer.infer] <;> simp

/-- Whatever is done for a statement is in order. -/
theorem keeps_check (strict : Prop) (hrules : rules.Proper) (e : Term) :
    KeepsCheck strict rules e := by
  match e with
  | .discard value l => exact keeps_discard (keeps_infer strict hrules value) l
  | .letBinding x value none l => exact keeps_let (keeps_infer strict hrules value) x l
  | .letBinding x value (some ascription) l =>
    exact keeps_ascribed (keeps_infer strict hrules value) x ascription l
  | .definition f params returns body l =>
    exact keeps_definition (keeps_infer strict hrules body) f params returns l
  | .number .. | .boolean .. | .name .. | .binary .. | .call .. | .lambda .. | .block ..
  | .conditional .. | .strayParam _ | .strayType _ | .strayProgram .. =>
    exact keeps_uncheckable fun _ _ => by rw [check, Infer.check] <;> simp

theorem keeps_inferEach (strict : Prop) (hrules : rules.Proper) (es : List Term) :
    ∀ e ∈ es, KeepsInfer strict rules e := by
  match es with
  | [] => simp
  | e :: es =>
    exact List.forall_mem_cons.2
      ⟨keeps_infer strict hrules e, keeps_inferEach strict hrules es⟩

theorem keeps_checkEach (strict : Prop) (hrules : rules.Proper) (es : List Term) :
    ∀ e ∈ es, KeepsCheck strict rules e := by
  match es with
  | [] => simp
  | e :: es =>
    exact List.forall_mem_cons.2
      ⟨keeps_check strict hrules e, keeps_checkEach strict hrules es⟩

end

end Watched

end LetPoly
