-- The laws of the types that inference puts on record. They fit together once the
-- substitution of the whole answer is applied to them, and stay so under every
-- replacement that spares the variables that inference has done with.
import LetPoly.Proofs.ConsistentTypes
import LetPoly.Proofs.RecordedNodes
import LetPoly.Proofs.SparedVariables

namespace LetPoly

namespace Infer

/-! ## What answers put on record -/

section

variable {n : Int} {r : List (Site × Ty)}

theorem returns_typed (site : Site) (t : Ty) :
    Returns InferState.trace (note (.typed site t)) (n, r) () (n, r ++ [(site, t)]) := by
  intro s hs
  obtain ⟨rfl, rfl⟩ := Prod.mk.inj hs
  exact ⟨_, rfl, Prod.ext rfl (types_noteAll [.typed site t] s)⟩

/-- The entries of the parameters in the slots from `slot` on. -/
def paramEntries (position : Position) : Nat → List Param → List Ty → List (Site × Ty)
  | slot, p :: params, t :: types =>
    (p.site (slot :: position), t) :: paramEntries position (slot + 1) params types
  | _, _, _ => []

theorem returns_paramEntries (position : Position) (slot : Nat) (params : List Param)
    (types : List Ty) :
    Returns InferState.trace (noteParams position slot params types) (n, r) ()
      (n, r ++ paramEntries position slot params types) := by
  induction params generalizing slot types r with
  | nil => exact fun s hs => ⟨s, rfl, by simpa [paramEntries] using hs⟩
  | cons p params ih =>
    cases types with
    | nil => exact fun s hs => ⟨s, rfl, by simpa [paramEntries] using hs⟩
    | cons t types =>
      intro s hs
      obtain ⟨s₁, he, hs₁⟩ := returns_typed (p.site (slot :: position)) t s hs
      obtain ⟨s₂, he', hs₂⟩ := ih (slot + 1) types s₁ hs₁
      refine ⟨s₂, ?_, by simpa [paramEntries] using hs₂⟩
      rw [noteParams, bind_of_ok he, he']

end

section

variable {T : Position → Option Ty} {f : Int → Ty} {position : Position}

theorem haveParams_of_holds {slot : Nat} {params : List Param} {types : List Ty}
    (hlen : params.length = types.length)
    (h : Holds T f (paramEntries position slot params types)) :
    HaveParams T position slot params (types.map (Ty.subst f)) := by
  induction params generalizing slot types with
  | nil =>
    obtain rfl := List.eq_nil_of_length_eq_zero hlen.symm
    trivial
  | cons p params ih =>
    obtain ⟨t, types, rfl⟩ := List.exists_cons_of_length_eq_add_one hlen.symm
    obtain ⟨ht, hmore⟩ := List.forall_mem_cons.1 h
    exact ⟨ht, ih (Nat.succ.inj hlen) hmore⟩

theorem refers_withParams {env : Env} {binders : Table String Binder} {slot : Nat}
    {params : List Param} {types : List Ty} (hlen : params.length = types.length)
    (h : env.Refers T f binders) (hholds : Holds T f (paramEntries position slot params types)) :
    (withParams env params types).Refers T f (withBinders position slot params binders) := by
  induction params generalizing env binders slot types with
  | nil =>
    obtain rfl := List.eq_nil_of_length_eq_zero hlen.symm
    exact h
  | cons p params ih =>
    obtain ⟨t, types, rfl⟩ := List.exists_cons_of_length_eq_add_one hlen.symm
    obtain ⟨ht, hmore⟩ := List.forall_mem_cons.1 hholds
    exact ih (Nat.succ.inj hlen) (h.insert_fixed p.name ht) hmore

end

/-- What an answer for an expression put on record fits together, through every replacement that
spares the variables it has done with. -/
def Tabled (rules : Rules) (env : Env) (n : Int) (position : Position) (e : Term)
    (answer : Subst × Ty) (n' : Int) (news : List (Site × Ty)) : Prop :=
  ∀ f T binders,
    Spares env n answer.1 n' (fun v => v ∈ env.freeVars ∨ v ∈ answer.2.leaves) f →
    env.Refers T f binders → Holds T f news →
    Consistent rules T binders position e (answer.2.subst f)

/-- What an answer for a statement put on record fits together, and its environment goes with the
binders that follow. -/
structure TabledStatement (rules : Rules) (env : Env) (n : Int) (position : Position) (e : Term)
    (answer : Subst × Env) (n' : Int) (news : List (Site × Ty)) : Prop where
  free : ∀ v ∈ answer.2.freeVars, Left answer.1 (· ∈ env.freeVars) v
  fits : ∀ f T binders, Spares env n answer.1 n' (· ∈ env.freeVars) f →
    env.Refers T f binders → Holds T f news →
    ∃ binders', ConsistentStatement rules T binders position e binders' ∧
      answer.2.Refers T f binders'

/-- Every answer for an expression puts on record what fits together. -/
def Tables (rules : Rules) (e : Term) : Prop :=
  ∀ env position n r, env.Below n → env.Apart →
    Leads InferState.trace (infer rules e env position) (n, r)
      (fun answer m => ∃ news, m.2 = r ++ news ∧ Tabled rules env n position e answer m.1 news)
      fun _ => True

/-- Every answer for a statement puts on record what fits together. -/
def TablesStatement (rules : Rules) (e : Term) : Prop :=
  ∀ env position n r, env.Below n → env.Apart →
    Leads InferState.trace (check rules e env position) (n, r)
      (fun answer m => ∃ news, m.2 = r ++ news ∧
        TabledStatement rules env n position e answer m.1 news)
      fun _ => True

section

variable {rules : Rules} {env : Env} {n n₁ n' : Int} {e : Term} {s s₁ both : Subst} {t : Ty}
  {r : List (Site × Ty)}

theorem Tables.leads (h : Tables rules e) (hr : rules.Proper) (hb : env.Below n) (ha : env.Apart)
    (position : Position) (r : List (Site × Ty)) :
    Leads InferState.trace (infer rules e env position) (n, r)
      (fun answer m => Inferred rules env n e answer m.1 ∧
        ∃ news, m.2 = r ++ news ∧ Tabled rules env n position e answer m.1 news)
      fun _ => True :=
  (leads_trace (sound hr e env position n hb).anyway r).and (h env position n r hb ha)

theorem TablesStatement.leads (h : TablesStatement rules e) (hr : rules.Proper) (hb : env.Below n)
    (ha : env.Apart) (position : Position) (r : List (Site × Ty)) :
    Leads InferState.trace (check rules e env position) (n, r)
      (fun answer m => Passed rules env n e answer m.1 ∧
        ∃ news, m.2 = r ++ news ∧ TabledStatement rules env n position e answer m.1 news)
      fun _ => True :=
  (leads_trace (passes hr e env position n hb).anyway r).and (h env position n r hb ha)

theorem leads_tabled {position : Position} {site : Site} {r' news : List (Site × Ty)}
    {E : InferFailure → Prop} (hr : r' = r ++ news)
    (h : Tabled rules env n position e (s, t) n' (news ++ [(site, t)])) :
    Leads InferState.trace (conclude site s t) (n', r')
      (fun answer m => ∃ news, m.2 = r ++ news ∧ Tabled rules env n position e answer m.1 news) E :=
  (returns_typed site t).bind (leads_pure ⟨_, by rw [hr, List.append_assoc], h⟩)

/-! ## Expressions -/

theorem tables_number (k : Int) (l : Option Location) : Tables rules (.number k l) := by
  intro env position n r hb ha
  rw [infer]
  refine leads_tabled (List.append_nil r).symm fun f T binders _ _ hholds => ?_
  exact .number (holds_single.1 hholds)

theorem tables_boolean (b : Bool) (l : Option Location) : Tables rules (.boolean b l) := by
  intro env position n r hb ha
  rw [infer]
  refine leads_tabled (List.append_nil r).symm fun f T binders _ _ hholds => ?_
  exact .boolean (holds_single.1 hholds)

theorem tables_name (x : String) (l : Option Location) : Tables rules (.name x l) := by
  intro env position n r hb ha
  rw [infer]
  rcases hget : env.get? x with _ | scheme
  · exact leads_throw trivial
  · have hmem := Table.mem_values_of_get? hget
    refine ((quiet_instantiate scheme).returns (returns_instantiate (Or.inl (hb scheme hmem).2))
      r).bind (leads_tabled (List.append_nil r).symm fun f T binders _ hrefers hholds => ?_)
    obtain ⟨b, hget', hb⟩ := Table.Rel.get?_left hrefers hget
    exact .name (holds_single.1 hholds) hget' (hb _ ((scheme.instance_opened n).subst f))

/-- What is answered for arguments: what it is about, and that what it put on record fits together
with the types of the parameters. -/
structure TabledArguments (rules : Rules) (env : Env) (n n₁ : Int) (position : Position)
    (slot : Nat) (es : List Term) (params : List Ty) (used : Int → Prop) (s s' : Subst) (n' : Int)
    (news : List (Site × Ty)) : Prop where
  le : n₁ ≤ n'
  tidy : Tidy env n s' n'
  before : ∀ f, Spares env n s' n' used f → Spares env n s n₁ used f
  fits : ∀ f T binders, Spares env n s' n' used f → env.Refers T f binders → Holds T f news →
    ConsistentAll rules T binders position slot es (params.map (Ty.subst f))

theorem leads_tabledArgument (hr : rules.Proper) (he : Tables rules e) (hs : Tidy env n s n₁)
    (hb : env.Below n) (ha : env.Apart) {used : Int → Prop} (henv : ∀ v ∈ env.freeVars, used v)
    (hused : ∀ v, used v → v < n₁) {param : Ty}
    (hp : ∀ v ∈ param.leaves, Reach env n n₁ v ∧ used v) (position : Position) (slot : Nat)
    (site : Site) (r : List (Site × Ty)) :
    Leads InferState.trace
      (argument (fun env => infer rules e env (slot :: position)) site param s env) (n₁, r)
      (fun s' m => ∃ news, m.2 = r ++ news ∧
        TabledArguments rules env n n₁ position slot [e] [param] used s s' m.1 news)
      fun _ => True := by
  unfold argument
  have hclean := ha.clean hs hb
  refine ((quiet_orCyclic _).returns (returns_applyEnv hs.solved env) r).bind ?_
  refine (he.leads hr (hs.below hb) (ha.subst hs hb) _ r).bind ?_
  rintro ⟨s₁, t⟩ ⟨n₂, _⟩ ⟨h₁, news, rfl, htable⟩
  refine ((quiet_orCyclic _).leads
    (leads_compose_later hs hb (fun v hv => hs.free hv) h₁.tidy) _).bind ?_
  rintro s₂ ⟨n₂, _⟩ ⟨⟨rfl, hc, ht⟩, rfl⟩
  have h := h₁.after hs hb hc ht
  have hparam := ht.leaves_subst fun v hv => (hp v hv).1.mono h₁.tidy.le
  refine ((quiet_orCyclic _).returns (returns_apply ht.solved param) _).bind ?_
  refine ((quiet_unifyOr _ _ _).leads (leads_unifyOr fun _ _ => trivial) _).bind ?_
  rintro s₃ ⟨n₂, _⟩ ⟨⟨rfl, hu⟩, rfl⟩
  refine ((quiet_orCyclic _).leads (leads_compose_unifier ht hu hparam h.leaves) _).imp ?_
  rintro s' ⟨n₂, _⟩ ⟨⟨rfl, hc', ht'⟩, rfl⟩
  have hsplit : ∀ f, Spares env n s' n₂ used f → Spares env n s n₁ used f ∧
      Spares (env.subst s.image) n₁ s₁ n₂
        (fun v => v ∈ (env.subst s.image).freeVars ∨ v ∈ t.leaves) f := by
    intro f hf
    have hf₂ : Spares env n s₂ n₂ (fun v => used v ∨ v ∈ t.leaves) f := by
      refine (hf.mono fun v _ hv => hv.mono fun _ => Or.inl).before (Int.le_refl _) hc' ht' ?_
      intro v hv _
      rcases mem_of_unify hu hv with hv | hv
      · exact left_subst (fun u hu => Or.inl (hp u hu).2) hv
      · exact left_of_not_mem (Or.inr hv) (h.leaves v hv).2
    exact hf₂.split hs hb (fun v hv => ⟨hs.free hv, left_free henv hv⟩) h₁.tidy hc ht hused
      h₁.leaves
  refine ⟨news, rfl, h₁.tidy.le, ht', fun f hf => (hsplit f hf).1, ?_⟩
  intro f T binders hf hrefers hholds
  have hfs := hf.absorbs.trans (hc'.earlier.trans hc.earlier)
  have hd := htable f T binders (hsplit f hf).2 (hrefers.absorb hclean hfs) hholds
  have heq : param.subst f = t.subst f := by
    rw [← (hf.absorbs.trans hc'.earlier).subst param]
    exact (absorbs_unifier hu).1 (hf.absorbs.trans hc'.later)
  rw [List.map_cons, List.map_nil, heq]
  exact .cons hd .nil

theorem leads_tabledArguments (hr : rules.Proper) {es : List Term} (hes : ∀ e ∈ es, Tables rules e)
    {params : List Ty} (hlen : params.length = es.length) (hs : Tidy env n s n₁)
    (hb : env.Below n) (ha : env.Apart) (used : Int → Prop) (henv : ∀ v ∈ env.freeVars, used v)
    (hused : ∀ v, used v → v < n₁)
    (hp : ∀ param ∈ params, ∀ v ∈ param.leaves, Reach env n n₁ v ∧ used v) (position : Position)
    (slot : Nat) (r : List (Site × Ty)) :
    Leads InferState.trace (inferAll rules es params s env position slot) (n₁, r)
      (fun s' m => ∃ news, m.2 = r ++ news ∧
        TabledArguments rules env n n₁ position slot es params used s s' m.1 news)
      fun _ => True := by
  induction es generalizing params s n₁ slot r with
  | nil =>
    obtain rfl := List.eq_nil_of_length_eq_zero hlen
    rw [inferAll]
    · exact leads_pure ⟨[], by simp, Int.le_refl _, hs, fun _ hf => hf, fun _ _ _ _ _ _ => .nil⟩
    · simp
  | cons e es ih =>
    obtain ⟨param, params, rfl⟩ := List.exists_cons_of_length_eq_add_one hlen
    rw [inferAll]
    refine (leads_tabledArgument hr (hes e (by simp)) hs hb ha henv hused (hp param (by simp)) _ _ _
      r).bind ?_
    rintro s₁ ⟨n₂, _⟩ ⟨news, rfl, h₁⟩
    have hle : n₁ ≤ n₂ := h₁.le
    refine (ih (fun e he => hes e (by simp [he])) (by simpa using hlen) h₁.tidy
      (fun v hv => by have := hused v hv; omega)
      (fun q hq v hv => ⟨(hp q (by simp [hq]) v hv).1.mono hle, (hp q (by simp [hq]) v hv).2⟩)
      _ _).imp ?_
    rintro s' ⟨n', _⟩ ⟨news', rfl, h⟩
    refine ⟨news ++ news', by simp, Int.le_trans h₁.le h.le, h.tidy,
      fun f hf => h₁.before f (h.before f hf), fun f T binders hf hrefers hholds => ?_⟩
    obtain ⟨hholds, hholds'⟩ := holds_append.1 hholds
    cases h₁.fits f T binders (h.before f hf) hrefers hholds with
    | cons hd _ => exact .cons hd (h.fits f T binders hf hrefers hholds')

theorem tables_binary (hr : rules.Proper) {left right : Term} (hleft : Tables rules left)
    (hright : Tables rules right) (operator : String) (l : Option Location) :
    Tables rules (.binary left operator right l) := by
  intro env position n r hb ha
  rw [infer]
  rcases hop : rules.operators.get? operator with _ | scheme
  · exact leads_throw trivial
  obtain ⟨a, b, t, heq, hreturns, hleaves⟩ := exists_operator hr hop n
  refine ((quiet_instantiate scheme).returns hreturns r).bind ?_
  generalize hn₁ : n + (scheme.quantified.length : Int) = n₁ at hleaves ⊢
  have hs : Tidy env n Subst.empty n₁ := (tidy_empty env n).mono (by omega)
  have hreach : ∀ u ∈ [a, b, t], ∀ v ∈ u.leaves, Reach env n n₁ v :=
    fun u hu v hv => Or.inr (hleaves u hu v hv)
  have hused : ∀ v, Reach env n n₁ v → v < n₁ := fun v hv => hv.lt hb (by omega)
  refine (leads_tabledArgument hr hleft hs hb ha (fun v hv => Or.inl hv) hused
    (fun v hv => ⟨hreach a (by simp) v hv, hreach a (by simp) v hv⟩) _ _ _ r).bind ?_
  rintro s₁ ⟨n₂, _⟩ ⟨news, rfl, h₁⟩
  have hle : n₁ ≤ n₂ := h₁.le
  refine (leads_tabledArgument hr hright h₁.tidy hb ha (fun v hv => Or.inl hv)
    (fun v hv => by have := hused v hv; omega)
    (fun v hv => ⟨(hreach b (by simp) v hv).mono hle, hreach b (by simp) v hv⟩) _ _ _ _).bind ?_
  rintro s₂ ⟨n₃, _⟩ ⟨news', rfl, h₂⟩
  refine ((quiet_orCyclic _).returns (returns_apply h₂.tidy.solved t) _).bind ?_
  refine leads_tabled (List.append_assoc ..) fun f T binders hf hrefers hholds => ?_
  obtain ⟨hholds, hown⟩ := holds_append.1 hholds
  obtain ⟨hholds, hholds'⟩ := holds_append.1 hholds
  have hf₂ : Spares env n s₂ n₃ (Reach env n n₁) f :=
    hf.mono fun v _ hv =>
      hv.resolve h₂.tidy.solved (fun _ hu => Or.inl hu) (hreach t (by simp))
  have hi := hr.instance_subst hop f (scheme.instance_opened n)
  rw [heq, Ty.subst_fn] at hi
  rw [holds_single, hf.absorbs.subst t] at hown
  rw [hf.absorbs.subst t]
  cases h₁.fits f T binders (h₂.before f hf₂) hrefers hholds with
  | cons hl _ =>
    cases h₂.fits f T binders hf₂ hrefers hholds' with
    | cons hr _ => exact .binary hown hop hi hl hr

theorem tables_call (hr : rules.Proper) {callee : Term} (hcallee : Tables rules callee)
    {arguments : List Term} (harguments : ∀ e ∈ arguments, Tables rules e) (l : Option Location) :
    Tables rules (.call callee arguments l) := by
  intro env position n r hb ha
  rw [infer]
  refine (hcallee.leads hr hb ha _ r).bind ?_
  rintro ⟨s₁, calleeType⟩ ⟨n₁, _⟩ ⟨h₁, news, rfl, htable⟩
  refine ((quiet_freshMany _).returns (returns_freshMany _) _).bind ?_
  refine (quiet_fresh.returns returns_fresh _).bind ?_
  have hs : Tidy env n s₁ (n₁ + arguments.length + 1) := h₁.tidy.mono (by omega)
  refine ((quiet_unifyOr _ _ _).leads (leads_unifyOr fun _ _ => trivial) _).bind ?_
  rintro s₂ ⟨_, _⟩ ⟨⟨rfl, hu⟩, rfl⟩
  refine ((quiet_orCyclic _).leads (leads_compose_unifier hs hu
    (fun v hv => (h₁.leaves v hv).mono (by omega)) fun v hv =>
      h₁.tidy.open_fresh hb (leaves_freshFn hv).1 (leaves_freshFn hv).2) _).bind ?_
  rintro s ⟨_, _⟩ ⟨⟨rfl, hc, ht⟩, rfl⟩
  generalize hn₂ : n₁ + (arguments.length : Int) + 1 = n₂ at hs ht ⊢
  -- in use are the callee's type, the parameters and the result
  let used : Int → Prop := fun v => (v ∈ env.freeVars ∨ v ∈ calleeType.leaves) ∨ n₁ ≤ v ∧ v < n₂
  have hdrawn : ∀ v, n₁ ≤ v ∧ v < n₂ → Reach env n n₂ v ∧ used v :=
    fun v hv => ⟨Or.inr ⟨Int.le_trans h₁.tidy.le hv.1, hv.2⟩, Or.inr hv⟩
  have hused : ∀ v, used v → v < n₂ := by
    rintro v ((hv | hv) | hv)
    · exact (Reach.lt (.inl hv) hb hs.le)
    · exact ((h₁.leaves v hv).1.mono (by omega)).lt hb hs.le
    · exact hv.2
  refine (leads_tabledArguments hr harguments (length_freshVars _ _) ht hb ha used
    (fun v hv => Or.inl (Or.inl hv)) hused (fun t ht v hv => hdrawn v ?_) _ _ _).bind ?_
  · have := leaves_freshVars ht v hv
    omega
  rintro s' ⟨n', _⟩ ⟨news', rfl, h⟩
  refine ((quiet_orCyclic _).returns (returns_apply h.tidy.solved _) _).bind ?_
  refine leads_tabled (List.append_assoc ..) fun f T binders hf hrefers hholds => ?_
  obtain ⟨hholds, hown⟩ := holds_append.1 hholds
  obtain ⟨hholds, hholds'⟩ := holds_append.1 hholds
  have hf' : Spares env n s' n' used f := by
    refine hf.mono fun v _ hv => hv.resolve h.tidy.solved (fun _ hu => Or.inl (Or.inl hu)) ?_
    intro u hu
    obtain rfl : u = n₁ + arguments.length := by simpa using hu
    exact (hdrawn _ (by omega)).2
  have hf₁ : Spares env n s₁ n₁ (fun v => v ∈ env.freeVars ∨ v ∈ calleeType.leaves) f := by
    refine ((h.before f hf').before (by omega) hc ht fun v hv hlt => ?_).mono ?_
    · rcases mem_of_unify hu hv with hv | hv
      · exact left_of_not_mem (Or.inl (Or.inr hv)) (h₁.leaves v hv).2
      · have := leaves_freshFn hv
        omega
    · rintro v hlt ⟨u, hu | hu, hv⟩
      · exact ⟨u, hu, hv⟩
      · have hopen := h₁.tidy.open_fresh hb hu.1 hu.2
        rw [Subst.image_of_not_mem hopen.2, Ty.leaves_var, List.mem_singleton] at hv
        omega
  have hfs := hf'.absorbs
  have hd := htable f T binders hf₁ hrefers hholds
  rw [(absorbs_unifier hu).1 ((h.before f hf').absorbs.trans hc.later), Ty.subst_fn] at hd
  rw [holds_single, hfs.subst] at hown
  rw [hfs.subst]
  exact .call hown hd (h.fits f T binders hf' hrefers hholds')

theorem tables_lambda (hr : rules.Proper) {body : Term} (hbody : Tables rules body)
    (params : List Param) (l : Option Location) : Tables rules (.lambda params body l) := by
  intro env position n r hb ha
  rw [infer]
  refine ((quiet_reading _).leads
    (settles_reading fun hm hw => Param.leads_resolveAll hm hw params position 0).anyway r).bind ?_
  rintro types ⟨n₁, _⟩ ⟨⟨hdrawn, names, hallow⟩, rfl⟩
  have hover := over_withParams env params types
  have hlen : params.length = types.length := hallow.length_eq
  have hi : ∀ v ∈ (withParams env params types).freeVars, Reach env n n₁ v :=
    fun v hv => hover.reach hdrawn.leaves hv
  refine (returns_paramEntries _ _ _ _).bind ?_
  refine (hbody.leads hr (hover.below hdrawn.leaves hb hdrawn.le)
    (ha.of_over hover hdrawn.leaves hb) _ _).bind ?_
  rintro ⟨s, t⟩ ⟨n₂, _⟩ ⟨h, news, rfl, htable⟩
  have ht := h.tidy.outer hi hdrawn.le
  refine ((quiet_orCyclic _).returns (returns_applyAll h.tidy.solved types) _).bind ?_
  refine leads_tabled (List.append_assoc ..) fun f T binders hf hrefers hholds => ?_
  obtain ⟨hholds, hown⟩ := holds_append.1 hholds
  obtain ⟨hparams, hholds⟩ := holds_append.1 hholds
  have heq : Ty.fn (types.map (Ty.subst s.image)) t = (Ty.fn types t).subst s.image := by
    rw [Ty.subst_fn, Subst.subst_of_not_mem fun v hv => (h.leaves v hv).2]
  rw [heq] at hf hown ⊢
  have hf' : Spares env n s n₂ (fun v => Reach env n n₁ v ∨ v ∈ t.leaves) f := by
    refine hf.mono fun v _ hv => hv.resolve ht.solved (fun u hu => Or.inl (Or.inl hu)) ?_
    intro u hu
    rw [Ty.leaves_fn, List.mem_append, List.mem_flatMap] at hu
    rcases hu with ⟨w, hw, hu⟩ | hu
    · exact Or.inl (Or.inr (hdrawn.leaves w hw u hu))
    · exact Or.inr hu
  have hd := htable f T _ (hf'.body hdrawn.le hb hi h.tidy)
    (refers_withParams hlen hrefers hparams) hholds
  rw [holds_single, hf.absorbs.subst, Ty.subst_fn] at hown
  rw [hf.absorbs.subst, Ty.subst_fn]
  exact .lambda hown (haveParams_of_holds hlen hparams) hd

theorem tables_conditional (hr : rules.Proper) {condition thenBranch elseBranch : Term}
    (hcond : Tables rules condition) (hthen : Tables rules thenBranch)
    (helse : Tables rules elseBranch) (l : Option Location) :
    Tables rules (.conditional condition thenBranch elseBranch l) := by
  intro env position n r hb ha
  rw [infer]
  refine (hcond.leads hr hb ha _ r).bind ?_
  rintro ⟨s₁, conditionType⟩ ⟨n₁, _⟩ ⟨h₁, news₁, rfl, htable₁⟩
  refine ((quiet_unifyOr _ _ _).leads (leads_unifyOr fun _ _ => trivial) _).bind ?_
  rintro s₂ ⟨n₁, _⟩ ⟨⟨rfl, hu₂⟩, rfl⟩
  refine ((quiet_orCyclic _).leads
    (leads_compose_unifier h₁.tidy hu₂ open_bool h₁.leaves) _).bind ?_
  rintro s ⟨n₁, _⟩ ⟨⟨rfl, hc, ht⟩, rfl⟩
  refine ((quiet_orCyclic _).returns (returns_applyEnv ht.solved env) _).bind ?_
  refine (hthen.leads hr (ht.below hb) (ha.subst ht hb) _ _).bind ?_
  rintro ⟨s₃, thenType⟩ ⟨n₂, _⟩ ⟨h₃, news₂, rfl, htable₂⟩
  refine ((quiet_orCyclic _).leads
    (leads_compose_later ht hb (fun v hv => ht.free hv) h₃.tidy) _).bind ?_
  rintro s' ⟨n₂, _⟩ ⟨⟨rfl, hc', ht'⟩, rfl⟩
  have h₂ := h₃.after ht hb hc' ht'
  refine ((quiet_orCyclic _).returns (returns_applyEnv ht'.solved env) _).bind ?_
  refine (helse.leads hr (ht'.below hb) (ha.subst ht' hb) _ _).bind ?_
  rintro ⟨s₄, elseType⟩ ⟨n₃, _⟩ ⟨h₄, news₃, rfl, htable₃⟩
  refine ((quiet_orCyclic _).leads
    (leads_compose_later ht' hb (fun v hv => ht'.free hv) h₄.tidy) _).bind ?_
  rintro s'' ⟨n₃, _⟩ ⟨⟨rfl, hc'', ht''⟩, rfl⟩
  have h₅ := h₄.after ht' hb hc'' ht''
  have hl := ht''.leaves_subst fun v hv => (h₂.leaves v hv).1.mono h₄.tidy.le
  refine ((quiet_orCyclic _).returns (returns_apply ht''.solved thenType) _).bind ?_
  refine ((quiet_unifyOr _ _ _).leads (leads_unifyOr fun _ _ => trivial) _).bind ?_
  rintro s₆ ⟨n₃, _⟩ ⟨⟨rfl, hu₆⟩, rfl⟩
  refine ((quiet_orCyclic _).leads (leads_compose_unifier ht'' hu₆ hl h₅.leaves) _).bind ?_
  rintro s₇ ⟨n₃, _⟩ ⟨⟨rfl, hcr, htr⟩, rfl⟩
  refine ((quiet_orCyclic _).returns (returns_apply htr.solved _) _).bind ?_
  refine leads_tabled (by rw [List.append_assoc, List.append_assoc])
    fun f T binders hf hrefers hholds => ?_
  obtain ⟨hholds, hown⟩ := holds_append.1 hholds
  obtain ⟨hholds₁, hholds⟩ := holds_append.1 hholds
  obtain ⟨hholds₂, hholds₃⟩ := holds_append.1 hholds
  have heq : (thenType.subst s''.image).subst s₇.image = thenType.subst s₇.image :=
    hcr.earlier.subst thenType
  rw [heq] at hf hown ⊢
  -- backwards through the steps: which variables each of them spares
  have hf₅ : Spares env n s'' n₃
      (fun v => (v ∈ env.freeVars ∨ v ∈ thenType.leaves) ∨ v ∈ elseType.leaves) f := by
    refine (hf.mono fun v _ hv => hv.resolve htr.solved (fun u hu => Or.inl (Or.inl hu))
      fun u hu => Or.inl (Or.inr hu)).before (Int.le_refl _) hcr htr fun v hv _ => ?_
    rcases mem_of_unify hu₆ hv with hv | hv
    · exact left_subst (fun u hu => Or.inl (Or.inr hu)) hv
    · exact left_of_not_mem (Or.inr hv) (h₅.leaves v hv).2
  obtain ⟨hf₄, helse'⟩ := hf₅.split ht' hb
    (fun v hv => ⟨ht'.free hv, left_free (fun u hu => Or.inl hu) hv⟩) h₄.tidy hc'' ht''
    (fun v hv => hv.elim (fun hv => Reach.lt (.inl hv) hb ht'.le)
      fun hv => (h₂.leaves v hv).1.lt hb ht'.le) h₄.leaves
  obtain ⟨hf₃, hthen'⟩ := hf₄.split ht hb (fun v hv => ⟨ht.free hv, left_free (fun u hu => hu) hv⟩)
    h₃.tidy hc' ht' (fun v hv => Reach.lt (.inl hv) hb ht.le) h₃.leaves
  have hf₁ : Spares env n s₁ n₁ (fun v => v ∈ env.freeVars ∨ v ∈ conditionType.leaves) f := by
    refine (hf₃.mono fun v _ hv => hv.mono fun u hu => Or.inl hu).before (Int.le_refl _) hc ht ?_
    intro v hv _
    rcases mem_of_unify hu₂ hv with hv | hv
    · simp [Ty.bool] at hv
    · exact left_of_not_mem (Or.inr hv) (h₁.leaves v hv).2
  have hdcond := htable₁ f T binders hf₁ hrefers hholds₁
  have hdthen := htable₂ f T binders hthen' (hrefers.absorb (ha.clean ht hb) hf₃.absorbs) hholds₂
  have hdelse := htable₃ f T binders helse' (hrefers.absorb (ha.clean ht' hb) hf₄.absorbs) hholds₃
  rw [← (absorbs_unifier hu₂).1 (hf₃.absorbs.trans hc.later)] at hdcond
  rw [← (absorbs_unifier hu₆).1 (hf.absorbs.trans hcr.later), hf₅.absorbs.subst] at hdelse
  rw [holds_single, hf.absorbs.subst] at hown
  rw [hf.absorbs.subst]
  exact .conditional hown hdcond hdthen hdelse

/-! ## Blocks -/

/-- What is answered for statements: what their environment is about, and that what they put on
record fits together. -/
structure TabledStatements (rules : Rules) (env : Env) (n n₁ : Int) (inner : Env)
    (position : Position) (slot : Nat) (es : List Term) (s : Subst) (answer : Subst × Env)
    (n' : Int) (news : List (Site × Ty)) : Prop where
  free : ∀ v ∈ answer.2.freeVars, Left answer.1 (· ∈ env.freeVars) v
  before : ∀ f, Spares env n answer.1 n' (· ∈ env.freeVars) f →
    Spares env n s n₁ (· ∈ env.freeVars) f
  fits : ∀ f T binders, Spares env n answer.1 n' (· ∈ env.freeVars) f →
    inner.Refers T f binders → Holds T f news →
    ∃ binders', ConsistentStatements rules T binders position slot es binders' ∧
      answer.2.Refers T f binders'

theorem leads_tabledStatements (hr : rules.Proper) {es : List Term}
    (hes : ∀ e ∈ es, TablesStatement rules e) (hs : Tidy env n s n₁) (hb : env.Below n)
    {inner : Env} (hib : inner.Below n₁) (ha : inner.Apart)
    (hi : ∀ v ∈ inner.freeVars, Open env n s n₁ v ∧ Left s (· ∈ env.freeVars) v)
    (position : Position) (slot : Nat) (r : List (Site × Ty)) :
    Leads InferState.trace (checkAll rules es inner position slot s) (n₁, r)
      (fun answer m => ∃ news, m.2 = r ++ news ∧
        TabledStatements rules env n n₁ inner position slot es s answer m.1 news)
      fun _ => True := by
  induction es generalizing inner s n₁ slot r with
  | nil =>
    rw [checkAll]
    exact leads_pure ⟨[], by simp, fun v hv => (hi v hv).2, fun f hf => hf,
      fun f T binders _ hrefers _ => ⟨binders, .nil, hrefers⟩⟩
  | cons e es ih =>
    rw [checkAll]
    refine ((hes e (by simp)).leads hr hib ha _ r).bind ?_
    rintro ⟨s₁, inner₁⟩ ⟨n₂, _⟩ ⟨h₁, news, rfl, htable⟩
    refine ((quiet_orCyclic _).leads
      (leads_compose_later hs hb (fun v hv => (hi v hv).1) h₁.tidy) _).bind ?_
    rintro both ⟨n₂, _⟩ ⟨⟨rfl, hc, ht⟩, rfl⟩
    have hi₁ : ∀ v ∈ inner₁.freeVars, Open env n both n₂ v ∧ Left both (· ∈ env.freeVars) v := by
      intro v hv
      obtain ⟨u, hu, hvu⟩ := htable.free v hv
      exact ⟨hs.open_later hb (fun v hv => (hi v hv).1) h₁.tidy hc (h₁.free v hv),
        (hi u hu).2.composed hc hvu⟩
    have hsplit : ∀ f, Spares env n both n₂ (· ∈ env.freeVars) f →
        Spares env n s n₁ (· ∈ env.freeVars) f ∧ Spares inner n₁ s₁ n₂ (· ∈ inner.freeVars) f := by
      intro f hf
      obtain ⟨hbefore, hin⟩ := (hf.mono fun v _ hv => hv.mono fun u hu => Or.inl hu).split hs hb hi
        h₁.tidy hc ht (fun v hv => Reach.lt (.inl hv) hb hs.le) fun v (hv : False) => hv.elim
      exact ⟨hbefore, hin.mono fun v _ hv => hv.mono fun u hu => hu.elim id False.elim⟩
    refine (ih (fun e he => hes e (by simp [he])) ht h₁.below (h₁.apart ha) hi₁ _ _).imp ?_
    rintro answer ⟨n', _⟩ ⟨news', rfl, h⟩
    refine ⟨news ++ news', by simp, h.free, fun f hf => (hsplit f (h.before f hf)).1,
      fun f T binders hf hrefers hholds => ?_⟩
    obtain ⟨hholds, hholds'⟩ := holds_append.1 hholds
    obtain ⟨binders₁, hfirst, hrefers₁⟩ :=
      htable.fits f T binders (hsplit f (h.before f hf)).2 hrefers hholds
    obtain ⟨binders₂, hmore, hrefers₂⟩ := h.fits f T binders₁ hf hrefers₁ hholds'
    exact ⟨binders₂, .cons hfirst hmore, hrefers₂⟩

/-- The statements of a block, from the start. -/
theorem leads_tabledBlock (hr : rules.Proper) {es : List Term} (hp : ∀ e ∈ es, Passes rules e)
    (hes : ∀ e ∈ es, TablesStatement rules e) (hb : env.Below n) (ha : env.Apart)
    (position : Position) (r : List (Site × Ty)) :
    Leads InferState.trace (checkAll rules es env position 0 Subst.empty) (n, r)
      (fun answer m => PassedAll rules env n n env es Subst.empty answer m.1 ∧
        ∃ news, m.2 = r ++ news ∧
          TabledStatements rules env n n env position 0 es Subst.empty answer m.1 news)
      fun _ => True := by
  have hopen : ∀ v ∈ env.freeVars, Open env n Subst.empty n v := fun v hv => open_empty.2 (.inl hv)
  exact (leads_trace (settles_checkAll hr hp (tidy_empty env n) hb hb hopen _ _).anyway r).and
    (leads_tabledStatements hr hes (tidy_empty env n) hb hb ha
      (fun v hv => ⟨hopen v hv, left_of_not_mem hv (hopen v hv).2⟩) position 0 r)

theorem tables_unit (hr : rules.Proper) {statements : List Term}
    (hs : ∀ e ∈ statements, TablesStatement rules e) (l : Option Location) :
    Tables rules (.block statements none l) := by
  intro env position n r hb ha
  rw [infer]
  refine (leads_tabledBlock hr (passesAll hr statements) hs hb ha position r).bind ?_
  rintro ⟨s, inner⟩ ⟨n₁, _⟩ ⟨-, news, rfl, htable⟩
  refine leads_tabled rfl fun f T binders hf hrefers hholds => ?_
  obtain ⟨hholds, hown⟩ := holds_append.1 hholds
  have hf' : Spares env n s n₁ (· ∈ env.freeVars) f :=
    hf.mono fun v _ hv => hv.mono fun u hu => by simpa [Ty.unit] using hu
  obtain ⟨binders', hfits, -⟩ := htable.fits f T binders hf' hrefers hholds
  exact .unit (holds_single.1 hown) hfits

theorem tables_block (hr : rules.Proper) {statements : List Term}
    (hs : ∀ e ∈ statements, TablesStatement rules e) {result : Term}
    (hresult : Tables rules result) (l : Option Location) :
    Tables rules (.block statements (some result) l) := by
  intro env position n r hb ha
  rw [infer]
  refine (leads_tabledBlock hr (passesAll hr statements) hs hb ha position r).bind ?_
  rintro ⟨s, inner⟩ ⟨n₁, _⟩ ⟨h, news, rfl, htable⟩
  refine (hresult.leads hr h.below (h.apart ha) _ _).bind ?_
  rintro ⟨s₁, t⟩ ⟨n₂, _⟩ ⟨h₁, news₁, rfl, htable₁⟩
  refine ((quiet_orCyclic _).leads (leads_compose_later h.tidy hb h.free h₁.tidy) _).bind ?_
  rintro both ⟨n₂, _⟩ ⟨⟨rfl, hc, ht⟩, rfl⟩
  refine leads_tabled (List.append_assoc ..) fun f T binders hf hrefers hholds => ?_
  obtain ⟨hholds, hown⟩ := holds_append.1 hholds
  obtain ⟨hholds, hholds₁⟩ := holds_append.1 hholds
  obtain ⟨hf', hf₁⟩ := hf.split h.tidy hb (fun v hv => ⟨h.free v hv, htable.free v hv⟩) h₁.tidy hc
    ht (fun v hv => Reach.lt (.inl hv) hb h.tidy.le) h₁.leaves
  obtain ⟨binders', hfits, hrefers'⟩ := htable.fits f T binders hf' hrefers hholds
  exact .block (holds_single.1 hown) hfits (htable₁ f T binders' hf₁ hrefers' hholds₁)

/-! ## Statements -/

/-- A name that is bound to a generalized type goes with the node of that type. -/
theorem refers_generalize {f : Int → Ty} {T : Position → Option Ty} {q : Position}
    {binders : Table String Binder} (hf : Spares env n s n' (· ∈ env.freeVars) f)
    (hc : env.Clean s.image) (hl : ∀ v ∈ t.leaves, Open env n s n' v)
    (hrefers : env.Refers T f binders) (hown : T q = some (t.subst f)) (x : String) :
    Env.Refers T f ((env.subst s.image).insert x ((env.subst s.image).generalize t))
      (binders.insert x (.general q)) := by
  refine Table.Rel.insert (hrefers.absorb hc hf.absorbs) x fun u hu => ?_
  obtain ⟨g, hg⟩ := hf.exists_instance hc hl hu
  exact ⟨t.subst f, g, hown, hg⟩

theorem left_generalize {v : Int} {x : String}
    (hv : v ∈ Env.freeVars ((env.subst s.image).insert x ((env.subst s.image).generalize t))) :
    Left s (· ∈ env.freeVars) v := by
  rcases Env.mem_freeVars_insert hv with hv | hv
  · exact left_free (fun u hu => hu) (Env.mem_freeVars_generalize.1 hv).2
  · exact left_free (fun u hu => hu) hv

/-- The last steps of a statement: its own entry, and its name in the log. -/
theorem leads_tabledBinding {position : Position} {site : Site} {word : Keyword} {x : String}
    {scheme : Scheme} {answer : Subst × Env} {r' news : List (Site × Ty)} (hr : r' = r ++ news)
    (h : TabledStatement rules env n position e answer n' (news ++ [(site, t)])) :
    Leads InferState.trace
      (do note (.typed site t); note (.bound word x scheme); pure answer) (n', r')
      (fun answer m => ∃ news, m.2 = r ++ news ∧
        TabledStatement rules env n position e answer m.1 news)
      fun _ => True := by
  refine (returns_typed site t).bind ?_
  refine ((quiet_bound word x scheme).returns (returns_note _) _).bind ?_
  exact leads_pure ⟨_, by rw [hr, List.append_assoc], h⟩

theorem tables_discard (hr : rules.Proper) {value : Term} (hvalue : Tables rules value)
    (l : Option Location) : TablesStatement rules (.discard value l) := by
  intro env position n r hb ha
  rw [check]
  refine (hvalue.leads hr hb ha _ r).bind ?_
  rintro ⟨s, t⟩ ⟨n₁, _⟩ ⟨h, news, rfl, htable⟩
  refine (returns_typed _ t).bind ?_
  refine ((quiet_orCyclic _).returns (returns_applyEnv h.tidy.solved env) _).bind ?_
  refine leads_pure ⟨_, List.append_assoc .., fun v hv => left_free (fun u hu => hu) hv,
    fun f T binders hf hrefers hholds => ?_⟩
  obtain ⟨hholds, hown⟩ := holds_append.1 hholds
  have hd := htable f T binders (hf.mono fun v _ hv => hv.mono fun u hu => Or.inl hu) hrefers hholds
  exact ⟨binders, .discard (holds_single.1 hown) hd,
    hrefers.absorb (ha.clean h.tidy hb) hf.absorbs⟩

theorem tables_let (hr : rules.Proper) {value : Term} (hvalue : Tables rules value) (x : String)
    (l : Option Location) : TablesStatement rules (.letBinding x value none l) := by
  intro env position n r hb ha
  rw [check]
  refine (hvalue.leads hr hb ha _ r).bind ?_
  rintro ⟨s, t⟩ ⟨n₁, _⟩ ⟨h, news, rfl, htable⟩
  refine ((quiet_orCyclic _).returns (returns_applyEnv h.tidy.solved env) _).bind ?_
  refine leads_tabledBinding rfl ⟨fun v hv => left_generalize hv,
    fun f T binders hf hrefers hholds => ?_⟩
  obtain ⟨hholds, hown⟩ := holds_append.1 hholds
  have hd := htable f T binders (hf.mono fun v _ hv => hv.mono fun u hu => Or.inl hu) hrefers hholds
  exact ⟨_, .letBinding (holds_single.1 hown) hd,
    refers_generalize hf (ha.clean h.tidy hb) h.leaves hrefers (holds_single.1 hown) x⟩

theorem tables_ascribed (hr : rules.Proper) {value : Term} (hvalue : Tables rules value)
    (x : String) (ascription : TypeExpr) (l : Option Location) :
    TablesStatement rules (.letBinding x value (some ascription) l) := by
  intro env position n r hb ha
  rw [check]
  refine (hvalue.leads hr hb ha _ r).bind ?_
  rintro ⟨s, t⟩ ⟨n₁, _⟩ ⟨h, news, rfl, htable⟩
  refine ((quiet_reading _).leads
    (settles_reading fun hm hw => TypeExpr.leads_resolve hm hw ascription _).anyway _).bind ?_
  rintro declared ⟨n₂, _⟩ ⟨⟨hdrawn, -⟩, rfl⟩
  have hdeclared : ∀ v ∈ declared.leaves, n₁ ≤ v ∧ v < n₂ := hdrawn.leaves declared (by simp)
  refine ((quiet_unifyOr _ _ _).leads (leads_unifyOr fun _ _ => trivial) _).bind ?_
  rintro s₁ ⟨n₂, _⟩ ⟨⟨rfl, hu⟩, rfl⟩
  refine ((quiet_orCyclic _).leads (leads_compose_unifier (h.tidy.mono hdrawn.le) hu
    (fun v hv => h.tidy.open_fresh hb (hdeclared v hv).1 (hdeclared v hv).2)
    fun v hv => (h.leaves v hv).mono hdrawn.le) _).bind ?_
  rintro both ⟨n₂, _⟩ ⟨⟨rfl, hc, ht⟩, rfl⟩
  refine ((quiet_orCyclic _).returns (returns_apply (found_of_unify hu).solved t) _).bind ?_
  refine ((quiet_orCyclic _).returns (returns_applyEnv ht.solved env) _).bind ?_
  -- the substitution before the unifier has no effect on the value's type
  have heq : t.subst s₁.image = t.subst both.image := by
    rw [hc.subst, Subst.subst_of_not_mem fun v hv => (h.leaves v hv).2]
  rw [heq]
  refine leads_tabledBinding rfl ⟨fun v hv => left_generalize hv,
    fun f T binders hf hrefers hholds => ?_⟩
  obtain ⟨hholds, hown⟩ := holds_append.1 hholds
  rw [holds_single] at hown
  have hf₁ : Spares env n s n₁ (fun v => v ∈ env.freeVars ∨ v ∈ t.leaves) f := by
    refine (hf.mono fun v _ hv => hv.mono fun u hu => Or.inl hu).before hdrawn.le hc ht ?_
    intro v hv hlt
    rcases mem_of_unify hu hv with hv | hv
    · have := hdeclared v hv
      omega
    · exact left_of_not_mem (Or.inr hv) (h.leaves v hv).2
  have hd := htable f T binders hf₁ hrefers hholds
  rw [← hf.absorbs.subst] at hd
  refine ⟨_, .letBinding hown hd, refers_generalize hf (ha.clean ht hb) ?_ hrefers hown x⟩
  exact ht.leaves_subst fun v hv => (h.leaves v hv).1.mono hdrawn.le

theorem tables_definition (hr : rules.Proper) {body : Term} (hbody : Tables rules body)
    (g : String) (params : List Param) (returns : Option TypeExpr) (l : Option Location) :
    TablesStatement rules (.definition g params returns body l) := by
  intro env position n r hb ha
  rw [check]
  refine ((quiet_reading _).leads (settles_reading fun hm hw =>
    Param.leads_signature hm hw params returns position).anyway r).bind ?_
  rintro ⟨types, result⟩ ⟨n₁, _⟩ ⟨⟨hdrawn, names, hallow, -⟩, rfl⟩
  have hlen : params.length = types.length := hallow.length_eq
  have hover := over_inner env g params types result
  have hi : ∀ v ∈ Env.freeVars (withParams (env.insert g (.mono (.fn types result))) params types),
      Reach env n n₁ v := fun v hv => hover.reach hdrawn.inner hv
  refine (returns_paramEntries _ _ _ _).bind ?_
  refine (hbody.leads hr (hover.below hdrawn.inner hb hdrawn.le)
    (ha.of_over hover hdrawn.inner hb) _ _).bind ?_
  rintro ⟨s, bodyType⟩ ⟨n₂, _⟩ ⟨h, news, rfl, htable⟩
  have hs := h.tidy.outer hi hdrawn.le
  have hdrawn₁ : ∀ v ∈ (Ty.fn types result).leaves, Reach env n n₁ v := fun v hv =>
    .inr (hdrawn.inner _ (by simp) v hv)
  have hfinal : ∀ v ∈ (Ty.fn types result).leaves, Reach env n n₂ v := fun v hv =>
    (hdrawn₁ v hv).mono h.tidy.le
  have hresult : ∀ v ∈ result.leaves, v ∈ (Ty.fn types result).leaves := fun v hv => by simp [hv]
  refine ((quiet_orCyclic _).returns (returns_apply h.tidy.solved result) _).bind ?_
  refine ((quiet_unifyOr _ _ _).leads (leads_unifyOr fun _ _ => trivial) _).bind ?_
  rintro s₁ ⟨n₂, _⟩ ⟨⟨rfl, hu⟩, rfl⟩
  refine ((quiet_orCyclic _).leads (leads_compose_unifier hs hu
    (hs.leaves_subst fun v hv => hfinal v (hresult v hv))
    fun v hv => ⟨(h.leaves v hv).1.outer hi hdrawn.le h.tidy.le, (h.leaves v hv).2⟩) _).bind ?_
  rintro both ⟨n₂, _⟩ ⟨⟨rfl, hc, ht⟩, rfl⟩
  refine ((quiet_orCyclic _).returns (returns_applyEnv ht.solved env) _).bind ?_
  refine ((quiet_orCyclic _).returns (returns_apply ht.solved _) _).bind ?_
  refine leads_tabledBinding (List.append_assoc ..) ⟨fun v hv => left_generalize hv,
    fun f T binders hf hrefers hholds => ?_⟩
  obtain ⟨hholds, hown⟩ := holds_append.1 hholds
  obtain ⟨hparams, hholds⟩ := holds_append.1 hholds
  rw [holds_single] at hown
  have hf₁ : Spares env n s n₂ (fun v => Reach env n n₁ v ∨ v ∈ bodyType.leaves) f := by
    refine (hf.mono fun v _ hv => hv.mono fun u hu => Or.inl (Or.inl hu)).before (Int.le_refl _) hc
      ht fun v hv _ => ?_
    rcases mem_of_unify hu hv with hv | hv
    · exact left_subst (fun u hu => Or.inl (hdrawn₁ u (hresult u hu))) hv
    · exact left_of_not_mem (Or.inr hv) (h.leaves v hv).2
  have hown' := hown
  rw [hf.absorbs.subst] at hown'
  have hd := htable f T _ (hf₁.body hdrawn.le hb hi h.tidy)
    (refers_withParams hlen (hrefers.insert_fixed g hown') hparams) hholds
  rw [← (absorbs_unifier hu).1 (hf.absorbs.trans hc.later), hf₁.absorbs.subst] at hd
  rw [Ty.subst_fn] at hown'
  exact ⟨_, .definition hown' (haveParams_of_holds hlen hparams) hd,
    refers_generalize hf (ha.clean ht hb) (ht.leaves_subst hfinal) hrefers hown g⟩

end

/-! ## All terms -/

variable {rules : Rules}

mutual

/-- What is put on record for an expression fits together. -/
theorem tables (hr : rules.Proper) (e : Term) : Tables rules e := by
  match e with
  | .number k l => exact tables_number k l
  | .boolean b l => exact tables_boolean b l
  | .name x l => exact tables_name x l
  | .binary left operator right l =>
    exact tables_binary hr (tables hr left) (tables hr right) operator l
  | .call callee arguments l => exact tables_call hr (tables hr callee) (tablesAll hr arguments) l
  | .lambda params body l => exact tables_lambda hr (tables hr body) params l
  | .block statements none l => exact tables_unit hr (tablesStatements hr statements) l
  | .block statements (some result) l =>
    exact tables_block hr (tablesStatements hr statements) (tables hr result) l
  | .conditional condition thenBranch elseBranch l =>
    exact tables_conditional hr (tables hr condition) (tables hr thenBranch)
      (tables hr elseBranch) l
  | .letBinding .. | .definition .. | .discard .. | .strayParam _ | .strayType _
  | .strayProgram .. =>
    intro env position n r _ _
    rw [infer]
    · exact leads_throw trivial
    all_goals simp

/-- What is put on record for a statement fits together. -/
theorem tablesStatement (hr : rules.Proper) (e : Term) : TablesStatement rules e := by
  match e with
  | .discard value l => exact tables_discard hr (tables hr value) l
  | .letBinding x value none l => exact tables_let hr (tables hr value) x l
  | .letBinding x value (some ascription) l =>
    exact tables_ascribed hr (tables hr value) x ascription l
  | .definition f params returns body l =>
    exact tables_definition hr (tables hr body) f params returns l
  | .number .. | .boolean .. | .name .. | .binary .. | .call .. | .lambda .. | .block ..
  | .conditional .. | .strayParam _ | .strayType _ | .strayProgram .. =>
    intro env position n r _ _
    rw [check]
    · exact leads_throw trivial
    all_goals simp

theorem tablesAll (hr : rules.Proper) (es : List Term) : ∀ e ∈ es, Tables rules e := by
  match es with
  | [] => simp
  | e :: es => exact List.forall_mem_cons.2 ⟨tables hr e, tablesAll hr es⟩

theorem tablesStatements (hr : rules.Proper) (es : List Term) :
    ∀ e ∈ es, TablesStatement rules e := by
  match es with
  | [] => simp
  | e :: es => exact List.forall_mem_cons.2 ⟨tablesStatement hr e, tablesStatements hr es⟩

end

end Infer

end LetPoly
