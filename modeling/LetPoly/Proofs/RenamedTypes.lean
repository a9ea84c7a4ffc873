-- What can be typed does not depend on what binders are called. A derivation carries
-- over from one program to the other, binder by binder, although the environments
-- differ: a binder that hides another in the one program may leave it in sight in the
-- other, and the variables that stand free there are not generalized.
import LetPoly.Proofs.Scoping
import LetPoly.Proofs.CheckedPrograms

namespace LetPoly

/-! ## Environments side by side -/

/-- Under a replacement of variables, the second environment is at least as general as the first,
binder by binder. -/
def Env.AtLeastAlong (ρ : Scoping) (f : Int → Ty) (env other : Env) : Prop :=
  ∀ x x', ρ.Same x x' → ∀ scheme, env.get? x = some scheme →
    ∃ scheme', other.get? x' = some scheme' ∧ scheme.AtLeast f scheme'

namespace Env.AtLeastAlong

variable {ρ : Scoping} {f g : Int → Ty} {env other : Env}

theorem empty (ρ : Scoping) (f : Int → Ty) : AtLeastAlong ρ f Table.empty Table.empty :=
  fun _ _ _ _ h => nomatch h

theorem congr (h : AtLeastAlong ρ f env other) (hfg : ∀ v ∈ env.freeVars, g v = f v) :
    AtLeastAlong ρ g env other := by
  intro x x' hx scheme hs
  obtain ⟨scheme', hs', hle⟩ := h x x' hx scheme hs
  refine ⟨scheme', hs', fun t ht => hle t (ht.congr fun v hv => ?_)⟩
  exact hfg v (Env.mem_freeVars.2 ⟨scheme, Table.mem_values_of_get? hs, hv⟩)

theorem insert (h : AtLeastAlong ρ f env other) (x x' : String) {scheme scheme' : Scheme}
    (hle : scheme.AtLeast f scheme') :
    AtLeastAlong ((x, x') :: ρ) f (env.insert x scheme) (other.insert x' scheme') := by
  intro z z' hz s hs
  rw [Table.get?_insert] at hs
  cases hz with
  | here =>
    rw [if_pos rfl] at hs
    obtain rfl := Option.some.inj hs
    exact ⟨scheme', by rw [Table.get?_insert, if_pos rfl], hle⟩
  | outer hx hx' hz =>
    rw [if_neg hx] at hs
    obtain ⟨s', hs', hle'⟩ := h z z' hz s hs
    exact ⟨s', by rw [Table.get?_insert, if_neg hx', hs'], hle'⟩

theorem withParams (h : AtLeastAlong ρ f env other) {params params' : List Param}
    (hp : Param.Alike params params') {types : List Ty} (hl : params.length = types.length) :
    AtLeastAlong (ρ.enter (params.map (·.name)) (params'.map (·.name))) f
      (Infer.withParams env params types)
      (Infer.withParams other params' (types.map (Ty.subst f))) := by
  induction hp generalizing ρ env other types with
  | nil => exact h
  | cons _ _ ih =>
    cases types with
    | nil => cases hl
    | cons t types => exact ih (h.insert _ _ (Scheme.atLeast_mono f t)) (Nat.succ.inj hl)

/-- The environments in which the bodies of two definitions are typed. -/
theorem inner (h : AtLeastAlong ρ f env other) (g g' : String) {params params' : List Param}
    (hp : Param.Alike params params') {types : List Ty} (hl : params.length = types.length)
    (t : Ty) :
    AtLeastAlong (Scoping.enter ((g, g') :: ρ) (params.map (·.name)) (params'.map (·.name))) f
      (Infer.withParams (env.insert g (.mono (.fn types t))) params types)
      (Infer.withParams (other.insert g' (.mono (.fn (types.map (Ty.subst f)) (t.subst f))))
        params' (types.map (Ty.subst f))) := by
  have hg := Scheme.atLeast_mono f (.fn types t)
  rw [Ty.subst_fn] at hg
  exact (h.insert g g' hg).withParams hp hl

end Env.AtLeastAlong

theorem Param.Alike.allow {baseTypes : List String} {names : String → Ty}
    {params params' : List Param} (h : Param.Alike params params') {types : List Ty}
    (ha : Param.Allow baseTypes names params types) :
    Param.Allow baseTypes names params' types := by
  induction h generalizing types with
  | nil => exact ha
  | cons hp _ ih =>
    cases ha with
    | cons ht hts => exact .cons (by rw [hp.1]; exact ht) (ih hts)

/-! ## Derivations -/

mutual

/-- A derivation carries over to an expression that is the same up to names, in an environment
that is at least as general binder by binder. -/
theorem HasType.alike {rules : Rules} (hr : rules.Proper) {env other : Env} {e e' : Term} {t : Ty}
    {f : Int → Ty} {ρ : Scoping} (h : HasType rules env e t) (he : Term.Alike ρ e e')
    (hle : env.AtLeastAlong ρ f other) : HasType rules other e' (t.subst f) := by
  match h with
  | .number =>
    cases he
    exact .number
  | .boolean =>
    cases he
    exact .boolean
  | .name hget hi =>
    cases he with
    | name hx =>
      obtain ⟨scheme', hget', hs⟩ := hle _ _ hx _ hget
      exact .name hget' (hs _ (hi.subst f))
  | .binary hop hi hl hr' =>
    cases he with
    | binary hel her =>
      have hi' := hr.instance_subst hop f hi
      exact .binary hop hi' (HasType.alike hr hl hel hle) (HasType.alike hr hr' her hle)
  | .call hc ha =>
    cases he with
    | call hec hea =>
      have hc' := HasType.alike hr hc hec hle
      rw [Ty.subst_fn] at hc'
      exact .call hc' (HaveTypes.alike hr ha hea hle)
  | .lambda names ha hb =>
    cases he with
    | lambda hp heb =>
      rw [Ty.subst_fn]
      refine .lambda _ (hp.allow (ha.subst f)) (HasType.alike hr hb heb ?_)
      exact hle.withParams hp ha.length_eq
  | .unit hs =>
    cases he with
    | unit hes =>
      obtain ⟨other', hs', -⟩ := BindAll.alike hr hs hes hle
      exact .unit hs'
  | .block hs hb =>
    cases he with
    | block hes heb =>
      obtain ⟨other', hs', hle'⟩ := BindAll.alike hr hs hes hle
      exact .block hs' (HasType.alike hr hb heb hle')
  | .conditional hc ht hf =>
    cases he with
    | conditional hec het hef =>
      exact .conditional (HasType.alike hr hc hec hle) (HasType.alike hr ht het hle)
        (HasType.alike hr hf hef hle)

theorem HaveTypes.alike {rules : Rules} (hr : rules.Proper) {env other : Env} {es es' : List Term}
    {ts : List Ty} {f : Int → Ty} {ρ : Scoping} (h : HaveTypes rules env es ts)
    (he : Term.AlikeAll ρ es es') (hle : env.AtLeastAlong ρ f other) :
    HaveTypes rules other es' (ts.map (Ty.subst f)) := by
  match h with
  | .nil =>
    cases he
    exact .nil
  | .cons h hs =>
    cases he with
    | cons he hes => exact .cons (HasType.alike hr h he hle) (HaveTypes.alike hr hs hes hle)

theorem Binds.alike {rules : Rules} (hr : rules.Proper) {env env' other : Env} {e e' : Term}
    {f : Int → Ty} {ρ ρ' : Scoping} (h : Binds rules env e env') (he : Term.AlikeItem ρ e e' ρ')
    (hle : env.AtLeastAlong ρ f other) :
    ∃ other', Binds rules other e' other' ∧ env'.AtLeastAlong ρ' f other' := by
  match h with
  | .discard h =>
    cases he with
    | discard he => exact ⟨other, .discard (HasType.alike hr h he hle), hle⟩
  | @Binds.letBinding _ _ x _ _ _ t names h ha =>
    cases he with
    | letBinding he =>
      -- the bound variables are moved out of the way of the other environment's
      obtain ⟨f', hf', hg⟩ := Env.exists_atLeast_generalize f env other t
      have hle' : env.AtLeastAlong ρ f' other := hle.congr hf'
      exact ⟨_, .letBinding _ (HasType.alike hr h he hle') (ha.subst f'), hle.insert x _ hg⟩
  | @Binds.definition _ _ g params _ _ _ types t names hp ha h =>
    cases he with
    | definition hps he =>
      obtain ⟨f', hf', hg⟩ := Env.exists_atLeast_generalize f env other (.fn types t)
      have hle' : env.AtLeastAlong ρ f' other := hle.congr hf'
      rw [Ty.subst_fn] at hg
      exact ⟨_, .definition _ (hps.allow (hp.subst f')) (ha.subst f')
        (HasType.alike hr h he (hle'.inner g _ hps hp.length_eq t)), hle.insert g _ hg⟩

theorem BindAll.alike {rules : Rules} (hr : rules.Proper) {env env' other : Env}
    {es es' : List Term} {f : Int → Ty} {ρ ρ' : Scoping} (h : BindAll rules env es env')
    (he : Term.AlikeItems ρ es es' ρ') (hle : env.AtLeastAlong ρ f other) :
    ∃ other', BindAll rules other es' other' ∧ env'.AtLeastAlong ρ' f other' := by
  match h with
  | .nil =>
    cases he
    exact ⟨other, .nil, hle⟩
  | .cons h hs =>
    cases he with
    | cons he hes =>
      obtain ⟨other₁, h', hle₁⟩ := Binds.alike hr h he hle
      obtain ⟨other₂, hs', hle₂⟩ := BindAll.alike hr hs hes hle₁
      exact ⟨other₂, .cons h' hs', hle₂⟩

end

/-- A program that can be typed can be typed under other names, with the same type. -/
theorem Program.WellTyped.alike {rules : Rules} (hr : rules.Proper) {p p' : Program} {ρ : Scoping}
    {env : Env} {t : Ty} (h : p.WellTyped rules env t) (hp : p.Alike p' ρ) :
    ∃ env', p'.WellTyped rules env' t := by
  obtain ⟨env', hitems, hle⟩ := h.items.alike hr hp.statements (.empty [] .var)
  have hresult := hp.result
  refine ⟨env', hitems, fun e' he' => ?_, fun hn => ?_⟩
  · rw [he'] at hresult
    generalize hres : p.result = o at hresult
    cases hresult with
    | some he =>
      have ht := (h.result _ hres).alike hr he hle
      rwa [Ty.subst_var_self] at ht
  · rw [hn] at hresult
    generalize hres : p.result = o at hresult
    cases hresult with
    | none => exact h.unit hres

/-- Whether a program passes does not depend on the names of its binders. -/
theorem Program.ok_of_alike {p p' : Program} {ρ : Scoping} (h : p.Alike p' ρ)
    {options : CheckOptions} (hprelude : options.prelude = Table.empty) {c c' : Checked}
    (hc : p.check options = .ok c) (hc' : p'.check options = .ok c') (hok : c.ok = true) :
    c'.ok = true := by
  obtain ⟨env, t, ht, -, -⟩ := p.wellTyped_of_check hprelude hc hok
  obtain ⟨env', ht'⟩ := ht.alike (Rules.proper_standard options.extraTypes) h
  obtain ⟨d, hd, hok'⟩ := p'.check_of_wellTyped hprelude ht'
  rw [hc'] at hd
  obtain rfl := Except.ok.inj hd
  exact hok'

end LetPoly
