-- What a check says of a program does not depend on what binders are called. Two checks
-- go through programs that are the same up to names side by side: an item passes in both
-- or fails in both, and what they bind has the same instances. The names matter only
-- where an item that stays unbound leaves an older binding of its name in sight: a new
-- name for either of the two takes the older binding out of sight.
import Mathlib.Logic.Equiv.Nat
import LetPoly.Proofs.IndependentItems
import LetPoly.Proofs.RenamedRuns
import LetPoly.Proofs.RenamedTypes

namespace LetPoly

open Function (Injective)

/-! ## Types that are instances of each other -/

/-- Some variables can be renamed together with all others, if different ones get different
names. -/
theorem exists_injective {vs : List Int} {π : Int → Int}
    (h : ∀ v ∈ vs, ∀ w ∈ vs, π v = π w → v = w) :
    ∃ σ : Int → Int, Injective σ ∧ ∀ v ∈ vs, σ v = π v := by
  obtain ⟨high, hhigh⟩ := Env.exists_upper (vs.map π)
  have hlow : ∀ v ∈ vs, π v < high := fun v hv => hhigh _ (List.mem_map_of_mem hv)
  -- all other variables go past the names that are taken
  refine ⟨fun v => if v ∈ vs then π v else high + Equiv.intEquivNat v, fun v w hvw => ?_,
    fun v hv => if_pos hv⟩
  simp only at hvw
  split at hvw <;> split at hvw
  · rename_i hv hw
    exact h v hv w hw hvw
  · rename_i hv _
    have := hlow v hv
    omega
  · rename_i _ hw
    have := hlow w hw
    omega
  · exact Equiv.intEquivNat.injective (by omega)

/-- Two types that are instances of each other differ in the numbers of variables only. -/
theorem Ty.renamed_of_instances {t t' : Ty} {f g : Int → Ty} (h : t' = t.subst f)
    (h' : t = t'.subst g) : Renamed Ty.rename t t' := by
  have hself : t.subst (fun v => (f v).subst g) = t.subst .var := by
    rw [← Ty.subst_subst, ← h, ← h', Ty.subst_var_self]
  -- each variable goes to a variable, from which it comes back
  have hback : ∀ v ∈ t.leaves, ∃ w, f v = .var w ∧ g w = .var v := by
    intro v hv
    have hv := Ty.eq_of_subst_eq hself v hv
    cases hf : f v with
    | var w => exact ⟨w, rfl, by rwa [hf] at hv⟩
    | con c => simp [hf] at hv
    | fn params result => simp [hf] at hv
  choose! π hπ using hback
  have hinj : ∀ v ∈ t.leaves, ∀ w ∈ t.leaves, π v = π w → v = w := by
    intro v hv w hw hvw
    have hv' := (hπ v hv).2
    rw [hvw, (hπ w hw).2] at hv'
    exact (Ty.var.inj hv').symm
  obtain ⟨σ, hσ, hsame⟩ := exists_injective hinj
  refine ⟨σ, hσ, ?_⟩
  rw [h, Ty.rename]
  exact Ty.subst_congr fun v hv => by rw [hsame v hv, (hπ v hv).1]

/-! ## Items side by side -/

namespace Scoping

/-- Behind an item of these names. -/
def behind (ρ : Scoping) : Option String × Option String → Scoping
  | (some x, some x') => (x, x') :: ρ
  | _ => ρ

/-- A name belongs to the same binder behind an item that has it in both programs, as long as no
item since has it in just one. -/
theorem same_behind {ρ : Scoping} {names : List (Option String × Option String)} {x : String}
    {b k : Nat} (hb : names[b]? = some (some x, some x)) (hbk : b < k)
    (hsince : ∀ m, b < m → m < k → ∀ name, names[m]? = some name →
      (name.1 = some x ↔ name.2 = some x)) :
    ((names.take k).foldl behind ρ).Same x x := by
  induction k, hbk using Nat.le_induction with
  | base =>
    rw [List.take_add_one, List.foldl_append, hb]
    exact .here
  | succ k hbk ih =>
    have hsame := ih fun m hbm hmk => hsince m hbm (Nat.lt_succ_of_lt hmk)
    rw [List.take_add_one, List.foldl_append]
    match hname : names[k]?, hsince k hbk (Nat.lt_succ_self k) with
    | some (some z, some z'), hboth =>
      have hboth := hboth _ rfl
      by_cases hz : z = x
      · obtain rfl := hz
        obtain rfl : z' = z := Option.some.inj (hboth.1 rfl)
        exact .here
      · exact .outer hz (fun hz' => hz (Option.some.inj (hboth.2 (congrArg some hz')))) hsame
    | some (some _, none), _ => exact hsame
    | some (none, _), _ => exact hsame
    | none, _ => exact hsame

end Scoping

/-- What items are called in two programs, slot by slot. -/
def Term.itemNames (es es' : List Term) : List (Option String × Option String) :=
  es.zipWith (fun e e' => (e.boundName?, e'.boundName?)) es'

theorem Term.AlikeItem.behind {ρ ρ' : Scoping} {e e' : Term} (h : Term.AlikeItem ρ e e' ρ') :
    ρ' = ρ.behind (e.boundName?, e'.boundName?) := by
  cases h <;> rfl

theorem Term.AlikeItem.names {ρ ρ' : Scoping} {e e' : Term} (h : Term.AlikeItem ρ e e' ρ') :
    (e.boundName? = none ∧ e'.boundName? = none ∧ ρ' = ρ) ∨
      ∃ x x', e.boundName? = some x ∧ e'.boundName? = some x' ∧ ρ' = (x, x') :: ρ := by
  cases h with
  | discard _ => exact .inl ⟨rfl, rfl, rfl⟩
  | letBinding _ => exact .inr ⟨_, _, rfl, rfl, rfl⟩
  | definition _ _ => exact .inr ⟨_, _, rfl, rfl, rfl⟩

theorem Term.AlikeItem.declares {ρ ρ' : Scoping} {e e' : Term} (h : Term.AlikeItem ρ e e' ρ')
    {baseTypes : List String} (hd : e.Declares baseTypes) : e'.Declares baseTypes := by
  cases hd with
  | letBinding hmeans =>
    cases h with
    | letBinding _ => exact .letBinding hmeans
  | definition hparams hreturns =>
    cases h with
    | definition hp _ => exact .definition (hp.allow hparams) hreturns

theorem Param.Alike.resolveAll {baseTypes : List String} {params params' : List Param}
    (h : Param.Alike params params') (position : Position) (slot : Nat) :
    Param.resolveAll baseTypes params' position slot =
      Param.resolveAll baseTypes params position slot := by
  induction h generalizing slot with
  | nil => rfl
  | cons hp _ ih => rw [Param.resolveAll, Param.resolveAll, hp.1, ih]

/-- A binder that is bound to nothing, whose names belonged to the same binder before or were not
bound. -/
theorem Env.AtLeastAlong.skip {ρ : Scoping} {f : Int → Ty} {env other : Env}
    (h : Env.AtLeastAlong ρ f env other) {x x' : String}
    (hx : ρ.Same x x' ∨ env.get? x = none) : Env.AtLeastAlong ((x, x') :: ρ) f env other := by
  intro z z' hz scheme hs
  cases hz with
  | here =>
    rcases hx with hsame | hnone
    · exact h x x' hsame scheme hs
    · rw [hnone] at hs
      cases hs
  | outer _ _ hz => exact h z z' hz scheme hs

theorem Env.atLeast_generalize_rename {env other : Env} (hc : ∀ v, v ∉ other.freeVars) (t : Ty)
    {π : Int → Int} (hπ : Injective π) :
    Scheme.AtLeast .var (env.generalize t) (other.generalize (t.rename π)) := by
  rintro u ⟨g, -, rfl⟩
  obtain ⟨back, hback⟩ := hπ.hasLeftInverse
  refine ⟨fun v => if v ∈ (t.rename π).leaves then g (back v) else .var v, fun v hv => ?_, ?_⟩
  · exact if_neg fun hl => hv (Env.mem_quantified_generalize.2 ⟨hl, hc v⟩)
  · show t.subst g = (t.rename π).subst _
    rw [Ty.subst_rename]
    refine Ty.subst_congr fun v hv => ?_
    rw [if_pos (by simpa using ⟨v, hv, rfl⟩), hback v]

/-- In an environment without free variables, nothing is replaced. -/
theorem Fit.of_closed {env : Env} (hc : ∀ v, v ∉ env.freeVars) : Fit .var env env := by
  have hclean : env.Clean .var := fun scheme hs v hv =>
    absurd (Env.mem_freeVars.2 ⟨scheme, hs, hv⟩) (hc v)
  refine ⟨?_, ?_⟩
  · simpa [Env.subst_eq_self] using Env.atMost_self hclean
  · rintro v w ⟨scheme, hs, hv, -⟩
    exact absurd (Env.mem_freeVars.2 ⟨scheme, hs, hv⟩) (hc v)

namespace Check

variable {rules : Rules}

/-- Binder by binder, the second stage says at least what the first one says. -/
structure Stage.CarriesOver (ρ : Scoping) (stage stage' : Stage) : Prop where
  settled : stage.Settled
  settled' : stage'.Settled
  along : stage.env.AtLeastAlong ρ .var stage'.env

variable {ρ ρ' : Scoping} {stage stage' : Stage} {e e' : Term}

/-- If an item passes in the first stage, so it does in the second. -/
theorem Stage.CarriesOver.check (h : stage.CarriesOver ρ stage') (hr : rules.Proper)
    (he : Term.AlikeItem ρ e e' ρ') {slot : Nat} {s : Subst} {env : Env} {after : InferState}
    (hrun : Infer.check rules e stage.env [slot] (.start stage.next) = .ok (s, env) after) :
    ∃ s' env' after',
      Infer.check rules e' stage'.env [slot] (.start stage'.next) = .ok (s', env') after' ∧
        env.AtLeastAlong ρ' .var env' := by
  have hp := (Infer.passes hr e stage.env [slot] stage.next h.settled.below).of_ok rfl hrun
  obtain ⟨other, hbinds, hle⟩ := Binds.alike hr (hp.of_closed h.settled.closed) he h.along
  obtain ⟨⟨s', env'⟩, after', hrun', hp', g, -, -, hfit⟩ :=
    (Infer.succeeds hr e' stage'.env [slot] stage'.next .var stage'.env other h.settled'.below
      (.of_closed h.settled'.closed) hbinds).exists_ok (s := .start stage'.next) rfl
  have hclosed : ∀ v, v ∉ (env' : Env).freeVars :=
    (hp'.of_closed h.settled'.closed).closed h.settled'.closed
  refine ⟨s', env', after', hrun', fun x x' hx scheme hs => ?_⟩
  obtain ⟨scheme₁, hs₁, hle₁⟩ := hle x x' hx scheme hs
  obtain ⟨scheme', hs', hmost⟩ := Table.Rel.get?_right hfit.atMost hs₁
  refine ⟨scheme', hs', fun t ht => (hmost.instances t (hle₁ t ht)).congr fun v hv => ?_⟩
  exact absurd (Env.mem_freeVars.2 ⟨scheme', Table.mem_values_of_get? hs', hv⟩) (hclosed v)

/-- If an expression has a type in the first stage, it has one in the second, of which the first
is an instance. -/
theorem Stage.CarriesOver.infer (h : stage.CarriesOver ρ stage') (hr : rules.Proper)
    (he : Term.Alike ρ e e') {slot : Nat} {s : Subst} {t : Ty} {after : InferState}
    (hrun : Infer.infer rules e stage.env [slot] (.start stage.next) = .ok (s, t) after) :
    ∃ s' t' after',
      Infer.infer rules e' stage'.env [slot] (.start stage'.next) = .ok (s', t') after' ∧
        ∃ g : Int → Ty, t = t'.subst g := by
  have hi := (Infer.sound hr e stage.env [slot] stage.next h.settled.below).of_ok rfl hrun
  have ht := HasType.alike hr (hi.of_closed h.settled.below h.settled.closed) he h.along
  rw [Ty.subst_var_self] at ht
  obtain ⟨⟨s', t'⟩, after', hrun', -, g, -, -, heq⟩ :=
    (Infer.complete hr e' stage'.env [slot] stage'.next .var stage'.env t h.settled'.below
      (.of_closed h.settled'.closed) ht).exists_ok (s := .start stage'.next) rfl
  exact ⟨s', t', after', hrun', g, heq.symm⟩

/-! ## Failed items -/

/-- Items that are the same up to names declare the same types. -/
theorem declared?_of_alike (rules : Rules) (position : Position) (h : Term.AlikeItem ρ e e' ρ') :
    (declared? rules position e = none ∧ declared? rules position e' = none) ∨
      ∃ x x' step, declared? rules position e = some (x, step) ∧
        declared? rules position e' = some (x', step) ∧ ρ' = (x, x') :: ρ := by
  cases h with
  | discard _ => exact .inl ⟨rfl, rfl⟩
  | @letBinding _ x x' _ _ ascription _ _ =>
    cases ascription with
    | none => exact .inl ⟨rfl, rfl⟩
    | some t => exact .inr ⟨_, _, _, rfl, rfl, rfl⟩
  | @definition _ f f' params params' returns _ _ _ hp _ =>
    refine .inr ⟨_, _, _, rfl, ?_, rfl⟩
    simp only [declared?, signature, hp.resolveAll, hp.length_eq]

/-- What is declared has the same instances wherever it is read, and what is not declared leaves
nothing. -/
theorem recover_along {env env' : Env} (h : env.AtLeastAlong ρ .var env')
    (hc' : ∀ v, v ∉ env'.freeVars) (he : Term.AlikeItem ρ e e' ρ')
    (hskip : ¬ e.Declares rules.baseTypes → ∀ x x', e.boundName? = some x →
      e'.boundName? = some x' → ρ.Same x x' ∨ env.get? x = none) (slot : Nat)
    (n n' : Int) :
    Env.AtLeastAlong ρ' .var (recover rules [slot] e env n).1
      (recover rules [slot] e' env' n').1 := by
  by_cases hdeclares : e.Declares rules.baseTypes
  · obtain ⟨_, _, t, naming, hdeclared, hrun⟩ := (declares_iff rules [slot] e n).1 hdeclares
    rcases declared?_of_alike rules [slot] he with ⟨hnone, -⟩ | ⟨x, x', step, hd, hd', rfl⟩
    · rw [hnone] at hdeclared
      cases hdeclared
    · have htwice := declared?_alike .plain rules slot slot e
      rw [hd] at hdeclared htwice
      obtain ⟨rfl, rfl⟩ := Prod.mk.inj (Option.some.inj hdeclared)
      unfold recover
      rw [hd, hd']
      cases htwice with
      | some htracks =>
        have hend := htracks.2 (.between n n') ⟨n, Table.empty⟩ ⟨n', Table.empty⟩
          ⟨rfl, rfl, nofun, rfl, fun v hv => absurd hv List.not_mem_nil⟩
        simp only at hend ⊢
        rw [hrun] at hend ⊢
        generalize step ⟨n', Table.empty⟩ = r' at hend ⊢
        cases hend with
        | @ok q _ t' _ _ _ _ ht =>
          obtain rfl : t' = t.rename q.map := ht.eq
          exact h.insert x x' (Env.atLeast_generalize_rename hc' t q.injective)
  · rw [recover_of_not_declares hdeclares,
      recover_of_not_declares fun hd => hdeclares (he.symm.declares hd)]
    rcases he.names with ⟨-, -, rfl⟩ | ⟨x, x', hx, hx', rfl⟩
    · exact h
    · exact h.skip (hskip hdeclares x x' hx hx')

/-- An item stays unbound if it is wrong and declares no type. -/
def Unbound (rules : Rules) (e : Term) (report : Report) : Prop :=
  report.error?.isNone = false ∧ ¬ e.Declares rules.baseTypes

/-- The second stage still says at least what the first one says after an item that passes in both
or fails in both, unless the item stays unbound, its name is bound already and its two names belong
to different binders so far. -/
theorem Stage.CarriesOver.next (h : stage.CarriesOver ρ stage') (hr : rules.Proper)
    (he : Term.AlikeItem ρ e e' ρ') {resilient : Bool} {slot : Nat} {report report' : Report}
    {next next' : Stage} (hi : inspect rules resilient e slot stage = .ok (report, next))
    (hi' : inspect rules resilient e' slot stage' = .ok (report', next'))
    (hsame : report'.error?.isNone = report.error?.isNone)
    (hgo : (resilient || report.error?.isNone) = true)
    (hskip : Unbound rules e report → ∀ x x', e.boundName? = some x → e'.boundName? = some x' →
      ρ.Same x x' ∨ stage.env.get? x = none) :
    next.CarriesOver ρ' next' := by
  refine ⟨h.settled.next hr hi, h.settled'.next hr hi', ?_⟩
  rcases inspect_cases hi with ⟨s, env, after, types, hrun, rfl, rfl⟩ |
    ⟨error, after, hrun, rfl, rfl⟩
  · obtain ⟨s', env', after', hrun', hle⟩ := h.check hr he hrun
    rcases inspect_cases hi' with ⟨s₁, env₁, after₁, types₁, hrun₁, rfl, rfl⟩ |
      ⟨error₁, after₁, hrun₁, rfl, rfl⟩
    · rw [hrun'] at hrun₁
      cases hrun₁
      exact hle
    · rw [hrun'] at hrun₁
      cases hrun₁
  · rcases inspect_cases hi' with ⟨s₁, env₁, after₁, types₁, hrun₁, rfl, rfl⟩ |
      ⟨error₁, after₁, hrun₁, rfl, rfl⟩
    · cases hsame
    · obtain rfl : resilient = true := by simpa [failed, Report.error?] using hgo
      exact recover_along h.along h.settled'.closed he (fun hd => hskip ⟨rfl, hd⟩) slot _ _

/-! ## Whole programs -/

theorem Stage.CarriesOver.isNone (h : stage.CarriesOver ρ stage') (hr : rules.Proper)
    (he : Term.AlikeItem ρ e e' ρ') {resilient : Bool} {slot : Nat} {report report' : Report}
    {next next' : Stage} (hi : inspect rules resilient e slot stage = .ok (report, next))
    (hi' : inspect rules resilient e' slot stage' = .ok (report', next'))
    (hnone : report.error?.isNone = true) : report'.error?.isNone = true := by
  rcases inspect_cases hi with ⟨s, env, after, types, hrun, -, -⟩ | ⟨error, after, -, rfl, -⟩
  · obtain ⟨s', env', after', hrun', -⟩ := h.check hr he hrun
    rcases inspect_cases hi' with ⟨_, _, _, _, -, rfl, -⟩ | ⟨error, after, hrun₁, -, -⟩
    · rfl
    · rw [hrun'] at hrun₁
      cases hrun₁
  · cases hnone

/-- A stage binds no names but these. -/
def Stage.BindsOnly (taken : List String) (stage : Stage) : Prop :=
  ∀ x, x ∉ taken → stage.env.get? x = none

theorem Stage.BindsOnly.next {taken : List String} (h : stage.BindsOnly taken) (hr : rules.Proper)
    (hs : stage.Settled) {resilient : Bool} {slot : Nat} {report : Report} {next : Stage}
    (hi : inspect rules resilient e slot stage = .ok (report, next)) :
    next.BindsOnly (e.boundName?.toList ++ taken) := by
  intro x hx
  rw [List.mem_append, not_or] at hx
  rw [(inspect_entered hr hs hi).2.get? (by simpa using hx.1)]
  exact h x hx.2

theorem Stage.BindsOnly.unbound {taken : List String} (h : stage.BindsOnly taken)
    {resilient : Bool} {slot : Nat} {report : Report} {next : Stage}
    (hi : inspect rules resilient e slot stage = .ok (report, next))
    (hu : Unbound rules e report) : next.BindsOnly taken := by
  rcases inspect_cases hi with ⟨s, env, after, types, -, rfl, -⟩ | ⟨error, after, -, -, rfl⟩
  · cases hu.1
  · intro x hx
    cases resilient with
    | false => exact h x hx
    | true =>
      rw [if_pos rfl, recover_of_not_declares hu.2]
      exact h x hx

/-- The items that stay unbound do no harm: the two names of each belong to the same binder so far,
or neither is bound by an item before it. -/
def Harmless : Scoping → List String → List String → List (Option String × Option String) →
    List Prop → Prop
  | ρ, taken, taken', name :: names, unbound :: more =>
    (unbound →
        (∀ x x', name = (some x, some x') → ρ.Same x x' ∨ x ∉ taken ∧ x' ∉ taken') ∧
          Harmless (ρ.behind name) taken taken' names more) ∧
      (¬ unbound →
        Harmless (ρ.behind name) (name.1.toList ++ taken) (name.2.toList ++ taken') names more)
  | _, _, _, _, _ => True

theorem unbound_alike (he : Term.AlikeItem ρ e e' ρ') {report report' : Report}
    (hsame : report'.error?.isNone = report.error?.isNone) :
    Unbound rules e' report' ↔ Unbound rules e report := by
  unfold Unbound
  rw [hsame]
  exact and_congr_right fun _ => not_congr ⟨he.symm.declares, he.declares⟩

/-- Two stages that say the same still do after an item, unless it stays unbound, one of its names
is bound already and they belong to different binders so far. -/
theorem inspect_carryOver (hr : rules.Proper) (h : stage.CarriesOver ρ stage')
    (h' : stage'.CarriesOver ρ.flip stage) {taken taken' : List String} (hb : stage.BindsOnly taken)
    (hb' : stage'.BindsOnly taken') (he : Term.AlikeItem ρ e e' ρ') {resilient : Bool} {slot : Nat}
    {report report' : Report} {next next' : Stage}
    (hi : inspect rules resilient e slot stage = .ok (report, next))
    (hi' : inspect rules resilient e' slot stage' = .ok (report', next'))
    (hsame : report'.error?.isNone = report.error?.isNone)
    (hgo : (resilient || report.error?.isNone) = true)
    (hskip : Unbound rules e report → ∀ x x', e.boundName? = some x → e'.boundName? = some x' →
      ρ.Same x x' ∨ x ∉ taken ∧ x' ∉ taken') :
    next.CarriesOver ρ' next' ∧ next'.CarriesOver ρ'.flip next := by
  constructor
  · refine h.next hr he hi hi' hsame hgo fun hu x x' hx hx' => ?_
    exact (hskip hu x x' hx hx').imp_right fun hfree => hb x hfree.1
  · refine h'.next hr he.symm hi' hi hsame.symm (by rwa [hsame]) fun hu x' x hx' hx => ?_
    have hfree := hskip ((unbound_alike he hsame).1 hu) x x' hx hx'
    exact hfree.imp Scoping.Same.flip fun hfree => hb' x' hfree.2

/-- Two checks of items that are the same up to names go through side by side. -/
theorem reports_carryOver (hr : rules.Proper) {es es' : List Term} (h : stage.CarriesOver ρ stage')
    (h' : stage'.CarriesOver ρ.flip stage) {taken taken' : List String} (hb : stage.BindsOnly taken)
    (hb' : stage'.BindsOnly taken') (he : Term.AlikeItems ρ es es' ρ') {resilient : Bool}
    {slot : Nat} {rs rs' : List Report} {last last' : Stage} {through through' : Bool}
    (hrun : reports rules resilient es slot stage = .ok (rs, last, through))
    (hrun' : reports rules resilient es' slot stage' = .ok (rs', last', through'))
    (hharmless : resilient = true →
      Harmless ρ taken taken' (Term.itemNames es es') (es.zipWith (Unbound rules) rs)) :
    through' = through ∧
      (through = true → last.CarriesOver ρ' last' ∧ last'.CarriesOver ρ'.flip last) := by
  induction es generalizing es' ρ stage stage' slot rs rs' taken taken' with
  | nil =>
    cases he
    cases hrun
    cases hrun'
    exact ⟨rfl, fun _ => ⟨h, h'⟩⟩
  | cons e es ih =>
    cases he with
    | @cons _ ρ₁ _ _ e' _ es' he hes =>
      obtain ⟨report, next, hi, hrest⟩ := reports_cons_cases hrun
      obtain ⟨report', next', hi', hrest'⟩ := reports_cons_cases hrun'
      have hsame : report'.error?.isNone = report.error?.isNone :=
        Bool.eq_iff_iff.2 ⟨h'.isNone hr he.symm hi' hi, h.isNone hr he hi hi'⟩
      rw [hsame] at hrest'
      rcases hrest with ⟨hgo, more, rfl, hmore⟩ | ⟨hgo, rfl, rfl, rfl⟩
      · rcases hrest' with ⟨-, more', rfl, hmore'⟩ | ⟨hstop, -⟩
        · -- an item that stays unbound has failed, so the check goes on after errors
          have hfails : Unbound rules e report → resilient = true := fun hu => by
            simpa [hu.1] using hgo
          obtain ⟨hnext, hnext'⟩ := inspect_carryOver hr h h' hb hb' he hi hi' hsame hgo
            fun hu x x' hx hx' => ((hharmless (hfails hu)).1 hu).1 x x' (Prod.ext hx hx')
          obtain rfl := he.behind
          by_cases hu : Unbound rules e report
          · have hu' := (unbound_alike he hsame).2 hu
            exact ih hnext hnext' (hb.unbound hi hu) (hb'.unbound hi' hu') hes hmore hmore'
              fun hres => ((hharmless hres).1 hu).2
          · exact ih hnext hnext' (hb.next hr h.settled hi) (hb'.next hr h'.settled hi') hes hmore
              hmore' fun hres => (hharmless hres).2 hu
        · rw [hgo] at hstop
          cases hstop
      · rcases hrest' with ⟨hgo', -⟩ | ⟨-, -, -, rfl⟩
        · rw [hgo] at hgo'
          cases hgo'
        · exact ⟨rfl, nofun⟩

theorem finish_cases (hr : rules.Proper) (hs : stage.Settled) {slot : Nat} {last : List Report}
    {t : Option Ty} (h : finish rules slot stage (some e) = .ok (last, t)) :
    (∃ s u after, Infer.infer rules e stage.env [slot] (.start stage.next) = .ok (s, u) after ∧
        t = some u) ∨
      ∃ error after, Infer.infer rules e stage.env [slot] (.start stage.next) =
        .error (.typeError error) after ∧ t = none := by
  rw [finish] at h
  rcases hrun : Infer.infer rules e stage.env [slot] (.start stage.next) with
    ⟨⟨s, u⟩, after⟩ | ⟨failure, after⟩
  · have hi := (Infer.sound hr e stage.env [slot] stage.next hs.below).of_ok rfl hrun
    rw [hrun] at h
    -- the substitution of the answer has no effect on its type
    have hfinal : s.expand? u = some u := by
      rw [hi.tidy.solved.expand? u, Subst.subst_of_not_mem fun v hv => (hi.leaves v hv).2]
    simp only [finalTypes_eq_ok hi.tidy.solved, hfinal, bind, Except.bind, Except.ok.injEq,
      Prod.mk.injEq] at h
    exact .inl ⟨s, u, after, rfl, h.2.symm⟩
  · rw [hrun] at h
    cases failure with
    | typeError error => exact .inr ⟨error, after, rfl, (Prod.mk.inj (Except.ok.inj h)).2.symm⟩
    | cyclic | notExpression _ | notStatement _ | malformed _ _ => cases h

/-- The last expressions of two programs have the same type, or both have none. -/
theorem finish_carryOver (hr : rules.Proper) (h : stage.CarriesOver ρ stage')
    (h' : stage'.CarriesOver ρ.flip stage) {o o' : Option Term}
    (he : Option.Rel (Term.Alike ρ) o o') {slot : Nat} {last last' : List Report} {t t' : Option Ty}
    (hrun : finish rules slot stage o = .ok (last, t))
    (hrun' : finish rules slot stage' o' = .ok (last', t')) :
    Option.Rel (Renamed Ty.rename) t t' := by
  cases he with
  | none =>
    cases hrun
    cases hrun'
    exact .some ⟨id, Function.injective_id, rfl⟩
  | some he =>
    rcases finish_cases hr h.settled hrun with ⟨s, u, after, hu, rfl⟩ | ⟨error, after, hu, rfl⟩
    · obtain ⟨s', u', after', hu', g, hg⟩ := h.infer hr he hu
      obtain ⟨s₁, u₁, after₁, hu₁, f, hf⟩ := h'.infer hr he.symm hu'
      rw [hu] at hu₁
      cases hu₁
      rcases finish_cases hr h.settled' hrun' with ⟨_, _, _, hu₂, rfl⟩ | ⟨_, _, hu₂, -⟩
      · rw [hu'] at hu₂
        cases hu₂
        exact .some (Ty.renamed_of_instances hf hg)
      · rw [hu'] at hu₂
        cases hu₂
    · rcases finish_cases hr h.settled' hrun' with ⟨_, _, _, hu', -⟩ | ⟨_, _, -, rfl⟩
      · obtain ⟨_, _, _, hu₁, -⟩ := h'.infer hr he.symm hu'
        rw [hu] at hu₁
        cases hu₁
      · exact .none

theorem slot?_of_inspect (hr : rules.Proper) (hs : stage.Settled) {resilient : Bool} {slot : Nat}
    {report : Report} {next : Stage}
    (hi : inspect rules resilient e slot stage = .ok (report, next)) {error : TypeError}
    (herror : report.error? = some error) : error.slot? = some slot := by
  have hself : Outcomes _ (inspect rules resilient e slot stage)
      (inspect rules resilient e slot stage) :=
    inspect_alike hr resilient (fun _ _ => id) slot slot hs.alike_self
  rw [hi] at hself
  cases hself with
  | ok hab =>
    have hrel := hab.1.rel_error? fun _ error _ _ he => he.slots.1
    rw [herror] at hrel
    cases hrel with
    | some hslot => exact hslot

/-- The error of an item is put down to its slot. -/
theorem slot?_of_reports (hr : rules.Proper) (hs : stage.Settled) {resilient : Bool}
    {es : List Term} {slot : Nat} {rs : List Report} {last : Stage} {through : Bool}
    (hrun : reports rules resilient es slot stage = .ok (rs, last, through)) {k : Nat}
    {report : Report} (hk : rs[k]? = some report) {error : TypeError}
    (herror : report.error? = some error) : error.slot? = some (slot + k) := by
  induction es generalizing stage slot rs k with
  | nil =>
    cases hrun
    cases hk
  | cons e es ih =>
    obtain ⟨first, next, hi, ⟨-, rest, rfl, hmore⟩ | ⟨-, rfl, -, -⟩⟩ := reports_cons_cases hrun
    · cases k with
      | zero =>
        cases hk
        exact slot?_of_inspect hr hs hi herror
      | succ k =>
        rw [ih (hs.next hr hi) hmore hk, Nat.add_assoc, Nat.add_comm 1]
    · cases k with
      | zero =>
        cases hk
        exact slot?_of_inspect hr hs hi herror
      | succ k => cases hk

theorem slot?_of_finish (hr : rules.Proper) (hs : stage.Settled) {slot : Nat} {o : Option Term}
    {last : List Report} {t : Option Ty} (h : finish rules slot stage o = .ok (last, t))
    {error : TypeError} (herror : error ∈ last.filterMap Report.error?) :
    error.slot? = some slot := by
  have hself := finish_alike hr (e := o) (fun _ _ => id) slot slot hs.alike_self
  rw [h] at hself
  cases hself with
  | ok hab =>
    have herrors : List.Forall₂ (TypeError.InRows slot slot 1) _ _ := Report.errors_alike hab.1
    obtain ⟨i, hi, hslot, -⟩ := (List.forall₂_same.1 herrors error herror).slots
    rwa [Nat.lt_one_iff.1 hi] at hslot

/-- Items that stay unbound do no harm if each has names that belong to the same binder behind the
items before it, or that no bound item before it has. -/
theorem harmless_of_names {ρ : Scoping} {taken taken' : List String}
    {names : List (Option String × Option String)} {us : List Prop}
    (h : ∀ (k : Nat) x x', (∃ u, us[k]? = some u ∧ u) → names[k]? = some (some x, some x') →
      ((names.take k).foldl Scoping.behind ρ).Same x x' ∨
        x ∉ taken ∧ x' ∉ taken' ∧ ∀ j < k, ∀ name, names[j]? = some name →
          name.1 = some x ∨ name.2 = some x' → ∃ u, us[j]? = some u ∧ u) :
    Harmless ρ taken taken' names us := by
  induction names generalizing ρ taken taken' us with
  | nil => trivial
  | cons name names ih =>
    cases us with
    | nil => trivial
    | cons u us =>
      refine ⟨fun hu => ⟨fun x x' hname => ?_, ih fun k x x' hk hx => ?_⟩,
        fun hu => ih fun k x x' hk hx => ?_⟩
      · rcases h 0 x x' ⟨u, rfl, hu⟩ (congrArg some hname) with hsame | ⟨hx, hx', -⟩
        · exact .inl hsame
        · exact .inr ⟨hx, hx'⟩
      · rcases h (k + 1) x x' hk hx with hsame | ⟨hx, hx', hbefore⟩
        · exact .inl hsame
        · exact .inr ⟨hx, hx', fun j hj => hbefore (j + 1) (Nat.succ_lt_succ hj)⟩
      · rcases h (k + 1) x x' hk hx with hsame | ⟨hx, hx', hbefore⟩
        · exact .inl hsame
        · -- the item itself is bound, so it has neither name
          have hown : ¬ (name.1 = some x ∨ name.2 = some x') := fun hname => by
            obtain ⟨_, heq, hu'⟩ := hbefore 0 (Nat.succ_pos k) name rfl hname
            cases heq
            exact hu hu'
          refine .inr ⟨?_, ?_, fun j hj => hbefore (j + 1) (Nat.succ_lt_succ hj)⟩
          · simpa [hx] using fun hname => hown (.inl hname)
          · simpa [hx'] using fun hname => hown (.inr hname)

end Check

theorem Term.mem_binders_of_boundName? {e : Term} {x : String} (h : e.boundName? = some x)
    (position : Position) : (position, x) ∈ e.binders position := by
  cases e with
  | letBinding y value ascription l =>
    obtain rfl := Option.some.inj h
    exact List.mem_cons_self
  | definition f params returns body l =>
    obtain rfl := Option.some.inj h
    exact List.mem_cons_self
  | _ => cases h

theorem Term.mem_bindersAll_of_name (position : Position) (slot : Nat) {es : List Term} {k : Nat}
    {x : String} (h : es[k]?.bind Term.boundName? = some x) :
    ((slot + k) :: position, x) ∈ Term.bindersAll position slot es := by
  induction es generalizing slot k with
  | nil => cases h
  | cons e es ih =>
    rw [Term.bindersAll, List.mem_append]
    cases k with
    | zero => exact .inl (Term.mem_binders_of_boundName? h _)
    | succ k =>
      have hmem := ih (slot + 1) h
      rw [Nat.add_assoc, Nat.add_comm 1 k] at hmem
      exact .inr hmem

/-- A binder that gets another name is the item that it was. -/
theorem Term.boundName?_renamed (r : Rename) (called : String → String) (position : Position)
    (e : Term) :
    (e.renamed r called position).boundName? = e.boundName?.map (r.apply position) := by
  unfold Term.renamed
  split <;> rfl

theorem Term.boundName?_renamedItems (r : Rename) (called : String → String)
    (position : Position) (slot k : Nat) (es : List Term) :
    (Term.renamedItems r called position slot es)[k]?.bind Term.boundName? =
      (es[k]?.bind Term.boundName?).map (r.apply ((slot + k) :: position)) := by
  induction es generalizing called slot k with
  | nil => rfl
  | cons e es ih =>
    cases k with
    | zero => exact e.boundName?_renamed r called (slot :: position)
    | succ k =>
      have hrest := ih (r.after called (slot :: position) e) (slot + 1) k
      rw [Nat.add_assoc, Nat.add_comm 1 k] at hrest
      exact hrest

theorem Term.AlikeItems.length_eq {ρ ρ' : Scoping} {es es' : List Term}
    (h : Term.AlikeItems ρ es es' ρ') : es'.length = es.length := by
  induction es generalizing ρ es' with
  | nil =>
    cases h
    rfl
  | cons e es ih =>
    cases h with
    | cons _ hs => rw [List.length_cons, List.length_cons, ih hs]

namespace Program

variable {extraTypes : List String} {resilient : Bool} {seed : Int}

theorem reports_cases {p : Program} {env : Env} {rs : List Report} {t : Option Ty}
    (h : p.reports ⟨extraTypes, resilient, seed, env⟩ = .ok (rs, t)) :
    (∃ first stage last,
      Check.reports (.standard extraTypes) resilient p.statements 0 ⟨env, seed⟩ =
        .ok (first, stage, true) ∧
      Check.finish (.standard extraTypes) p.statements.length stage p.result = .ok (last, t) ∧
      rs = first ++ last) ∨
    ∃ stage, Check.reports (.standard extraTypes) resilient p.statements 0 ⟨env, seed⟩ =
        .ok (rs, stage, false) ∧ t = none := by
  unfold Program.reports at h
  rcases hfirst : Check.reports (.standard extraTypes) resilient p.statements 0 ⟨env, seed⟩ with
    failure | ⟨first, stage, through⟩
  · simp [hfirst, bind, Except.bind] at h
  · simp only [hfirst, bind, Except.bind] at h
    cases through with
    | false =>
      obtain ⟨rfl, rfl⟩ := Prod.mk.inj (Except.ok.inj h)
      exact .inr ⟨stage, rfl, rfl⟩
    | true =>
      rw [if_pos rfl] at h
      rcases hlast : Check.finish (.standard extraTypes) p.statements.length stage p.result with
        failure | ⟨last, u⟩
      · rw [hlast] at h
        cases h
      · rw [hlast] at h
        obtain ⟨rfl, rfl⟩ := Prod.mk.inj (Except.ok.inj h)
        exact .inl ⟨first, stage, last, rfl, hlast, rfl⟩

/-- The item in a slot stays unbound: it is wrong, and it declares no type. -/
def Unbound (p : Program) (extraTypes : List String) (errors : List TypeError) (slot : Nat) :
    Prop :=
  (∃ error ∈ errors, error.slot? = some slot) ∧
    ∃ e, p.statements[slot]? = some e ∧ ¬ e.Declares (Rules.standard extraTypes).baseTypes

/-- The name that the item in a slot binds. -/
def itemName? (p : Program) (slot : Nat) : Option String := p.statements[slot]?.bind Term.boundName?

/-- An item stays unbound, and the last bound item of its name before it comes into sight again. -/
structure Uncovers (p : Program) (unbound : Nat → Prop) (slot before : Nat) : Prop where
  lt : before < slot
  hollow : unbound slot
  older : ¬ unbound before
  named : ∃ x, p.itemName? slot = some x ∧ p.itemName? before = some x ∧
    ∀ between, before < between → between < slot → p.itemName? between = some x → unbound between

theorem unbound_iff {p : Program} {first last : List Report} {stage : Check.Stage} {t : Option Ty}
    (hfirst : Check.reports (.standard extraTypes) true p.statements 0 ⟨Table.empty, seed⟩ =
      .ok (first, stage, true)) (hs : stage.Settled)
    (hlast : Check.finish (.standard extraTypes) p.statements.length stage p.result =
      .ok (last, t)) (k : Nat) :
    p.Unbound extraTypes ((first ++ last).filterMap Report.error?) k ↔
      ∃ u, (p.statements.zipWith (Check.Unbound (.standard extraTypes)) first)[k]? = some u ∧
        u := by
  have hr := Rules.proper_standard extraTypes
  have hslot : ∀ {i : Nat} {report error}, first[i]? = some report → report.error? = some error →
      error.slot? = some i := by
    intro i report error hi herror
    rw [Check.slot?_of_reports hr (Check.settled_empty seed) hfirst hi herror, Nat.zero_add]
  rw [List.filterMap_append]
  constructor
  · rintro ⟨⟨error, hmem, hk⟩, e, he, hd⟩
    rcases List.mem_append.1 hmem with hmem | hmem
    · obtain ⟨report, hreport, herror⟩ := List.mem_filterMap.1 hmem
      obtain ⟨i, hi⟩ := List.mem_iff_getElem?.1 hreport
      obtain rfl : i = k := Option.some.inj ((hslot hi herror).symm.trans hk)
      refine ⟨Check.Unbound (.standard extraTypes) e report, ?_, ?_, hd⟩
      · simp [List.getElem?_zipWith, he, hi]
      · rw [herror]
        rfl
    · rw [Check.slot?_of_finish hr hs hlast hmem] at hk
      obtain rfl := Option.some.inj hk
      simp at he
  · rintro ⟨u, hu, hunbound⟩
    obtain ⟨e, report, he, hreport, rfl⟩ := List.getElem?_zipWith_eq_some.1 hu
    obtain ⟨error, herror⟩ : ∃ error, report.error? = some error := by
      simpa [Option.isSome_iff_exists] using hunbound.1
    refine ⟨⟨error, ?_, hslot hreport herror⟩, e, he, hunbound.2⟩
    exact List.mem_append_left _
      (List.mem_filterMap.2 ⟨report, List.mem_of_getElem? hreport, herror⟩)

theorem mem_binders_of_name {p : Program} {k : Nat} {x : String} (h : p.itemName? k = some x) :
    ([k], x) ∈ p.binders := by
  have hitems := Term.mem_bindersAll_of_name [] 0 h
  rw [Nat.zero_add] at hitems
  obtain ⟨statements, result, file, l⟩ := p
  cases result with
  | none => exact hitems
  | some e => exact List.mem_append_left _ hitems

theorem itemName?_renamed (p : Program) (r : Rename) (k : Nat) :
    (p.renamed r).itemName? k = (p.itemName? k).map (r.apply [k]) := by
  have hitems := Term.boundName?_renamedItems r id [] 0 k p.statements
  rwa [Nat.zero_add] at hitems

theorem eq_of_itemNames {p q : Program} {k : Nat} {name : Option String × Option String}
    (h : (Term.itemNames p.statements q.statements)[k]? = some name) :
    name = (p.itemName? k, q.itemName? k) := by
  obtain ⟨e, e', he, he', rfl⟩ := List.getElem?_zipWith_eq_some.1 h
  rw [itemName?, itemName?, he, he']
  rfl

/-- Programs that are the same up to names have the same type, or both have none. -/
theorem Alike.types {p p' : Program} {ρ : Scoping} (h : p.Alike p' ρ) (hp : p.InPlace)
    {rs rs' : List Report} {t t' : Option Ty}
    (hrs : p.reports ⟨extraTypes, resilient, seed, Table.empty⟩ = .ok (rs, t))
    (hrs' : p'.reports ⟨extraTypes, resilient, seed, Table.empty⟩ = .ok (rs', t'))
    (hharmless : resilient = true → ∀ us : List Prop,
      (∀ k, p.Unbound extraTypes (rs.filterMap Report.error?) k ↔ ∃ u, us[k]? = some u ∧ u) →
        Check.Harmless [] [] [] (Term.itemNames p.statements p'.statements) us) :
    Option.Rel (Renamed Ty.rename) t t' := by
  have hr := Rules.proper_standard extraTypes
  have hempty : Check.Stage.BindsOnly [] ⟨Table.empty, seed⟩ := fun _ _ => rfl
  have hstart : ∀ ρ, Check.Stage.CarriesOver ρ ⟨Table.empty, seed⟩ ⟨Table.empty, seed⟩ := fun ρ =>
    ⟨Check.settled_empty seed, Check.settled_empty seed, .empty ρ .var⟩
  rcases reports_cases hrs with ⟨first, stage, last, hfirst, hlast, rfl⟩ | ⟨stage, hfirst, rfl⟩
  · have hharmless : resilient = true → Check.Harmless [] [] []
        (Term.itemNames p.statements p'.statements)
        (p.statements.zipWith (Check.Unbound (.standard extraTypes)) first) := fun hres => by
      subst hres
      obtain ⟨_, _, hreports, hs⟩ := Check.exists_reports_resilient hr (Check.settled_empty seed)
        hp.statements 0
      rw [hfirst] at hreports
      cases hreports
      exact hharmless rfl _ (unbound_iff hfirst hs hlast)
    rcases reports_cases hrs' with ⟨first', stage', last', hfirst', hlast', -⟩ |
      ⟨stage', hfirst', rfl⟩
    · obtain ⟨-, hfollow⟩ := Check.reports_carryOver hr (hstart []) (hstart []) hempty hempty
        h.statements hfirst hfirst' hharmless
      rw [h.statements.length_eq] at hlast'
      exact Check.finish_carryOver hr (hfollow rfl).1 (hfollow rfl).2 h.result hlast hlast'
    · cases (Check.reports_carryOver hr (hstart []) (hstart []) hempty hempty h.statements hfirst
        hfirst' hharmless).1
  · have hstops : resilient ≠ true := fun hres => by
      subst hres
      cases Check.through_of_resilient hfirst
    rcases reports_cases hrs' with ⟨first', stage', last', hfirst', hlast', -⟩ |
      ⟨stage', hfirst', rfl⟩
    · cases (Check.reports_carryOver hr (hstart []) (hstart []) hempty hempty h.statements hfirst
        hfirst' fun hres => absurd hres hstops).1
    · exact .none

end Program

/-- The last number below a bound that has a property. -/
theorem exists_last {P : Nat → Prop} {k : Nat} (h : ∃ j < k, P j) :
    ∃ b < k, P b ∧ ∀ i, b < i → i < k → ¬ P i := by
  classical
  obtain ⟨j, hj, hPj⟩ := h
  have hspec : P (Nat.findGreatest P (k - 1)) := Nat.findGreatest_spec (by omega) hPj
  have hle := Nat.findGreatest_le (P := P) (k - 1)
  exact ⟨_, by omega, hspec, fun i hi hik => Nat.findGreatest_is_greatest hi (by omega)⟩

namespace Rename

variable {r : Rename} {place other : Position} {x z : String}

theorem apply_of_ne (h : r.target ≠ place) (x : String) : r.apply place x = x := if_neg h.symm

/-- Only a binder that keeps its name has an old name. -/
theorem apply_eq_iff (hz : z ≠ r.name) : r.apply place x = z ↔ r.target ≠ place ∧ x = z := by
  by_cases hplace : place = r.target
  · simp [apply, hplace, hz.symm]
  · simp [apply, hplace, Ne.symm hplace]

/-- Two binders with one name had one name before. -/
theorem eq_of_apply_eq (hne : place ≠ other) (hx : x ≠ r.name) (hz : z ≠ r.name)
    (h : r.apply place x = r.apply other z) : x = z := by
  by_cases hother : r.target = other
  · rw [apply_of_ne (fun hplace => hne (hplace.symm.trans hother)), apply, if_pos hother.symm] at h
    exact absurd h hx
  · rw [apply_of_ne hother] at h
    exact ((apply_eq_iff hz).1 h).2

end Rename

namespace Program

variable {p : Program} {r : Rename} {unbound : Nat → Prop} {x : String} {b k : Nat}

/-- The last bound item of a name is uncovered by every item of the name that comes after it. -/
theorem uncovers_of_last (hbx : p.itemName? b = some x) (hbound : ¬ unbound b)
    (hlast : ∀ m, b < m → m < k → p.itemName? m = some x → unbound m) {i : Nat} (hbi : b < i)
    (hik : i < k) (hix : p.itemName? i = some x) : p.Uncovers unbound i b :=
  ⟨hbi, hlast i hbi hik hix, hbound, x, hix, hbx, fun m hbm hmi => hlast m hbm (hmi.trans hik)⟩

theorem itemNames_renamed {name : Option String × Option String}
    (h : (Term.itemNames p.statements (p.renamed r).statements)[k]? = some name) :
    name = (p.itemName? k, (p.itemName? k).map (r.apply [k])) := by
  rw [eq_of_itemNames h, itemName?_renamed]

/-- Behind an item that is not renamed, its name belongs to it in both programs, as long as no item
since that has the name is. -/
theorem same_behind_renamed (hnew : x ≠ r.name) (hb : r.target ≠ [b])
    (hbx : p.itemName? b = some x)
    (hsince : ∀ m, b < m → m < k → p.itemName? m = some x → r.target ≠ [m]) (hbk : b < k)
    (hk : k ≤ (Term.itemNames p.statements (p.renamed r).statements).length) :
    (((Term.itemNames p.statements (p.renamed r).statements).take k).foldl Scoping.behind []).Same
      x x := by
  have hget := List.getElem?_eq_getElem (Nat.lt_of_lt_of_le hbk hk)
  rw [itemNames_renamed hget, hbx, Option.map_some, Rename.apply_of_ne hb] at hget
  refine Scoping.same_behind hget hbk fun m hbm hmk name hm => ?_
  rw [itemNames_renamed hm, Option.map_eq_some_iff]
  constructor
  · intro hmx
    exact ⟨x, hmx, Rename.apply_of_ne (hsince m hbm hmk hmx) x⟩
  · rintro ⟨z, hz, heq⟩
    rw [hz, ((Rename.apply_eq_iff hnew).1 heq).2]

/-- A binder may get another name without harm, unless it is an item that stays unbound and
uncovers an older one of its name, or the item that comes into sight again. -/
theorem harmless_renamed (hunbound : ∀ b ∈ p.binders, b.2 ≠ r.name) {us : List Prop}
    (hus : ∀ k, unbound k ↔ ∃ u, us[k]? = some u ∧ u)
    (h : ∀ slot before, p.Uncovers unbound slot before →
      r.target ≠ [slot] ∧ r.target ≠ [before]) :
    Check.Harmless [] [] [] (Term.itemNames p.statements (p.renamed r).statements) us := by
  have hnew : ∀ {j z}, p.itemName? j = some z → z ≠ r.name := fun hz =>
    hunbound _ (mem_binders_of_name hz)
  refine Check.harmless_of_names fun k x x' hk hxx' => ?_
  rw [← hus] at hk
  obtain ⟨hx, hx'⟩ := Prod.mk.inj (itemNames_renamed hxx')
  have hx := hx.symm
  obtain rfl : r.apply [k] x = x' := by simpa [hx] using hx'.symm
  by_cases hbound : ∃ j < k, p.itemName? j = some x ∧ ¬ unbound j
  · -- the last bound item of the name keeps it, and no item in between gives it up
    obtain ⟨b, hbk, ⟨hbx, hbound⟩, hlast⟩ := exists_last hbound
    have hlast : ∀ m, b < m → m < k + 1 → p.itemName? m = some x → unbound m :=
      fun m hbm hmk hmx => by
        rcases Nat.lt_succ_iff_lt_or_eq.1 hmk with hmk | rfl
        · exact by_contra fun hu => hlast m hbm hmk ⟨hmx, hu⟩
        · exact hk
    have hkept := fun m hbm hmk hmx => h m b (uncovers_of_last hbx hbound hlast hbm hmk hmx)
    obtain ⟨hother, hother'⟩ := hkept k hbk (Nat.lt_succ_self k) hx
    rw [Rename.apply_of_ne hother]
    exact .inl (same_behind_renamed (hnew hx) hother' hbx
      (fun m hbm hmk hmx => (hkept m hbm (Nat.lt_succ_of_lt hmk) hmx).1) hbk
      (Nat.le_of_lt (List.getElem?_eq_some_iff.1 hxx').1))
  · -- no item before it with the name is bound, in either program
    have hnone : ∀ j < k, p.itemName? j = some x → unbound j := fun j hj hjx =>
      by_contra fun hu => hbound ⟨j, hj, hjx, hu⟩
    refine .inr ⟨List.not_mem_nil, List.not_mem_nil, fun j hj name hname hor => ?_⟩
    rw [← hus]
    rw [itemNames_renamed hname] at hor
    rcases hor with hjx | hjx
    · exact hnone j hj hjx
    · obtain ⟨z, hz, heq⟩ := Option.map_eq_some_iff.1 hjx
      have hne : [j] ≠ [k] := by simpa using Nat.ne_of_lt hj
      obtain rfl := Rename.eq_of_apply_eq hne (hnew hz) (hnew hx) heq
      exact hnone j hj hz

end Program

/-- The names of binders do not matter: if a binder other than `main` gets another name that does
not occur in the program, together with the names that belong to it, then the program runs to the
same outcome, and it passes the check if it did. It also has the same type up to the numbers of
variables, unless a check that goes on after errors comes to an item that is wrong and declares no
type, which uncovers an older item of its name, and the binder is one of the two. -/
theorem the_names_of_binders_do_not_matter (p : Program) (r : Rename) (hplace : p.InPlace)
    (htarget : (r.target, "main") ∉ p.binders) (hmain : r.name ≠ "main")
    (hunused : r.name ∉ Term.identifiersAll (p.statements ++ p.result.toList))
    (hunbound : ∀ b ∈ p.binders, b.2 ≠ r.name) :
    (∀ depth, (p.renamed r).outcome depth = p.outcome depth) ∧
    ∀ (extraTypes : List String) (resilient : Bool) (seed : Int), ∃ c c',
      p.check ⟨extraTypes, resilient, seed, Table.empty⟩ = .ok c ∧
      (p.renamed r).check ⟨extraTypes, resilient, seed, Table.empty⟩ = .ok c' ∧
      c'.ok = c.ok ∧
      ((resilient = true → ∀ slot before, p.Uncovers (p.Unbound extraTypes c.errors) slot before →
          r.target ≠ [slot] ∧ r.target ≠ [before]) →
        Option.Rel (Renamed Ty.rename) c.programType c'.programType) := by
  obtain ⟨ρ, h⟩ := Program.alike_renamed hplace htarget hmain hunused hunbound
  refine ⟨h.outcome_eq, fun extraTypes resilient seed => ?_⟩
  obtain ⟨rs, t, hrs⟩ := Program.exists_reports hplace extraTypes resilient seed
  obtain ⟨rs', t', hrs'⟩ := Program.exists_reports (h.inPlace hplace) extraTypes resilient seed
  have hc := Program.check_of_reports hrs
  have hc' := Program.check_of_reports hrs'
  refine ⟨_, _, hc, hc', ?_, fun hother => h.types hplace hrs hrs' fun hres us hus => ?_⟩
  · rw [Bool.eq_iff_iff]
    exact ⟨Program.ok_of_alike h.symm rfl hc' hc, Program.ok_of_alike h rfl hc hc'⟩
  · have hother := hother hres
    rw [Checked.errors_ofReports] at hother
    exact Program.harmless_renamed hunbound hus hother

/-- `let x = 2; def f(a) { let g = \y -> a + y; let x = true; if x { g(1) } else { 0 } } f(x)`,
with the given name for `a` -/
def shadowingProgram (a : String) : Program where
  statements :=
    [.letBinding "x" (.number 2 none) none none,
     .definition "f" [⟨a, none, none⟩] none
      (.block
        [.letBinding "g" (.lambda [⟨"y", none, none⟩]
          (.binary (.name a none) "+" (.name "y" none) none) none) none none,
         .letBinding "x" (.boolean true none) none none]
        (some (.conditional (.name "x" none)
          (.block [] (some (.call (.name "g" none) [.number 1 none] none)) none)
          (.block [] (some (.number 0 none)) none) none)) none) none]
  result := some (.call (.name "f" none) [.name "x" none] none)
  file := ""
  location := none

theorem inPlace_shadowingProgram (a : String) : (shadowingProgram a).InPlace := by
  refine ⟨fun e he => ?_, fun e he => ?_⟩
  · simp only [shadowingProgram, List.mem_cons, List.not_mem_nil, or_false] at he
    rcases he with rfl | rfl
    · exact .letBinding .number
    · refine .definition (.block (fun e he => ?_) ?_)
      · simp only [List.mem_cons, List.not_mem_nil, or_false] at he
        rcases he with rfl | rfl
        · exact .letBinding (.lambda (.binary .name .name))
        · exact .letBinding .boolean
      · exact .conditional .name (.block nofun (.call .name (by simpa using .number)))
          (.block nofun .number)
  · obtain rfl := Option.some.inj he
    exact .call .name (by simpa using .name)

/-- A parameter that hides one `x` and is hidden by another, and is seen by a function made in
between. -/
theorem the_names_of_binders_do_not_matter_where_one_hides_another :
    (shadowingProgram "x").InPlace ∧
    ([0, 1], "x") ∈ (shadowingProgram "x").binders ∧
    ([0, 1], "main") ∉ (shadowingProgram "x").binders ∧
    "z" ∉ Term.identifiersAll
      ((shadowingProgram "x").statements ++ (shadowingProgram "x").result.toList) ∧
    (∀ b ∈ (shadowingProgram "x").binders, b.2 ≠ "z") ∧
    (shadowingProgram "x").renamed ⟨[0, 1], "z"⟩ = shadowingProgram "z" ∧
    (shadowingProgram "z").outcome 2 = .ok (.number 3) ∧
    ∃ c c',
      (shadowingProgram "x").check ⟨[], true, 0, Table.empty⟩ = .ok c ∧
      (shadowingProgram "z").check ⟨[], true, 0, Table.empty⟩ = .ok c' ∧
      c.programType = some .number ∧ c'.ok = true ∧
      Option.Rel (Renamed Ty.rename) c.programType c'.programType := by
  have hplace := inPlace_shadowingProgram "x"
  have htarget : ([0, 1], "main") ∉ (shadowingProgram "x").binders := by decide
  have hunused : "z" ∉ Term.identifiersAll
      ((shadowingProgram "x").statements ++ (shadowingProgram "x").result.toList) := by decide
  have hunbound : ∀ b ∈ (shadowingProgram "x").binders, b.2 ≠ "z" := by decide
  have hrenamed : (shadowingProgram "x").renamed ⟨[0, 1], "z"⟩ = shadowingProgram "z" := rfl
  have hrun : (shadowingProgram "x").outcome 2 = .ok (.number 3) := by cbv
  have hcheck : ((shadowingProgram "x").check ⟨[], true, 0, Table.empty⟩).toOption.map
      (fun c => (c.errors, c.programType)) = some ([], some .number) := by cbv
  obtain ⟨houtcome, htypes⟩ := the_names_of_binders_do_not_matter (shadowingProgram "x")
    ⟨[0, 1], "z"⟩ hplace htarget (by decide) hunused hunbound
  rw [hrenamed] at houtcome htypes
  obtain ⟨c, c', hc, hc', hok, htype⟩ := htypes [] true 0
  rw [hc] at hcheck
  obtain ⟨herrors, hnumber⟩ := Prod.mk.inj (Option.some.inj hcheck)
  refine ⟨hplace, by decide, htarget, hunused, hunbound, hrenamed, (houtcome 2).trans hrun, c, c',
    hc, hc', hnumber, ?_, htype fun _ slot before _ => by simp⟩
  rw [hok, Checked.ok, herrors]
  rfl

/-! ## A name that is taken twice -/

/-- `let x = 1; let y = true + 1; y`, with the given names for `x` and `y` -/
def retakingProgram (x y : String) : Program where
  statements :=
    [.letBinding x (.number 1 none) none none,
     .letBinding y (.binary (.boolean true none) "+" (.number 1 none) none) none none]
  result := some (.name y none)
  file := ""
  location := none

theorem inPlace_retakingProgram (x y : String) : (retakingProgram x y).InPlace := by
  refine ⟨fun e he => ?_, fun e he => ?_⟩
  · simp only [retakingProgram, List.mem_cons, List.not_mem_nil, or_false] at he
    rcases he with rfl | rfl
    · exact .letBinding .number
    · exact .letBinding (.binary .boolean .number)
  · obtain rfl := Option.some.inj he
    exact .name

/-- What the first item binds. -/
def olderEnv (x : String) : Env := Table.empty.insert x (.mono .number)

/-- The second item fails and binds nothing, so the older binding is all there is. -/
theorem env_of_retakingProgram {x y : String} {first : List Report} {stage : Check.Stage}
    {through : Bool} (h : Check.reports (.standard []) true (retakingProgram x y).statements 0
      ⟨Table.empty, 0⟩ = .ok (first, stage, through)) : stage.env = olderEnv x := by
  have hpasses : answer? (Infer.check (.standard [])
      (.letBinding x (.number 1 none) none none) Table.empty [0] (.start 0)) =
        some (Subst.empty, olderEnv x) := by cbv
  have hfails : ∀ n, answer? (Infer.check (.standard [])
      (.letBinding y (.binary (.boolean true none) "+" (.number 1 none) none) none none)
        (olderEnv x) [1] (.start n)) = none := fun n => by cbv
  obtain ⟨_, next, _, hi, -, h⟩ := Check.reports_cons_resilient h
  obtain ⟨_, next', _, hi', -, h⟩ := Check.reports_cons_resilient h
  cases h
  rcases Check.inspect_cases hi with ⟨s, env, after, types, hrun, -, rfl⟩ |
    ⟨error, after, hrun, -, -⟩
  · rw [hrun] at hpasses
    cases hpasses
    rcases Check.inspect_cases hi' with ⟨s', env', after', types', hrun', -, -⟩ |
      ⟨error', after', -, -, rfl⟩
    · have hnone := hfails after.next
      rw [hrun'] at hnone
      cases hnone
    · rfl
  · rw [hrun] at hpasses
    cases hpasses

/-- What is said of the last name then. -/
theorem type_of_retakingProgram {x y : String} {t : Option Ty}
    (ht : ∀ n, (answer? (Infer.infer (.standard []) (.name y none) (olderEnv x) [2]
      (.start n))).map (·.2) = t) :
    ∃ c, (retakingProgram x y).check ⟨[], true, 0, Table.empty⟩ = .ok c ∧ c.programType = t := by
  have hr := Rules.proper_standard []
  obtain ⟨rs, u, hrs⟩ := Program.exists_reports (inPlace_retakingProgram x y) [] true 0
  refine ⟨.ofReports rs u, Program.check_of_reports hrs, ?_⟩
  rcases Program.reports_cases hrs with ⟨first, stage, last, hfirst, hlast, -⟩ | ⟨stage, hfirst, -⟩
  · obtain ⟨_, _, hreports, hsettled⟩ := Check.exists_reports_resilient hr
      (Check.settled_empty 0) (inPlace_retakingProgram x y).statements 0
    rw [hfirst] at hreports
    cases hreports
    have ht := ht stage.next
    rw [← env_of_retakingProgram hfirst] at ht
    rcases Check.finish_cases hr hsettled hlast with ⟨s, u, after, hrun, rfl⟩ |
      ⟨error, after, hrun, rfl⟩
    · exact (congrArg (fun r => (answer? r).map (·.2)) hrun).symm.trans ht
    · exact (congrArg (fun r => (answer? r).map (·.2)) hrun).symm.trans ht
  · cases Check.through_of_resilient hfirst

/-- In `let x = 1; let x = true + 1; x` the second item fails, and the last name falls back to the
first one. With another name for either binder it belongs to nothing, so a program that is not
accepted may have a type under the one name and none under the other. -/
theorem a_failed_item_uncovers_an_older_name :
    (retakingProgram "x" "x").InPlace ∧
    ([0], "x") ∈ (retakingProgram "x" "x").binders ∧
    ([1], "x") ∈ (retakingProgram "x" "x").binders ∧
    "y" ∉ Term.identifiersAll
      ((retakingProgram "x" "x").statements ++ (retakingProgram "x" "x").result.toList) ∧
    (∀ b ∈ (retakingProgram "x" "x").binders, b.2 ≠ "y") ∧
    (retakingProgram "x" "x").renamed ⟨[1], "y"⟩ = retakingProgram "x" "y" ∧
    (retakingProgram "x" "x").renamed ⟨[0], "y"⟩ = retakingProgram "y" "x" ∧
    (∃ c, (retakingProgram "x" "x").check ⟨[], true, 0, Table.empty⟩ = .ok c ∧
      c.programType = some .number) ∧
    (∃ c, (retakingProgram "x" "y").check ⟨[], true, 0, Table.empty⟩ = .ok c ∧
      c.programType = none) ∧
    ∃ c, (retakingProgram "y" "x").check ⟨[], true, 0, Table.empty⟩ = .ok c ∧
      c.programType = none :=
  ⟨inPlace_retakingProgram "x" "x", by decide, by decide, by decide, by decide, rfl, rfl,
    type_of_retakingProgram fun n => by cbv, type_of_retakingProgram fun n => by cbv,
    type_of_retakingProgram fun n => by cbv⟩

end LetPoly
