-- The laws of preludes. The bound variables of a prelude's schemes have numbers of
-- their own, and which numbers does not matter to a check, as long as the variables
-- drawn for them are none of them: instantiation follows images, so a variable drawn
-- for one that is itself a bound one is replaced once more.
import LetPoly.Proofs.ItemReports

namespace LetPoly

open Function (Injective)

/-! ## What does not depend on numbers -/

/-- The kinds of errors of types. -/
inductive ErrorKind where
  | unbound
  | unknownType
  | mismatch
  | arity
  | infinite
  | branches
  | returns
deriving DecidableEq, Repr

/-- The kind of error that a clash makes. -/
def Clash.errorKind : Clash → ErrorKind
  | mismatch .. => .mismatch
  | arity .. => .arity
  | infinite .. => .infinite

/-- The kind of an error. -/
def Reason.errorKind : Reason → ErrorKind
  | unbound _ => .unbound
  | unknownType _ => .unknownType
  | clash cause => cause.errorKind
  | branches .. => .branches
  | returns .. => .returns

/-- What kind of error it is, and where. -/
def TypeError.outline (e : TypeError) : ErrorKind × Option Location :=
  (e.reason.errorKind, e.location)

theorem TypeError.outline_rename (π : Int → Int) (e : TypeError) :
    (e.rename π).outline = e.outline := by
  obtain ⟨reason, site⟩ := e
  cases reason with
  | clash cause => cases cause <;> rfl
  | _ => rfl

theorem Checked.Alike.outlines_eq {c c' : Checked} (h : c.Alike c') :
    c'.errors.map TypeError.outline = c.errors.map TypeError.outline := by
  refine map_eq_of_forall₂ h.errors ?_
  rintro e _ ⟨π, -, rfl⟩
  exact e.outline_rename π

/-- Two checks that start alike come to the same, up to the numbers of variables. -/
theorem Program.check_alike (p : Program) (options : CheckOptions) {other : Env}
    (h : Env.Alike .plain (.between options.seed options.seed) options.prelude other) :
    Outcomes Checked.Alike (p.check options) (p.check { options with prelude := other }) := by
  rw [check_eq_reports, check_eq_reports]
  refine (p.reports_alike options.extraTypes options.resilient ⟨h, rfl, rfl, nofun⟩
    fun _ => id).map ?_
  rintro ⟨rs, t⟩ ⟨rs', t'⟩ ⟨hrs, q, -, ht⟩
  exact .ofReports (fun _ => id) hrs ht

/-! ## Preludes that differ in the numbers of bound variables -/

/-- Two schemes are closed and differ in nothing but the numbers of their bound variables. -/
structure Scheme.Twins (scheme other : Scheme) : Prop where
  closed : ∀ v, v ∉ scheme.freeVars
  renamed : Renamed Scheme.rename scheme other

/-- Two preludes bind the same names, in any order, to schemes that differ in nothing but the
numbers of bound variables. -/
def Env.Twins (env other : Env) : Prop :=
  ∀ x, Option.Rel Scheme.Twins (env.get? x) (other.get? x)

/-- No scheme binds a variable that is still to be drawn, unless it binds just the one. -/
def Env.Openable (n : Int) (env : Env) : Prop := ∀ scheme ∈ env.values, scheme.Openable n

theorem Env.Twins.alike {env other : Env} {n : Int} (h : env.Twins other) (ho : env.Openable n)
    (ho' : other.Openable n) : Env.Alike .plain (.between n n) env other := by
  intro x
  refine .inl ?_
  have hx := h x
  have hopen : ∀ scheme, env.get? x = some scheme → scheme.Openable n := fun scheme hs =>
    ho scheme (Table.mem_values_of_get? hs)
  have hopen' : ∀ scheme, other.get? x = some scheme → scheme.Openable n := fun scheme hs =>
    ho' scheme (Table.mem_values_of_get? hs)
  generalize env.get? x = o at hx hopen ⊢
  generalize other.get? x = o' at hx hopen' ⊢
  cases hx with
  | none => exact .none
  | some hs =>
    obtain ⟨σ, hσ, he⟩ := hs.renamed
    exact .some (.closed rfl hσ he hs.closed (hopen _ rfl) (hopen' _ rfl))

/-- Two preludes that bind the same names to closed schemes, equal up to the numbers of their bound
variables, make the check of a program come to the same description and to errors of the same
kinds at the same places, as long as neither prelude binds a variable that is still to be drawn
together with another one. -/
theorem the_numbers_of_bound_variables_do_not_matter (p : Program) (options : CheckOptions)
    (other : Env) (h : options.prelude.Twins other) (ho : options.prelude.Openable options.seed)
    (ho' : other.Openable options.seed) :
    Outcomes
      (fun c c' => c'.describe p = c.describe p ∧
        c'.errors.map TypeError.outline = c.errors.map TypeError.outline)
      (p.check options) (p.check { options with prelude := other }) := by
  exact (p.check_alike options (h.alike ho ho')).imp fun c c' hc =>
    ⟨hc.describe_eq p, hc.outlines_eq⟩

/-- `let h = f; h(1)(g(y))` -/
def arrowProgram : Program where
  statements := [.letBinding "h" (.name "f" none) none none]
  result := some (.call (.call (.name "h" none) [.number 1 none] none)
    [.call (.name "g" none) [.name "y" (some ⟨"", 1, 19⟩)] none] (some ⟨"", 1, 12⟩))
  file := ""
  location := none

/-- `f : forall t1 t2. (t1) -> t2` and `g : forall t3. (t3) -> t3` -/
def arrowPrelude : Env :=
  ⟨[("f", ⟨[1, 2], .fn [.var 1] (.var 2), by decide⟩),
    ("g", ⟨[3], .fn [.var 3] (.var 3), by decide⟩)], by decide⟩

/-- `g : forall t3. (t3) -> t3` and `f : forall t4 t5. (t5) -> t4` -/
def turnedPrelude : Env :=
  ⟨[("g", ⟨[3], .fn [.var 3] (.var 3), by decide⟩),
    ("f", ⟨[4, 5], .fn [.var 5] (.var 4), by decide⟩)], by decide⟩

theorem twins_turnedPrelude : arrowPrelude.Twins turnedPrelude := by
  have hflip : Injective fun v : Int => 6 - v := by
    intro v w h
    simp only at h
    omega
  have hf : Scheme.Twins ⟨[1, 2], .fn [.var 1] (.var 2), by decide⟩
      ⟨[4, 5], .fn [.var 5] (.var 4), by decide⟩ :=
    ⟨by simp [Scheme.mem_freeVars], _, hflip, by decide⟩
  have hg : Scheme.Twins ⟨[3], .fn [.var 3] (.var 3), by decide⟩
      ⟨[3], .fn [.var 3] (.var 3), by decide⟩ :=
    ⟨by simp [Scheme.mem_freeVars], _, hflip, by decide⟩
  intro x
  by_cases hxf : "f" = x
  · subst hxf
    exact .some hf
  · by_cases hxg : "g" = x
    · subst hxg
      exact .some hg
    · simp only [arrowPrelude, turnedPrelude, Table.get?, Table.find?, hxf, hxg, if_false]
      exact .none

/-- From a variable on that neither prelude binds, the order in which the bound variables are
numbered makes no difference. -/
theorem the_numbers_of_bound_variables_do_not_matter_above_them :
    arrowPrelude.Twins turnedPrelude ∧ arrowPrelude.Openable 7 ∧ turnedPrelude.Openable 7 ∧
      ∃ c c', arrowProgram.check ⟨[], true, 7, arrowPrelude⟩ = .ok c ∧
        arrowProgram.check ⟨[], true, 7, turnedPrelude⟩ = .ok c' ∧
        c.describe arrowProgram = ["h : forall 'a 'b. ('a) -> 'b"] ∧
        c.errors.map TypeError.outline = [(.unbound, some ⟨"", 1, 19⟩)] ∧
        c'.describe arrowProgram = c.describe arrowProgram ∧
        c'.errors.map TypeError.outline = c.errors.map TypeError.outline := by
  have ho : arrowPrelude.Openable 7 := by
    simp [Env.Openable, Scheme.Openable, arrowPrelude, Table.values]
  have ho' : turnedPrelude.Openable 7 := by
    simp [Env.Openable, Scheme.Openable, turnedPrelude, Table.values]
  have hrun : (arrowProgram.check ⟨[], true, 7, arrowPrelude⟩).toOption.map (fun c =>
      (c.describe arrowProgram, c.errors.map TypeError.outline)) =
      some (["h : forall 'a 'b. ('a) -> 'b"], [(.unbound, some ⟨"", 1, 19⟩)]) := by
    cbv
  have hsame := the_numbers_of_bound_variables_do_not_matter arrowProgram
    ⟨[], true, 7, arrowPrelude⟩ turnedPrelude twins_turnedPrelude ho ho'
  refine ⟨twins_turnedPrelude, ho, ho', ?_⟩
  simp only at hsame
  generalize arrowProgram.check ⟨[], true, 7, arrowPrelude⟩ = r at hsame hrun ⊢
  generalize arrowProgram.check ⟨[], true, 7, turnedPrelude⟩ = r' at hsame ⊢
  cases hsame with
  | error e => cases hrun
  | @ok c c' h =>
    obtain ⟨hdescribe, herrors⟩ := Prod.mk.inj (Option.some.inj hrun)
    exact ⟨c, c', rfl, rfl, hdescribe, herrors, h⟩

/-- Variables that a prelude binds and that are still to be drawn get mixed up: what is drawn for
`t1` is `t0`, and what is drawn for `t2` is `t1`, which is followed to `t0` as well. -/
theorem a_bound_variable_that_is_drawn_again_gets_mixed_up :
    arrowPrelude.Twins turnedPrelude ∧
      (arrowProgram.check ⟨[], true, 0, arrowPrelude⟩).toOption.map (fun c =>
          (c.describe arrowProgram, c.errors.map TypeError.outline)) =
        some (["h : forall 'a. ('a) -> 'a"], [(.mismatch, some ⟨"", 1, 12⟩)]) ∧
      (arrowProgram.check ⟨[], true, 0, turnedPrelude⟩).toOption.map (fun c =>
          (c.describe arrowProgram, c.errors.map TypeError.outline)) =
        some (["h : forall 'a 'b. ('a) -> 'b"], [(.unbound, some ⟨"", 1, 19⟩)]) :=
  ⟨twins_turnedPrelude, by cbv, by cbv⟩

end LetPoly
