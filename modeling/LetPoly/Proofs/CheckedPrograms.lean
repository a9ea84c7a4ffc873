-- The laws of whole programs: a program is checked without error exactly if it can be
-- typed by the rules. Its top-level environment never has a free variable, so the items
-- that are checked leave the types of those before them alone.
import LetPoly.Check
import LetPoly.Proofs.InferenceComplete

namespace LetPoly

namespace Check

variable {rules : Rules}

/-! ## After an item -/

/-- The entries of a record with a replacement made in their types. -/
def replaced (f : Int → Ty) (types : List (Site × Ty)) : List (Site × Ty) :=
  types.map fun entry => (entry.1, entry.2.subst f)

theorem finalTypes_eq_ok {s : Subst} (h : s.Solved) (types : List (Site × Ty)) :
    finalTypes s types = .ok (replaced s.image types) := by
  induction types with
  | nil => rfl
  | cons entry more ih =>
    obtain ⟨site, t⟩ := entry
    rw [finalTypes, h.expand? t, ih]
    rfl

section

variable (st : State) (item : Term) (env : Env) (types : List (Site × Ty)) (after : InferState)

@[simp] theorem env_accept : (accept st item env types after).env = env := by
  unfold accept
  split <;> rfl

@[simp] theorem next_accept : (accept st item env types after).next = after.next := by
  unfold accept
  split <;> rfl

@[simp] theorem errors_accept :
    (accept st item env types after).checked.errors = st.checked.errors := by
  unfold accept
  split <;> rfl

theorem schemes_accept_unnamed (h : item.boundName? = none) :
    (accept st item env types after).checked.schemes = st.checked.schemes := by
  unfold accept
  rw [h]
  rfl

theorem schemes_accept_named {x : String} {scheme : Scheme} (h : item.boundName? = some x)
    (hget : env.get? x = some scheme) :
    (accept st item env types after).checked.schemes = st.checked.schemes.insert x scheme := by
  unfold accept
  rw [h, Option.bind_some, hget]
  rfl

end

/-! ## What can be typed is checked without error -/

theorem items_of_bindAll (hr : rules.Proper) {es : List Term} (st : State) {other other' : Env}
    {f : Int → Ty} (hb : st.env.Below st.next) (hfit : Fit f st.env other)
    (hd : BindAll rules other es other') (resilient : Bool) (slot : Nat) :
    ∃ st', items rules resilient es slot st = .ok (st', true) ∧
      st'.checked.errors = st.checked.errors ∧ st'.env.Below st'.next ∧
      ∃ g, Fit g st'.env other' := by
  induction es generalizing st other f slot with
  | nil =>
    cases hd
    exact ⟨st, rfl, rfl, hb, f, hfit⟩
  | cons item es ih =>
    cases hd with
    | cons hd hds =>
      obtain ⟨⟨s, env⟩, after, hrun, h, g, -, -, hfit'⟩ :=
        (Infer.succeeds hr item st.env [slot] st.next f other _ hb hfit hd).exists_ok
          (s := .start st.next) rfl
      obtain ⟨st', hitems, herrors, hb', g', hfit''⟩ :=
        ih (accept st item env (replaced s.image after.types) after) (by simpa using h.below)
          (by simpa using hfit') hds (slot + 1)
      refine ⟨st', ?_, herrors.trans (errors_accept ..), hb', g', hfit''⟩
      rw [items, hrun]
      simp only [finalTypes_eq_ok h.tidy.solved]
      exact hitems

theorem result_of_infer {e : Term} {st : State} {slot : Nat} {s : Subst} {t : Ty}
    {after : InferState}
    (hrun : Infer.infer rules e st.env [slot] (.start st.next) = .ok (s, t) after)
    (hs : s.Solved) :
    ∃ c, result rules slot st (some e) = .ok c ∧ c.errors = st.checked.errors ∧
      c.programType = some (t.subst s.image) ∧ c.schemes = st.checked.schemes := by
  refine ⟨{ st.checked with
    types := st.checked.types ++ replaced s.image after.types
    programType := some (t.subst s.image)
    log := st.checked.log ++ logOf after }, ?_, rfl, rfl, rfl⟩
  rw [result, hrun]
  simp only [finalTypes_eq_ok hs, hs.expand? t]
  rfl

end Check

/-- A program that can be typed is checked without error. -/
theorem Program.check_of_wellTyped {p : Program} {options : CheckOptions}
    (hp : options.prelude = Table.empty) {env : Env} {t : Ty}
    (h : p.WellTyped (.standard options.extraTypes) env t) :
    ∃ c, p.check options = .ok c ∧ c.ok = true := by
  have hr := Rules.proper_standard options.extraTypes
  have hempty : ∀ f, Fit f options.prelude Table.empty := fun f => by
    rw [hp]
    refine ⟨Table.rel_empty, ?_⟩
    rintro v w ⟨scheme, hs, -⟩
    cases hs
  have hb : options.prelude.Below options.seed := by
    rw [hp]
    intro scheme hs
    cases hs
  obtain ⟨st, hitems, herrors, hbelow, g, hfit⟩ := Check.items_of_bindAll hr
    ⟨options.prelude, options.seed, .start⟩ hb (hempty .var) h.items options.resilient 0
  have hcheck : p.check options =
      Check.result (.standard options.extraTypes) p.statements.length st p.result := by
    rw [Program.check, Program.checkBy, hitems]
    rfl
  rw [hcheck]
  rcases hres : p.result with _ | e
  · refine ⟨_, rfl, ?_⟩
    simp [Checked.ok, herrors, Checked.start]
  · obtain ⟨⟨s, t'⟩, after, hrun, hi, -⟩ :=
      (Infer.complete hr e st.env [p.statements.length] st.next g env t hbelow hfit
        (h.result e hres)).exists_ok (s := .start st.next) rfl
    obtain ⟨c, hc, herr, -⟩ := Check.result_of_infer hrun hi.tidy.solved
    refine ⟨c, hc, ?_⟩
    simp [Checked.ok, herr, herrors, Checked.start]

/-! ## What is checked without error can be typed -/

/-- A statement binds at most the name that is its own, to a type generalized in the environment
before it. -/
theorem Binds.bound {rules : Rules} {env env' : Env} {e : Term} (h : Binds rules env e env') :
    e.boundName? = none ∧ env' = env ∨
      ∃ x t, e.boundName? = some x ∧ env' = env.insert x (env.generalize t) := by
  cases h with
  | discard _ => exact Or.inl ⟨rfl, rfl⟩
  | letBinding _ _ _ => exact Or.inr ⟨_, _, rfl, rfl⟩
  | definition _ _ _ _ => exact Or.inr ⟨_, _, rfl, rfl⟩

theorem Binds.closed {rules : Rules} {env env' : Env} {e : Term} (h : Binds rules env e env')
    (hc : ∀ v, v ∉ env.freeVars) : ∀ v, v ∉ env'.freeVars := by
  intro v hv
  rcases h.bound with ⟨-, rfl⟩ | ⟨x, t, -, rfl⟩
  · exact hc v hv
  · rcases Env.mem_freeVars_insert hv with hv | hv
    · exact hc v (Env.mem_freeVars_generalize.1 hv).2
    · exact hc v hv

namespace Check

variable {rules : Rules}

/-- Between two items without an error: no variable is free in the environment, and the schemes
that are reported are those in it. -/
structure Stands (st : State) : Prop where
  below : st.env.Below st.next
  closed : ∀ v, v ∉ st.env.freeVars
  schemes : ∀ x, st.checked.schemes.get? x = st.env.get? x

theorem Stands.accept {st : State} (h : Stands st) (hr : rules.Proper) {item : Term} {slot : Nat}
    {s : Subst} {env : Env} {after : InferState}
    (hrun : Infer.check rules item st.env [slot] (.start st.next) = .ok (s, env) after)
    (types : List (Site × Ty)) :
    Binds rules st.env item env ∧ Stands (accept st item env types after) := by
  have hp := Infer.passes hr item st.env [slot] st.next h.below (.start st.next) rfl
  rw [hrun] at hp
  have hbinds := hp.of_closed h.closed
  refine ⟨hbinds, ⟨?_, ?_, fun y => ?_⟩⟩
  · simpa using hp.below
  · simpa using hbinds.closed h.closed
  · rw [env_accept]
    rcases hbinds.bound with ⟨hname, rfl⟩ | ⟨x, t, hname, rfl⟩
    · rw [schemes_accept_unnamed _ _ _ _ _ hname, h.schemes]
    · have hget : (st.env.insert x (st.env.generalize t)).get? x =
          some (st.env.generalize t) := by simp [Table.get?_insert]
      rw [schemes_accept_named _ _ _ _ _ hname hget, Table.get?_insert, Table.get?_insert,
        h.schemes]

/-- An item is accepted, or its error is put on record and the check goes on or stops. -/
theorem items_cons {resilient : Bool} {item : Term} {es : List Term} {slot : Nat} {st st' : State}
    {through : Bool} (h : items rules resilient (item :: es) slot st = .ok (st', through)) :
    (∃ s env after types,
      Infer.check rules item st.env [slot] (.start st.next) = .ok (s, env) after ∧
        finalTypes s after.types = .ok types ∧
        items rules resilient es (slot + 1) (accept st item env types after) = .ok (st', through)) ∨
    ∃ error after,
      Infer.check rules item st.env [slot] (.start st.next) = .error (.typeError error) after ∧
      (st' = reject st error after ∨
        ∃ env next, items rules resilient es (slot + 1)
          { reject st error after with env, next } = .ok (st', through)) := by
  rw [items] at h
  rcases hrun : Infer.check rules item st.env [slot] (.start st.next) with
    ⟨⟨s, env⟩, after⟩ | ⟨failure, after⟩
  · rw [hrun] at h
    rcases hfinal : finalTypes s after.types with failure | types
    · simp [hfinal, bind, Except.bind] at h
    · simp only [hfinal, bind, Except.bind] at h
      exact Or.inl ⟨s, env, after, types, rfl, hfinal, h⟩
  · rw [hrun] at h
    cases failure with
    | typeError error =>
      refine Or.inr ⟨error, after, rfl, ?_⟩
      cases resilient with
      | false =>
        cases h
        exact Or.inl rfl
      | true => exact Or.inr ⟨_, _, h⟩
    | cyclic => cases h
    | notExpression kind => cases h
    | notStatement kind => cases h
    | malformed _ _ => cases h

/-- An error once found stays on record. -/
theorem errors_of_items {resilient : Bool} {es : List Term} {slot : Nat} {st st' : State}
    {through : Bool} (h : items rules resilient es slot st = .ok (st', through))
    (herr : st'.checked.errors = []) : st.checked.errors = [] := by
  induction es generalizing slot st with
  | nil =>
    cases h
    exact herr
  | cons item es ih =>
    rcases items_cons h with ⟨s, env, after, types, -, -, h⟩ |
      ⟨error, after, -, rfl | ⟨env, next, h⟩⟩
    · simpa using ih h
    · simp [reject] at herr
    · have := ih h
      simp [reject] at this

theorem bindAll_of_items (hr : rules.Proper) {resilient : Bool} {es : List Term} {slot : Nat}
    {st st' : State} {through : Bool} (h : items rules resilient es slot st = .ok (st', through))
    (herr : st'.checked.errors = []) (hst : Stands st) :
    through = true ∧ BindAll rules st.env es st'.env ∧ Stands st' := by
  induction es generalizing slot st with
  | nil =>
    cases h
    exact ⟨rfl, .nil, hst⟩
  | cons item es ih =>
    rcases items_cons h with ⟨s, env, after, types, hrun, -, h⟩ |
      ⟨error, after, -, rfl | ⟨env, next, h⟩⟩
    · obtain ⟨hbinds, hst⟩ := hst.accept hr hrun types
      obtain ⟨hthrough, hrest, hst'⟩ := ih h hst
      rw [env_accept] at hrest
      exact ⟨hthrough, .cons hbinds hrest, hst'⟩
    · simp [reject] at herr
    · have := errors_of_items h herr
      simp [reject] at this

/-- Without an error, the last expression was given the type that is reported. -/
theorem infer_of_result {slot : Nat} {st : State} {e : Term} {c : Checked}
    (h : result rules slot st (some e) = .ok c) (herr : c.errors = []) :
    st.checked.errors = [] ∧ c.schemes = st.checked.schemes ∧
    ∃ s t after types, Infer.infer rules e st.env [slot] (.start st.next) = .ok (s, t) after ∧
      c.programType = s.expand? t ∧ finalTypes s after.types = .ok types ∧
      c.types = st.checked.types ++ types := by
  rw [result] at h
  rcases hrun : Infer.infer rules e st.env [slot] (.start st.next) with
    ⟨⟨s, t⟩, after⟩ | ⟨failure, after⟩
  · rw [hrun] at h
    rcases hfinal : finalTypes s after.types with failure | types
    · simp [hfinal, bind, Except.bind] at h
    · simp only [hfinal, bind, Except.bind] at h
      rcases ht : s.expand? t with _ | u
      · simp [ht] at h
      · simp only [ht, Except.ok.injEq] at h
        subst h
        exact ⟨herr, rfl, s, t, after, types, rfl, ht.symm, hfinal, rfl⟩
  · rw [hrun] at h
    cases failure with
    | typeError error =>
      simp only [Except.ok.injEq] at h
      subst h
      simp at herr
    | cyclic => cases h
    | notExpression kind => cases h
    | notStatement kind => cases h
    | malformed _ _ => cases h

end Check

theorem Check.stands_start (options : CheckOptions) (hp : options.prelude = Table.empty) :
    Check.Stands ⟨options.prelude, options.seed, .start⟩ := by
  rw [hp]
  refine ⟨fun scheme hs => ?_, fun v hv => ?_, fun x => rfl⟩
  · cases hs
  · cases hv

/-- A check without error goes through all items and then looks at the last expression. -/
theorem Program.check_parts {p : Program} {options : CheckOptions} {c : Checked}
    (hp : options.prelude = Table.empty) (h : p.check options = .ok c) (herr : c.errors = []) :
    ∃ st, Check.items (.standard options.extraTypes) options.resilient p.statements 0
        ⟨options.prelude, options.seed, .start⟩ = .ok (st, true) ∧
      Check.result (.standard options.extraTypes) p.statements.length st p.result = .ok c := by
  have hr := Rules.proper_standard options.extraTypes
  rw [Program.check, Program.checkBy] at h
  rcases hitems : Check.items (.standard options.extraTypes) options.resilient p.statements 0
    ⟨options.prelude, options.seed, .start⟩ with failure | ⟨st, through⟩
  · rw [hitems] at h
    cases h
  · rw [hitems] at h
    cases through with
    | false =>
      obtain rfl : st.checked = c := by simpa [bind, Except.bind] using h
      cases (Check.bindAll_of_items hr hitems herr (Check.stands_start options hp)).1
    | true => exact ⟨st, rfl, h⟩

/-- A program that is checked without error can be typed, with the type and the schemes that are
reported. -/
theorem Program.wellTyped_of_check {p : Program} {options : CheckOptions} {c : Checked}
    (hp : options.prelude = Table.empty) (h : p.check options = .ok c) (hok : c.ok = true) :
    ∃ env t, p.WellTyped (.standard options.extraTypes) env t ∧ c.programType = some t ∧
      ∀ x, c.schemes.get? x = env.get? x := by
  have hr := Rules.proper_standard options.extraTypes
  have herr : c.errors = [] := by simpa [Checked.ok] using hok
  have hstart := Check.stands_start options hp
  obtain ⟨st, hitems, hresult⟩ := Program.check_parts hp h herr
  rcases he : p.result with _ | e
  · rw [he, Check.result, Except.ok.injEq] at hresult
    subst hresult
    obtain ⟨-, hbinds, hst⟩ := Check.bindAll_of_items hr hitems herr hstart
    rw [hp] at hbinds
    exact ⟨st.env, .unit, ⟨hbinds, by simp [he], fun _ => rfl⟩, rfl, hst.schemes⟩
  · rw [he] at hresult
    obtain ⟨herr', hschemes, s, t, after, -, hrun, htype, -⟩ := Check.infer_of_result hresult herr
    obtain ⟨-, hbinds, hst⟩ := Check.bindAll_of_items hr hitems herr' hstart
    rw [hp] at hbinds
    have hi := Infer.sound hr e st.env [p.statements.length] st.next hst.below
      (.start st.next) rfl
    rw [hrun] at hi
    -- the substitution of the answer has no effect on its type
    have hfinal : c.programType = some t := by
      rw [htype, hi.tidy.solved.expand? t]
      rw [Subst.subst_of_not_mem fun v hv => (hi.leaves v hv).2]
    refine ⟨st.env, t, ⟨hbinds, fun e' he' => ?_, fun hn => ?_⟩, hfinal, fun x => ?_⟩
    · obtain rfl : e = e' := Option.some.inj (he.symm.trans he')
      exact hi.of_closed hst.below hst.closed
    · rw [he] at hn
      cases hn
    · rw [hschemes, hst.schemes]

/-! ## Principal types -/

/-- Whatever type an expression can be given after a replacement of the environment's variables,
inference finds a type and a substitution of which that type and that replacement are instances.
So no program that can be typed is refused. -/
theorem inference_finds_principal_types (extraTypes : List String) :
    (∀ (e : Term) (env : Env) (position : Position) (start : InferState) (f : Int → Ty) (t₀ : Ty),
      env.Below start.next →
      (∀ scheme ∈ env.values, ∀ q ∈ scheme.quantified,
        f q = .var q ∧ ∀ v, v ≠ q → q ∉ (f v).leaves) →
      HasType (.standard extraTypes) (env.subst f) e t₀ →
      ∃ s t stop env', Infer.infer (.standard extraTypes) e env position start = .ok (s, t) stop ∧
        Env.expand? s env = some env' ∧
        ∃ g : Int → Ty, env'.Clean g ∧ env.subst f = env'.subst g ∧ t₀ = t.subst g) ∧
    ∀ (p : Program) (options : CheckOptions), options.extraTypes = extraTypes →
      options.prelude = Table.empty → (∃ env t, p.WellTyped (.standard extraTypes) env t) →
      ∃ c, p.check options = .ok c ∧ c.ok = true := by
  refine ⟨fun e env position start f t₀ hb hf hd => ?_, ?_⟩
  · have hr := Rules.proper_standard extraTypes
    have hclean : env.Clean f := fun scheme hs v hv w hw hq => by
      have hne : v ≠ w := fun h => (Scheme.mem_freeVars.1 hv).2 (h ▸ hq)
      exact (hf scheme hs w hq).2 v hne hw
    have havoids : env.Avoids f := by
      rintro v w ⟨scheme, hs, hv, hq, -⟩
      exact ⟨(hf scheme hs w hq).1, fun hw => hclean scheme hs v hv w hw hq⟩
    obtain ⟨⟨s, t⟩, stop, hrun, h, g, hg, hgs, rfl⟩ :=
      (Infer.complete hr e env position _ f _ t₀ hb ⟨Env.atMost_self hclean, havoids⟩ hd).exists_ok
        (s := start) rfl
    have hsame : ∀ v ∈ env.freeVars, f v = g v := fun v hv => (hg v (hb.free hv)).symm
    have hclean' : env.Clean g := fun scheme hs v hv => by
      rw [← hsame v (Env.mem_freeVars.2 ⟨scheme, hs, hv⟩)]
      exact hclean scheme hs v hv
    refine ⟨s, t, stop, _, hrun, Env.expand?_eq_some h.tidy.solved env, g, hclean'.absorb hgs, ?_,
      rfl⟩
    rw [Env.subst_subst ((havoids.congr hsame).clean h.tidy hb hgs)]
    refine Env.subst_congr fun v hv => ?_
    rw [hgs v, hsame v hv]
  · rintro p options rfl hp ⟨env, t, h⟩
    exact p.check_of_wellTyped hp h

/-- In an environment without free variables, an answer is a derivation. -/
theorem hasType_of_answer {rules : Rules} (hr : rules.Proper) {env : Env} {n : Int} {e : Term}
    {t : Ty} (hb : env.Below n) (hc : ∀ v, v ∉ env.freeVars)
    (h : (answer? (Infer.infer rules e env [] (.start n))).map (·.2) = some t) :
    HasType rules env e t := by
  obtain ⟨⟨s, t'⟩, hrun, rfl⟩ := Option.map_eq_some_iff.1 h
  obtain ⟨stop, hrun⟩ := exists_of_answer? hrun
  have hi := Infer.sound hr e env [] n hb (.start n) rfl
  rw [hrun] at hi
  exact hi.of_closed hb hc

/-- `let id = \x -> x; def first(a : 'a, b) : 'a { id(a) } first(first(1, true), first)` -/
def firstProgram : Program where
  statements :=
    [.letBinding "id" (.lambda [⟨"x", none, none⟩] (.name "x" none) none) none none,
     Infer.firstDefinition]
  result := some (.call (.name "first" none)
    [.call (.name "first" none) [.number 1 none, .boolean true none] none, .name "first" none] none)
  file := "first.sfl"
  location := none

theorem wellTyped_firstProgram :
    ∃ env, firstProgram.WellTyped (.standard []) env .number := by
  have hd : HasType (.standard []) Table.empty
      (.block firstProgram.statements firstProgram.result none) .number := by
    refine hasType_of_answer (n := 0) (Rules.proper_standard []) ?_ ?_ (by cbv)
    · intro scheme hs
      cases hs
    · intro v hv
      cases hv
  cases hd with
  | block hs hd =>
    refine ⟨_, hs, fun e he => ?_, fun hn => by cases hn⟩
    cases he
    exact hd

/-- A definition that is used at two types, in an environment with a variable that is replaced by
the type of numbers, and in a program. -/
theorem inference_finds_principal_types_of_two_instances :
    let f : Int → Ty := fun v => if v = 1 then .number else .var v
    Infer.identityEnv.Below 2 ∧
    HasType (.standard []) (Infer.identityEnv.subst f) Infer.firstBlock .number ∧
    (∃ s t stop env',
      Infer.infer (.standard []) Infer.firstBlock Infer.identityEnv [] (.start 2) =
        .ok (s, t) stop ∧
      Env.expand? s Infer.identityEnv = some env' ∧
      ∃ g : Int → Ty, env'.Clean g ∧ Infer.identityEnv.subst f = env'.subst g ∧
        .number = t.subst g) ∧
    (∃ env t, firstProgram.WellTyped (.standard []) env t) ∧
    ∃ c, firstProgram.check ⟨[], false, 0, Table.empty⟩ = .ok c ∧ c.ok = true := by
  intro f
  have hmem : ∀ scheme ∈ (Infer.identityEnv.subst f).values,
      scheme = ⟨[0], .fn [.var 0] (.var 0), by decide⟩ ∨ scheme = .mono .number := by decide
  have hd : HasType (.standard []) (Infer.identityEnv.subst f) Infer.firstBlock .number := by
    refine hasType_of_answer (n := 2) (Rules.proper_standard []) ?_ ?_ (by cbv)
    · intro scheme hs
      rcases hmem scheme hs with rfl | rfl
      · simp [Scheme.mem_freeVars]
      · simp [Scheme.mono, Scheme.mem_freeVars, Ty.number]
    · intro v hv
      obtain ⟨scheme, hs, hv⟩ := Env.mem_freeVars.1 hv
      rcases hmem scheme hs with rfl | rfl
      · obtain ⟨hl, hn⟩ := Scheme.mem_freeVars.1 hv
        simp_all
      · simp [Ty.number] at hv
  obtain ⟨hexpression, hprogram⟩ := inference_finds_principal_types []
  have hbound : ∀ scheme ∈ Infer.identityEnv.values, ∀ q ∈ scheme.quantified,
      f q = .var q ∧ ∀ v, v ≠ q → q ∉ (f v).leaves := by
    have hzero : ∀ scheme ∈ Infer.identityEnv.values, ∀ q ∈ scheme.quantified, q = 0 := by decide
    intro scheme hs q hq
    obtain rfl := hzero scheme hs q hq
    refine ⟨rfl, fun v hv => ?_⟩
    by_cases h1 : v = 1
    · simp [f, h1, Ty.number]
    · simpa [f, h1] using hv.symm
  obtain ⟨env, hp⟩ := wellTyped_firstProgram
  exact ⟨Infer.below_identityEnv, hd,
    hexpression _ _ _ (.start 2) f _ Infer.below_identityEnv hbound hd,
    ⟨env, _, hp⟩, hprogram firstProgram _ rfl rfl ⟨env, _, hp⟩⟩

end LetPoly
