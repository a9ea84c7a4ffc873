-- The laws of checks between two items. Whatever the items before came to, no name is
-- bound to a scheme with a free variable, and the variables that are bound are drawn
-- already. So two checks that bind the same names differ in nothing that the items to
-- come depend on, and a program whose parts are in place is always reported on.
import LetPoly.Proofs.CheckedPrograms
import LetPoly.Proofs.ItemReports
import LetPoly.Proofs.Placement

namespace LetPoly

/-- The types that are written at an item have a meaning, so that its name can be bound to one
even if the item is wrong. -/
inductive Term.Declares (baseTypes : List String) : Term → Prop
  | letBinding {x : String} {value : Term} {written : TypeExpr} {names : String → Ty} {t : Ty}
      {l : Option Location} :
    written.Means baseTypes names t →
    Term.Declares baseTypes (.letBinding x value (some written) l)
  | definition {f : String} {params : List Param} {returns : Option TypeExpr} {body : Term}
      {names : String → Ty} {types : List Ty} {t : Ty} {l : Option Location} :
    Param.Allow baseTypes names params types → TypeExpr.Allows baseTypes names returns t →
    Term.Declares baseTypes (.definition f params returns body l)

namespace Check

variable {stage stage' : Stage} {rules : Rules}

/-! ## Settled stages -/

/-- No scheme that is bound has a free variable, and its bound variables are drawn already. -/
structure Stage.Settled (stage : Stage) : Prop where
  closed : ∀ v, v ∉ stage.env.freeVars
  below : stage.env.Below stage.next

theorem settled_empty (n : Int) : Stage.Settled ⟨Table.empty, n⟩ := ⟨nofun, nofun⟩

/-- Two settled stages that say the same of all names that are not hidden are alike. -/
theorem Stage.Settled.alike (h : stage.Settled) (h' : stage'.Settled) {hidden : String → Prop}
    (hget : ∀ x, ¬ hidden x → stage'.env.get? x = stage.env.get? x) :
    Stage.Alike ⟨none, hidden⟩ (.between stage.next stage'.next) stage stage' := by
  have hclosed : ∀ {stage : Stage}, stage.Settled → ∀ {x scheme},
      stage.env.get? x = some scheme → ∀ v, v ∉ scheme.freeVars := fun hs _ _ hx v hv =>
    hs.closed v (Env.mem_freeVars.2 ⟨_, Table.mem_values_of_get? hx, hv⟩)
  refine ⟨fun x => ?_, rfl, rfl, nofun⟩
  by_cases hx : hidden x
  · exact .inr ⟨hx, fun _ => hclosed h, fun _ => hclosed h'⟩
  · refine .inl ?_
    have heq := hget x hx
    rw [heq]
    rcases hs : stage.env.get? x with _ | scheme
    · exact .none
    · have hmem := Table.mem_values_of_get? hs
      have hmem' := Table.mem_values_of_get? (heq.trans hs)
      exact .some (Scheme.alike_self rfl (hclosed h hs) (.inl (h.below scheme hmem).2)
        (.inl (h'.below scheme hmem').2))

/-- A stage is like itself. -/
theorem Stage.Settled.alike_self (h : stage.Settled) :
    Stage.Alike .plain (.between stage.next stage.next) stage stage :=
  h.alike h fun _ _ => rfl

/-- What an item makes of an environment: it binds at most its own name, to a type that is
generalized there. -/
inductive Entered (item : Term) (env : Env) (n : Int) : Env → Prop
  | same : Entered item env n env
  | bound {x : String} {t : Ty} : item.boundName? = some x → (∀ v ∈ t.leaves, v < n) →
    Entered item env n (env.insert x (env.generalize t))

theorem Entered.get? {item : Term} {env env' : Env} {n : Int} (h : Entered item env n env')
    {x : String} (hx : item.boundName? ≠ some x) : env'.get? x = env.get? x := by
  cases h with
  | same => rfl
  | bound hname _ =>
    rw [Table.get?_insert, if_neg]
    rintro rfl
    exact hx hname

theorem Stage.Settled.entered (h : stage.Settled) {item : Term} {n : Int} {env : Env}
    (hn : stage.next ≤ n) (he : Entered item stage.env n env) : Stage.Settled ⟨env, n⟩ := by
  cases he with
  | same => exact ⟨h.closed, h.below.mono hn⟩
  | @bound x t _ ht =>
    refine ⟨fun v hv => ?_, (h.below.mono hn).generalize x ht⟩
    rcases Env.mem_freeVars_insert hv with hv | hv
    · exact h.closed v (Env.mem_freeVars_generalize.1 hv).2
    · exact h.closed v hv

theorem boundName?_of_declared? {position : Position} {item : Term} {x : String}
    {step : Naming.Step Ty} (h : declared? rules position item = some (x, step)) :
    item.boundName? = some x := by
  unfold declared? at h
  split at h
  · exact congrArg some (Prod.mk.inj (Option.some.inj h)).1
  · exact congrArg some (Prod.mk.inj (Option.some.inj h)).1
  · cases h

theorem recover_entered (rules : Rules) (slot : Nat) (item : Term) (env : Env) (n : Int) :
    n ≤ (recover rules [slot] item env n).2 ∧
      Entered item env (recover rules [slot] item env n).2 (recover rules [slot] item env n).1 := by
  unfold recover
  rcases hd : declared? rules [slot] item with _ | ⟨x, step⟩
  · exact ⟨Int.le_refl n, .same⟩
  · have hdeclared := declared?_alike .plain rules slot slot item
    rw [hd] at hdeclared
    cases hdeclared with
    | some htracks =>
      have hend := htracks.2 (.between n n) ⟨n, Table.empty⟩ ⟨n, Table.empty⟩
        ⟨rfl, rfl, nofun, rfl, fun v hv => absurd hv List.not_mem_nil⟩
      simp only at hend ⊢
      generalize step ⟨n, Table.empty⟩ = r at hend ⊢
      cases hend with
      | ok hq hn ht =>
        refine ⟨Int.le_trans hq.first (Int.le_of_eq hn.first.symm),
          .bound (boundName?_of_declared? hd) fun v hv => ?_⟩
        exact Int.lt_of_lt_of_le (ht.drawn v hv) (Int.le_of_eq hn.first.symm)
      | error hq hn _ => exact ⟨Int.le_trans hq.first (Int.le_of_eq hn.first.symm), .same⟩

/-- An item declares a type for its name just if that type can be read. -/
theorem declares_iff (rules : Rules) (position : Position) (item : Term) (n : Int) :
    item.Declares rules.baseTypes ↔ ∃ x step t naming,
      declared? rules position item = some (x, step) ∧ step ⟨n, Table.empty⟩ = .ok t naming := by
  have hle := Int.le_refl n
  have hwithin := Infer.within_empty n
  have hfits : ∀ names, Naming.Fits names .var ⟨n, Table.empty⟩ := fun _ _ _ => nofun
  constructor
  · intro h
    cases h with
    | letBinding hmeans =>
      obtain ⟨t, naming, hrun, -⟩ :=
        (TypeExpr.leads_becomes hle hwithin (hfits _) hmeans (1 :: position)).exists_ok rfl
      exact ⟨_, _, t, naming, rfl, hrun⟩
    | definition hparams hreturns =>
      obtain ⟨answer, naming, hrun, -⟩ := (Param.leads_becomesSignature hle hwithin (hfits _)
        hparams hreturns position).exists_ok rfl
      exact ⟨_, _, .fn answer.1 answer.2, naming, rfl, bind_of_ok hrun⟩
  · rintro ⟨x, step, t, naming, hd, hrun⟩
    cases item with
    | definition f params returns body l =>
      cases hd
      rcases hsignature : signature rules.baseTypes params returns position ⟨n, Table.empty⟩ with
        ⟨answer, after⟩ | ⟨e, after⟩
      · have hread := (Param.leads_signature hle hwithin params returns position).of_ok rfl
          hsignature
        obtain ⟨names, hparams, hreturns⟩ := hread.exists_names
        exact .definition hparams hreturns
      · rw [bind_of_error hsignature] at hrun
        cases hrun
    | letBinding y value ascription l =>
      cases ascription with
      | none => cases hd
      | some written =>
        cases hd
        have hread := (TypeExpr.leads_resolve hle hwithin written (1 :: position)).of_ok rfl hrun
        obtain ⟨names, hmeans⟩ := hread.exists_names
        exact .letBinding hmeans
    | _ => cases hd

/-- A failed item that declares no type binds nothing. -/
theorem recover_of_not_declares {item : Term} (h : ¬ item.Declares rules.baseTypes) (slot : Nat)
    (env : Env) (n : Int) : (recover rules [slot] item env n).1 = env := by
  unfold recover
  rcases hd : declared? rules [slot] item with _ | ⟨x, step⟩
  · rfl
  · simp only
    rcases hrun : step ⟨n, Table.empty⟩ with ⟨t, naming⟩ | ⟨e, naming⟩
    · exact absurd ((declares_iff rules [slot] item n).2 ⟨x, step, t, naming, hd, hrun⟩) h
    · rfl

/-- An item that was inspected passed, or it failed and perhaps was recovered. -/
theorem inspect_cases {resilient : Bool} {item : Term} {slot : Nat} {report : Report}
    (h : inspect rules resilient item slot stage = .ok (report, stage')) :
    (∃ s env after types,
      Infer.check rules item stage.env [slot] (.start stage.next) = .ok (s, env) after ∧
        report = passed item env types after ∧ stage' = ⟨env, after.next⟩) ∨
    ∃ error after,
      Infer.check rules item stage.env [slot] (.start stage.next) =
          .error (.typeError error) after ∧
        report = failed error after ∧
        stage' = if resilient then ⟨(recover rules [slot] item stage.env after.next).1,
          (recover rules [slot] item stage.env after.next).2⟩ else ⟨stage.env, after.next⟩ := by
  unfold inspect at h
  rcases hrun : Infer.check rules item stage.env [slot] (.start stage.next) with
    ⟨⟨s, env⟩, after⟩ | ⟨failure, after⟩
  · rw [hrun] at h
    rcases hfinal : finalTypes s after.types with failure | types
    · simp [hfinal, bind, Except.bind] at h
    · simp only [hfinal, bind, Except.bind, Except.ok.injEq, Prod.mk.injEq] at h
      exact .inl ⟨s, env, after, types, rfl, h.1.symm, h.2.symm⟩
  · rw [hrun] at h
    cases failure with
    | typeError error =>
      obtain ⟨hreport, hstage⟩ := Prod.mk.inj (Except.ok.inj h)
      refine .inr ⟨error, after, rfl, hreport.symm, hstage.symm.trans ?_⟩
      cases resilient <;> rfl
    | cyclic | notExpression _ | notStatement _ | malformed _ _ => cases h

/-- Variables that were drawn before an error stay drawn. -/
theorem next_le_of_check_error (hr : rules.Proper) (h : stage.Settled) {item : Term} {slot : Nat}
    {failure : InferFailure} {after : InferState}
    (hrun : Infer.check rules item stage.env [slot] (.start stage.next) = .error failure after) :
    stage.next ≤ after.next := by
  have hend := Infer.pacedChecked hr item (fun _ _ => id) _ _ _ [] h.alike_self.env _ _
    (h.alike_self.start [slot] [slot])
  rw [List.nil_append, hrun] at hend
  cases hend with
  | error hq hafter _ => exact hafter.first ▸ hq.first

/-- Whether an item passes or fails, it binds at most its own name. -/
theorem inspect_entered (hr : rules.Proper) (h : stage.Settled) {resilient : Bool} {item : Term}
    {slot : Nat} {report : Report}
    (hrun : inspect rules resilient item slot stage = .ok (report, stage')) :
    stage.next ≤ stage'.next ∧ Entered item stage.env stage'.next stage'.env := by
  rcases inspect_cases hrun with ⟨s, env, after, types, hcheck, -, rfl⟩ |
    ⟨error, after, hcheck, -, hstage⟩
  · have hp := (Infer.passes hr item stage.env [slot] stage.next h.below).of_ok rfl hcheck
    refine ⟨hp.tidy.le, ?_⟩
    rcases (hp.of_closed h.closed).bound with ⟨-, henv⟩ | ⟨x, t, hname, henv⟩
    · exact henv ▸ .same
    · have hbelow : (env : Env).Below after.next := hp.below
      have henv : env = stage.env.insert x (stage.env.generalize t) := henv
      subst henv
      refine .bound hname fun v hv => ?_
      have hget : (stage.env.insert x (stage.env.generalize t)).get? x =
          some (stage.env.generalize t) := by simp [Table.get?_insert]
      exact (hbelow _ (Table.mem_values_of_get? hget)).2 v
        (Env.mem_quantified_generalize.2 ⟨hv, h.closed v⟩)
  · have hle := next_le_of_check_error hr h hcheck
    cases resilient with
    | false =>
      rw [hstage]
      exact ⟨hle, .same⟩
    | true =>
      rw [hstage]
      obtain ⟨hle', hentered⟩ := recover_entered rules slot item stage.env after.next
      exact ⟨Int.le_trans hle hle', hentered⟩

theorem Stage.Settled.next (h : stage.Settled) (hr : rules.Proper) {resilient : Bool} {item : Term}
    {slot : Nat} {report : Report}
    (hrun : inspect rules resilient item slot stage = .ok (report, stage')) : stage'.Settled := by
  obtain ⟨hle, hentered⟩ := inspect_entered hr h hrun
  exact h.entered hle hentered

theorem boundName?_of_inspect {resilient : Bool} {item : Term} {slot : Nat} {report : Report}
    (hrun : inspect rules resilient item slot stage = .ok (report, stage')) {x : String}
    {scheme : Scheme} (hx : report.bound? = some (x, scheme)) : item.boundName? = some x := by
  rcases inspect_cases hrun with ⟨s, env, after, types, -, rfl, -⟩ | ⟨error, after, -, rfl, -⟩
  · obtain ⟨y, hy, hget⟩ := Option.bind_eq_some_iff.1 hx
    obtain ⟨_, -, heq⟩ := Option.map_eq_some_iff.1 hget
    exact hy.trans (congrArg some (Prod.mk.inj heq).1)
  · cases hx

/-- An item in place is always reported on. -/
theorem exists_inspect (hr : rules.Proper) (h : stage.Settled) {item : Term}
    (hplace : item.IsStatement) (resilient : Bool) (slot : Nat) :
    ∃ report stage', inspect rules resilient item slot stage = .ok (report, stage') := by
  unfold inspect
  rcases hcheck : Infer.check rules item stage.env [slot] (.start stage.next) with
    ⟨⟨s, env⟩, after⟩ | ⟨failure, after⟩
  · have hp := (Infer.passes hr item stage.env [slot] stage.next h.below).of_ok rfl hcheck
    simp only [finalTypes_eq_ok hp.tidy.solved]
    exact ⟨_, _, rfl⟩
  · obtain ⟨error, rfl⟩ := Infer.typeError_of_check hr hplace (s := .start stage.next) h.below
      hcheck
    exact ⟨_, _, rfl⟩

/-- A check that goes on after errors goes through. -/
theorem through_of_resilient {es : List Term} {slot : Nat} {rs : List Report} {through : Bool}
    (h : reports rules true es slot stage = .ok (rs, stage', through)) : through = true := by
  induction es generalizing slot stage rs with
  | nil =>
    cases h
    rfl
  | cons item es ih =>
    obtain ⟨report, next, rest, -, -, hrest⟩ := reports_cons_resilient h
    exact ih hrest

/-- If an item in place is reported on at each stage of some kind, and leaves such a stage, then so
is and does a row of items. -/
theorem exists_reports_of {resilient : Bool} {I : Stage → Prop}
    (hstep : ∀ stage item slot, I stage → item.IsStatement →
      ∃ report stage', inspect rules resilient item slot stage = .ok (report, stage') ∧ I stage')
    (h : I stage) {es : List Term} (hplace : ∀ e ∈ es, e.IsStatement) (slot : Nat) :
    ∃ rs stage' through, reports rules resilient es slot stage = .ok (rs, stage', through) ∧
      I stage' := by
  induction es generalizing stage slot with
  | nil => exact ⟨[], stage, true, rfl, h⟩
  | cons item es ih =>
    obtain ⟨hitem, hes⟩ := List.forall_mem_cons.1 hplace
    obtain ⟨report, next, hfirst, hnext⟩ := hstep stage item slot h hitem
    by_cases hgo : (resilient || report.error?.isNone) = true
    · obtain ⟨rs, stage', through, hrest, hlast⟩ := ih hnext hes (slot + 1)
      refine ⟨report :: rs, stage', through, ?_, hlast⟩
      rw [reports_cons hfirst hgo, hrest]
      rfl
    · obtain ⟨rfl, hstop⟩ := Bool.or_eq_false_iff.1 (Bool.eq_false_iff.2 hgo)
      exact ⟨[report], next, false, reports_cons_stop hfirst hstop, hnext⟩

/-- Items in place are always reported on, and leave a settled stage. -/
theorem exists_reports (hr : rules.Proper) (h : stage.Settled) {es : List Term}
    (hplace : ∀ e ∈ es, e.IsStatement) (resilient : Bool) (slot : Nat) :
    ∃ rs stage' through, reports rules resilient es slot stage = .ok (rs, stage', through) ∧
      stage'.Settled := by
  refine exists_reports_of (fun stage item slot hs hitem => ?_) h hplace slot
  obtain ⟨report, stage', hrun⟩ := exists_inspect hr hs hitem resilient slot
  exact ⟨report, stage', hrun, hs.next hr hrun⟩

theorem exists_reports_resilient (hr : rules.Proper) (h : stage.Settled) {es : List Term}
    (hplace : ∀ e ∈ es, e.IsStatement) (slot : Nat) :
    ∃ rs stage', reports rules true es slot stage = .ok (rs, stage', true) ∧ stage'.Settled := by
  obtain ⟨rs, stage', through, hrun, hsettled⟩ := exists_reports hr h hplace true slot
  obtain rfl := through_of_resilient hrun
  exact ⟨rs, stage', hrun, hsettled⟩

/-- A last expression in place is always reported on. -/
theorem exists_finish (hr : rules.Proper) (h : stage.Settled) {e : Option Term}
    (hplace : ∀ t, e = some t → t.IsExpression) (slot : Nat) :
    ∃ last t, finish rules slot stage e = .ok (last, t) := by
  cases e with
  | none => exact ⟨_, _, rfl⟩
  | some e =>
    rw [finish]
    rcases hrun : Infer.infer rules e stage.env [slot] (.start stage.next) with
      ⟨⟨s, t⟩, after⟩ | ⟨failure, after⟩
    · have hi := (Infer.sound hr e stage.env [slot] stage.next h.below).of_ok rfl hrun
      simp only [finalTypes_eq_ok hi.tidy.solved, hi.tidy.solved.expand? t]
      exact ⟨_, _, rfl⟩
    · obtain ⟨error, rfl⟩ := Infer.typeError_of_infer hr (hplace e rfl) (s := .start stage.next)
        h.below hrun
      exact ⟨_, _, rfl⟩

/-- In a check that goes on after errors, the reports on two rows of items are those on the first
and those on the second. -/
theorem reports_append {first second : List Term} {slot : Nat} {stage stage' : Stage}
    {rs : List Report} {rest : List Report × Stage × Bool}
    (h : reports rules true first slot stage = .ok (rs, stage', true))
    (h' : reports rules true second (slot + first.length) stage' = .ok rest) :
    reports rules true (first ++ second) slot stage = .ok (rs ++ rest.1, rest.2) := by
  induction first generalizing slot stage rs with
  | nil =>
    cases h
    exact h'
  | cons item first ih =>
    obtain ⟨report, next, more, hi, rfl, hmore⟩ := reports_cons_resilient h
    rw [List.length_cons, Nat.add_comm first.length, ← Nat.add_assoc] at h'
    rw [List.cons_append, reports_cons hi rfl, ih hmore h']
    rfl

/-- In a check that goes on after errors, every item is reported on, and a report tells of no name
but that of its item. -/
theorem reports_of_items {es : List Term} {slot : Nat} {rs : List Report} {through : Bool}
    (h : reports rules true es slot stage = .ok (rs, stage', through)) :
    rs.length = es.length ∧ ∀ r ∈ rs, ∀ x scheme, r.bound? = some (x, scheme) →
      ∃ e ∈ es, e.boundName? = some x := by
  induction es generalizing slot stage rs with
  | nil =>
    cases h
    simp
  | cons item es ih =>
    obtain ⟨report, next, more, hi, rfl, hmore⟩ := reports_cons_resilient h
    obtain ⟨hlength, hbound⟩ := ih hmore
    refine ⟨congrArg (· + 1) hlength, List.forall_mem_cons.2 ⟨fun x scheme hx => ?_,
      fun r hr x scheme hx => ?_⟩⟩
    · exact ⟨item, by simp, boundName?_of_inspect hi hx⟩
    · obtain ⟨e, he, hx⟩ := hbound r hr x scheme hx
      exact ⟨e, List.mem_cons_of_mem _ he, hx⟩

end Check

/-- A program in place is always reported on. -/
theorem Program.exists_reports {p : Program} (h : p.InPlace) (extraTypes : List String)
    (resilient : Bool) (seed : Int) :
    ∃ rs t, p.reports ⟨extraTypes, resilient, seed, Table.empty⟩ = .ok (rs, t) := by
  have hr := Rules.proper_standard extraTypes
  obtain ⟨first, stage, through, hfirst, hstage⟩ :=
    Check.exists_reports hr (Check.settled_empty seed) h.statements resilient 0
  cases through with
  | false =>
    refine ⟨first, none, ?_⟩
    unfold Program.reports
    simp only [hfirst, bind, Except.bind]
    rfl
  | true =>
    obtain ⟨last, t, hlast⟩ := Check.exists_finish hr hstage h.result p.statements.length
    exact ⟨first ++ last, t, reports_of_through hfirst hlast⟩

end LetPoly
