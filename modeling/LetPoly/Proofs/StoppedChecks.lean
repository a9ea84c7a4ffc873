-- A check that stops at the first error. It is the check that goes on after errors, cut
-- short: the two say the same of each part up to the one that fails, and what the longer
-- one comes to know after that leaves all that was known before as it was.
import LetPoly.Proofs.ProgramParts

namespace LetPoly

/-! ## Reports up to the first error -/

namespace Check

variable {rules : Rules} {stage stage' : Stage} {slot : Nat}

/-- Stopping at errors or not, an item is reported on in the same way, and if it passes the next one
is met with the same. -/
theorem inspect_stopping {item : Term} {report : Report}
    (h : inspect rules true item slot stage = .ok (report, stage')) :
    ∃ next, inspect rules false item slot stage = .ok (report, next) ∧
      (report.error? = none → next = stage') := by
  rcases inspect_cases h with ⟨s, env, after, types, hcheck, hreport, hstage⟩ |
    ⟨error, after, hcheck, hreport, -⟩
  · refine ⟨stage', ?_, fun _ => rfl⟩
    unfold inspect at h ⊢
    rw [hcheck] at h ⊢
    exact h
  · subst hreport
    refine ⟨⟨stage.env, after.next⟩, ?_, nofun⟩
    unfold inspect
    rw [hcheck]
    rfl

/-- If no item fails, the check that stops at errors does not stop. -/
theorem reports_of_passed {es : List Term} {rs : List Report} {through : Bool}
    (h : reports rules true es slot stage = .ok (rs, stage', through))
    (hpassed : ∀ r ∈ rs, r.error? = none) :
    reports rules false es slot stage = .ok (rs, stage', true) := by
  induction es generalizing slot stage rs with
  | nil =>
    cases h
    rfl
  | cons item es ih =>
    obtain ⟨report, middle, rest, hitem, rfl, hrest⟩ := reports_cons_resilient h
    obtain ⟨hfirst, hlater⟩ := List.forall_mem_cons.1 hpassed
    obtain ⟨next, hstopping, hnext⟩ := inspect_stopping hitem
    obtain rfl := hnext hfirst
    rw [reports_cons hstopping (by rw [hfirst]; rfl), ih hrest hlater]
    rfl

/-- The check that stops at errors reports on the items up to the first that fails. -/
theorem reports_of_failed {es : List Term} {before later : List Report} {report : Report}
    {error : TypeError} {through : Bool}
    (h : reports rules true es slot stage = .ok (before ++ report :: later, stage', through))
    (hpassed : ∀ r ∈ before, r.error? = none) (hfailed : report.error? = some error) :
    ∃ last, reports rules false es slot stage = .ok (before ++ [report], last, false) := by
  induction es generalizing slot stage before with
  | nil => simp [reports] at h
  | cons item es ih =>
    obtain ⟨first, middle, rest, hitem, hrs, hrest⟩ := reports_cons_resilient h
    obtain ⟨next, hstopping, hnext⟩ := inspect_stopping hitem
    cases before with
    | nil =>
      obtain ⟨rfl, rfl⟩ := List.cons.inj hrs
      exact ⟨next, reports_cons_stop hstopping (by rw [hfailed]; rfl)⟩
    | cons r before =>
      obtain ⟨rfl, rfl⟩ := List.cons.inj hrs
      obtain ⟨hfirst, hlater⟩ := List.forall_mem_cons.1 hpassed
      obtain rfl := hnext hfirst
      obtain ⟨last, hlast⟩ := ih hrest hlater
      refine ⟨last, ?_⟩
      rw [reports_cons hstopping (by rw [hfirst]; rfl), hlast]
      rfl

/-- There is no last expression, or it passed and gave the program its type, or it failed. -/
theorem finish_endings {e : Option Term} {last : List Report} {t : Option Ty}
    (h : finish rules slot stage e = .ok (last, t)) :
    (last = [] ∧ t = some .unit) ∨
    (∃ types log u, last = [.passed none types log] ∧ t = some u) ∨
    ∃ error log, last = [.failed error log] ∧ t = none := by
  cases e with
  | none =>
    cases h
    exact .inl ⟨rfl, rfl⟩
  | some e =>
    rw [finish] at h
    rcases hrun : Infer.infer rules e stage.env [slot] (.start stage.next) with
      ⟨⟨s, u⟩, after⟩ | ⟨failure, after⟩
    · rw [hrun] at h
      rcases hfinal : finalTypes s after.types with failure | types
      · simp [hfinal, bind, Except.bind] at h
      rcases hu : s.expand? u with _ | u'
      · simp [hfinal, hu, bind, Except.bind] at h
      · simp only [hfinal, hu, bind, Except.bind, Except.ok.injEq, Prod.mk.injEq] at h
        exact .inr (.inl ⟨types, logOf after, u', h.1.symm, h.2.symm⟩)
    · rw [hrun] at h
      cases failure with
      | typeError error =>
        cases h
        exact .inr (.inr ⟨error, logOf after, rfl, rfl⟩)
      | cyclic | notExpression _ | notStatement _ | malformed _ _ => cases h

/-- If the last expression fails, there is no report but that, and the program has no type. -/
theorem finish_of_failed {e : Option Term} {before later : List Report} {report : Report}
    {error : TypeError} {t : Option Ty}
    (h : finish rules slot stage e = .ok (before ++ report :: later, t))
    (hfailed : report.error? = some error) : before = [] ∧ later = [] ∧ t = none := by
  rcases finish_endings h with ⟨hnil, -⟩ | ⟨types, log, u, hone, -⟩ | ⟨e, log, hone, ht⟩
  · simp at hnil
  · obtain ⟨rfl, hcons⟩ | ⟨-, hnil⟩ := List.append_eq_singleton_iff.1 hone
    · obtain ⟨rfl, -⟩ := List.cons.inj hcons
      cases hfailed
    · cases hnil
  · obtain ⟨rfl, hcons⟩ | ⟨-, hnil⟩ := List.append_eq_singleton_iff.1 hone
    · exact ⟨rfl, (List.cons.inj hcons).2, ht⟩
    · cases hnil

end Check

/-! ## The two checks -/

namespace Program

variable {p : Program} {rules : Rules} {seed : Int} {prelude : Env}

theorem checkBy_of_stopped {first : List Report} {stage : Check.Stage}
    (hfirst : Check.reports rules false p.statements 0 ⟨prelude, seed⟩ =
      .ok (first, stage, false)) :
    p.checkBy rules false seed prelude = .ok (.ofReports first none) := by
  unfold checkBy
  rw [Check.items_eq_reports, hfirst]
  rfl

/-- If all parts pass, both checks come to the same. -/
theorem checkBy_of_passed {first last : List Report} {stage : Check.Stage} {t : Option Ty}
    (hfirst : Check.reports rules true p.statements 0 ⟨prelude, seed⟩ = .ok (first, stage, true))
    (hlast : Check.finish rules p.statements.length stage p.result = .ok (last, t))
    (hpassed : ∀ r ∈ first, r.error? = none) :
    p.checkBy rules false seed prelude = .ok (.ofReports (first ++ last) t) :=
  checkBy_of_through (Check.reports_of_passed hfirst hpassed) hlast

/-- The check that stops at errors comes to what the reports up to the first error come to. -/
theorem checkBy_of_failed {first last before later : List Report} {stage : Check.Stage}
    {t : Option Ty} {report : Report} {error : TypeError}
    (hfirst : Check.reports rules true p.statements 0 ⟨prelude, seed⟩ = .ok (first, stage, true))
    (hlast : Check.finish rules p.statements.length stage p.result = .ok (last, t))
    (hrs : first ++ last = before ++ report :: later) (hpassed : ∀ r ∈ before, r.error? = none)
    (hfailed : report.error? = some error) :
    p.checkBy rules false seed prelude = .ok (.ofReports (before ++ [report]) none) := by
  -- the report on the last expression is the first error only if all items pass
  have hend : ∀ between, before = first ++ between → last = between ++ report :: later →
      p.checkBy rules false seed prelude = .ok (.ofReports (before ++ [report]) none) := by
    rintro between rfl rfl
    obtain ⟨rfl, rfl, rfl⟩ := Check.finish_of_failed hlast hfailed
    rw [List.append_nil] at hpassed ⊢
    exact checkBy_of_passed hfirst hlast hpassed
  rcases List.append_eq_append_iff.1 hrs with ⟨between, hbefore, hlater⟩ | ⟨between, rfl, hlater⟩
  · exact hend between hbefore hlater
  · cases between with
    | nil => exact hend [] (by simp) hlater.symm
    | cons r rest =>
      obtain ⟨rfl, rfl⟩ := List.cons.inj hlater
      obtain ⟨stop, hstopped⟩ := Check.reports_of_failed hfirst hpassed hfailed
      exact checkBy_of_stopped hstopped

end Program

/-! ## What is known of each part -/

/-- A position is in one of the parts before a slot. -/
def Position.Before (slot : Nat) (position : Position) : Prop := ∃ i < slot, [i] <:+ position

instance (slot : Nat) (position : Position) : Decidable (position.Before slot) :=
  inferInstanceAs (Decidable (∃ i < slot, [i] <:+ position))

namespace Program

section

variable (p : Program) (rules : Rules) (seed : Int) (prelude : Env)

/-- The error in which the check of the part in a slot ends, if there is one, in a check that goes
on after errors. -/
def endBy? (slot : Nat) : Option (Option TypeError) :=
  (p.endingBy? rules seed prelude slot).map (·.1)

/-- The name that the item in a slot binds, with the scheme that the name has right after the
item. -/
def boundBy? (slot : Nat) : Option (String × Scheme) := do
  let item ← p.statements[slot]?
  let x ← item.boundName?
  let stage ← p.stageBy? rules seed prelude (slot + 1)
  let scheme ← stage.env.get? x
  some (x, scheme)

/-- The part in a slot fails with the given error, and the parts before it pass. -/
structure FailsFirst (slot : Nat) (error : TypeError) : Prop where
  fails : p.endBy? rules seed prelude slot = some (some error)
  passed : ∀ i < slot, p.endBy? rules seed prelude i = some none

end

variable {p : Program} {rules : Rules} {seed : Int} {prelude : Env}

theorem join_endBy? (slot : Nat) :
    (p.endBy? rules seed prelude slot).join =
      (p.endingBy? rules seed prelude slot).bind (·.1) := by
  rw [endBy?]
  cases p.endingBy? rules seed prelude slot <;> rfl

theorem FailsFirst.slot_eq {slot slot' : Nat} {error error' : TypeError}
    (h : p.FailsFirst rules seed prelude slot error)
    (h' : p.FailsFirst rules seed prelude slot' error') : slot = slot' := by
  rcases lt_trichotomy slot slot' with hlt | heq | hlt
  · have := h.fails.symm.trans (h'.passed slot hlt)
    cases this
  · exact heq
  · have := h'.fails.symm.trans (h.passed slot' hlt)
    cases this

/-- A report agrees with what is known of the part in a slot. -/
structure Agrees (p : Program) (rules : Rules) (seed : Int) (prelude : Env) (slot : Nat)
    (report : Report) : Prop where
  error? : p.endBy? rules seed prelude slot = some report.error?
  bound? : report.error? = none → report.bound? = p.boundBy? rules seed prelude slot
  types : ∀ entry ∈ report.types, [slot] <:+ entry.1.position

theorem within_of_tells {part : Term} {slot : Nat} {report : Report}
    {ending : Option TypeError × InferState} (h : report.Tells part slot ending) :
    ∀ entry ∈ report.types, [slot] <:+ entry.1.position := by
  intro entry he
  by_cases hpassed : ending.1 = none
  · have hsite := (h.passed hpassed).mem_iff.1 (List.mem_map_of_mem he)
    obtain ⟨v, hv, hsite⟩ := List.mem_map.1 (List.mem_filter.1 hsite).1
    rw [← hsite]
    exact (Term.rooted_walk [slot] part).within _ (List.mem_map_of_mem hv)
  · rw [h.failed hpassed] at he
    cases he

/-- An item that passes is reported with the name that it binds, as the next item is met with. -/
theorem bound?_of_item {first : List Report} {stage : Check.Stage}
    (hfirst : Check.reports rules true p.statements 0 ⟨prelude, seed⟩ = .ok (first, stage, true))
    {slot : Nat} {report : Report} (hreport : first[slot]? = some report)
    (hpassed : report.error? = none) : report.bound? = p.boundBy? rules seed prelude slot := by
  obtain ⟨hlt, -⟩ := List.getElem?_eq_some_iff.1 hreport
  rw [(Check.reports_of_items hfirst).1] at hlt
  have hitem : p.statements[slot]? = some p.statements[slot] := List.getElem?_eq_getElem hlt
  obtain ⟨before, middle, report', next, hbefore, hinspect, hat⟩ := Check.reports_at hfirst hitem
  obtain rfl : report = report' := Option.some.inj (hreport.symm.trans hat)
  rw [Nat.zero_add] at hinspect
  have hnext : Check.reports rules true (p.statements.take (slot + 1)) 0 ⟨prelude, seed⟩ =
      .ok (before ++ [report], next, true) := by
    have hone : Check.reports rules true [p.statements[slot]]
        (0 + (p.statements.take slot).length) middle = .ok ([report], next, true) := by
      rw [List.length_take, Nat.min_eq_left hlt.le, Nat.zero_add, Check.reports_cons hinspect rfl]
      rfl
    rw [List.take_succ_eq_append_getElem hlt]
    exact Check.reports_append hbefore hone
  rcases Check.inspect_cases hinspect with ⟨s, env, after, types, -, rfl, rfl⟩ |
    ⟨error, after, -, rfl, -⟩
  · unfold boundBy?
    rw [hitem, stageBy?_of_reports hnext]
    cases hname : p.statements[slot].boundName? with
    | none => simp [Check.passed, Report.bound?, hname]
    | some x =>
      cases hget : (env : Env).get? x <;> simp [Check.passed, Report.bound?, hname, hget]
  · cases hpassed

/-- The last expression binds no name. -/
theorem bound?_of_last {stage : Check.Stage} {last : List Report} {t : Option Ty}
    (hlast : Check.finish rules p.statements.length stage p.result = .ok (last, t))
    {report : Report} (hreport : report ∈ last) : report.bound? = none := by
  rcases Check.finish_endings hlast with ⟨rfl, -⟩ | ⟨types, log, u, rfl, -⟩ | ⟨e, log, rfl, -⟩
  · cases hreport
  · rw [List.mem_singleton.1 hreport]
    rfl
  · rw [List.mem_singleton.1 hreport]
    rfl

/-- The reports of a check that goes on after errors agree with what is known of the parts. -/
theorem agrees_of_reports (hr : rules.Proper) {first last : List Report} {stage : Check.Stage}
    {t : Option Ty}
    (hfirst : Check.reports rules true p.statements 0 ⟨prelude, seed⟩ = .ok (first, stage, true))
    (hlast : Check.finish rules p.statements.length stage p.result = .ok (last, t)) {slot : Nat}
    {report : Report} (hreport : (first ++ last)[slot]? = some report) :
    p.Agrees rules seed prelude slot report := by
  obtain ⟨part, ending, -, hend, htells⟩ := tells_of_report hr hfirst hlast hreport
  refine ⟨?_, fun hpassed => ?_, within_of_tells htells⟩
  · rw [endBy?, hend, htells.error?]
    rfl
  · have hlength : first.length = p.statements.length := (Check.reports_of_items hfirst).1
    by_cases hlt : slot < first.length
    · rw [List.getElem?_append_left hlt] at hreport
      exact bound?_of_item hfirst hreport hpassed
    · rw [List.getElem?_append_right (Nat.le_of_not_lt hlt)] at hreport
      have hnone : p.statements[slot]? = none := List.getElem?_eq_none (by omega)
      rw [bound?_of_last hlast (List.mem_of_getElem? hreport), boundBy?, hnone]
      rfl

section

variable {before later : List Report} {report : Report} {error : TypeError}

theorem failsFirst_of_agrees
    (h : ∀ i r, (before ++ report :: later)[i]? = some r → p.Agrees rules seed prelude i r)
    (hpassed : ∀ r ∈ before, r.error? = none) (hfailed : report.error? = some error) :
    p.FailsFirst rules seed prelude before.length error := by
  refine ⟨?_, fun i hi => ?_⟩
  · have hagrees := h before.length report (by simp)
    rw [hagrees.error?, hfailed]
  · have hreport : (before ++ report :: later)[i]? = some before[i] := by
      rw [List.getElem?_append_left hi, List.getElem?_eq_getElem hi]
    have hagrees := h i before[i] hreport
    rw [hagrees.error?, hpassed _ (List.getElem_mem hi)]

/-- The schemes of the items that pass before the first error. -/
theorem bound_of_agrees
    (h : ∀ i r, (before ++ report :: later)[i]? = some r → p.Agrees rules seed prelude i r)
    (hpassed : ∀ r ∈ before, r.error? = none) :
    before.filterMap Report.bound? =
      (List.range before.length).filterMap (p.boundBy? rules seed prelude) := by
  refine filterMap_eq_range fun i r hr => ?_
  obtain ⟨hi, -⟩ := List.getElem?_eq_some_iff.1 hr
  have hagrees := h i r (by rw [List.getElem?_append_left hi, hr])
  exact hagrees.bound? (hpassed r (List.mem_of_getElem? hr))

/-- The types of the items before the first error are the entries that stand in these items. -/
theorem types_of_agrees
    (h : ∀ i r, (before ++ report :: later)[i]? = some r → p.Agrees rules seed prelude i r) :
    before.flatMap Report.types = ((before ++ report :: later).flatMap Report.types).filter
      fun entry => entry.1.position.Before before.length := by
  have hbefore : ∀ entry ∈ before.flatMap Report.types,
      entry.1.position.Before before.length := by
    intro entry he
    obtain ⟨r, hr, hentry⟩ := List.mem_flatMap.1 he
    obtain ⟨i, hi⟩ := List.mem_iff_getElem?.1 hr
    obtain ⟨hlt, -⟩ := List.getElem?_eq_some_iff.1 hi
    have hagrees := h i r (by rw [List.getElem?_append_left hlt, hi])
    exact ⟨i, hlt, hagrees.types entry hentry⟩
  have hlater : ∀ entry ∈ (report :: later).flatMap Report.types,
      ¬ entry.1.position.Before before.length := by
    rintro entry he ⟨i, hlt, hwithin⟩
    obtain ⟨r, hr, hentry⟩ := List.mem_flatMap.1 he
    obtain ⟨j, hj⟩ := List.mem_iff_getElem?.1 hr
    have hagrees := h (before.length + j) r (by
      rw [List.getElem?_append_right (Nat.le_add_right _ _), Nat.add_sub_cancel_left, hj])
    have := slot_unique hwithin (hagrees.types entry hentry)
    omega
  rw [List.flatMap_append, List.filter_append, List.filter_eq_self.2 (by simpa using hbefore),
    List.filter_eq_nil_iff.2 (by simpa using hlater), List.append_nil]

end

end Program

/-! ## The law of stopping -/

theorem Report.eq_failed {report : Report} {error : TypeError} (h : report.error? = some error) :
    ∃ log, report = .failed error log := by
  cases report with
  | passed bound types log => cases h
  | failed e log =>
    cases h
    exact ⟨log, rfl⟩

/-- A check that stops at the first error is the check that goes on after errors, cut short. From a
closed prelude both come to an end, for every program that is read from a text, and the errors of
the longer one are those of the parts that fail. If there are none, both come to the same. Otherwise
the one that stops has just the first of these errors, the schemes of the items before the part that
fails, as they were right after each item, those of the other's types that are of nodes in these
items, and no type of the program. -/
theorem a_check_that_stops_is_one_cut_short {source file : String} {p : Program}
    (hread : Program.read source file = .ok p) (baseTypes : List String) (seed : Int)
    {prelude : Env} (hclosed : prelude.Closed) :
    ∃ full cut, p.checkBy (.withBase baseTypes) true seed prelude = .ok full ∧
      p.checkBy (.withBase baseTypes) false seed prelude = .ok cut ∧
      full.errors = ((List.range p.parts.length).filterMap fun slot =>
        (p.endBy? (.withBase baseTypes) seed prelude slot).join) ∧
      (full.errors = [] → cut = full) ∧
      ∀ error more, full.errors = error :: more → ∃ slot,
        p.FailsFirst (.withBase baseTypes) seed prelude slot error ∧
        cut.errors = [error] ∧
        cut.schemes = .ofList
          ((List.range slot).filterMap (p.boundBy? (.withBase baseTypes) seed prelude)) ∧
        cut.types = full.types.filter (fun entry => entry.1.position.Before slot) ∧
        cut.programType = none := by
  have hr := Rules.proper_withBase baseTypes
  have hplace := Program.inPlace_of_read hread
  obtain ⟨first, stage, last, t, hfirst, hlast⟩ :=
    Program.exists_reports_of_closed hplace hr seed hclosed
  have hagrees : ∀ i r, (first ++ last)[i]? = some r → _ :=
    fun i r => Program.agrees_of_reports hr hfirst hlast
  have hfull := Program.checkBy_of_through hfirst hlast
  have hall := Program.errors_of_reports hr hfirst hlast
  rw [← Checked.errors_ofReports _ t] at hall
  simp only [← Program.join_endBy?] at hall
  rcases herrors : (first ++ last).filterMap Report.error? with _ | ⟨error, more⟩
  · have hpassed := List.filterMap_eq_nil_iff.1 herrors
    have hcut := Program.checkBy_of_passed hfirst hlast fun r hr =>
      hpassed r (List.mem_append_left last hr)
    refine ⟨_, _, hfull, hcut, hall, fun _ => rfl, fun error more h => ?_⟩
    rw [Checked.errors_ofReports, herrors] at h
    cases h
  · obtain ⟨before, report, later, hrs, hpassed, hfailed, -⟩ :=
      List.filterMap_eq_cons_iff.1 herrors
    have hcut := Program.checkBy_of_failed hfirst hlast hrs hpassed hfailed
    refine ⟨_, _, hfull, hcut, hall, fun h => ?_, fun error' more' h => ⟨before.length, ?_⟩⟩
    · rw [Checked.errors_ofReports, herrors] at h
      cases h
    · rw [Checked.errors_ofReports, herrors] at h
      obtain ⟨rfl, rfl⟩ := List.cons.inj h
      rw [hrs] at hagrees
      obtain ⟨log, rfl⟩ := Report.eq_failed hfailed
      refine ⟨Program.failsFirst_of_agrees hagrees hpassed hfailed, ?_, ?_, ?_, rfl⟩
      · rw [Checked.errors_ofReports, List.filterMap_append, List.filterMap_eq_nil_iff.2 hpassed]
        rfl
      · have hnone : [Report.failed error log].filterMap Report.bound? = [] := rfl
        rw [← Program.bound_of_agrees hagrees hpassed]
        simp [Checked.ofReports, Checked.add, Checked.start, Table.ofList, hnone]
      · rw [Checked.types_ofReports, Checked.types_ofReports, hrs,
          ← Program.types_of_agrees hagrees]
        simp [Report.types]

/-- A name is bound to a number, called as a function, and bound again to a truth value. -/
def reboundSource : String := "let x = 1; x(); let x = true; x"

/-- What is read from the text. -/
def reboundProgram : Program where
  statements := [
    .letBinding "x" (.number 1 (inLineOne 9)) none (inLineOne 5),
    .discard (.call (.name "x" (inLineOne 12)) [] (inLineOne 12)) (inLineOne 12),
    .letBinding "x" (.boolean true (inLineOne 25)) none (inLineOne 21)]
  result := some (.name "x" (inLineOne 31))
  file := ""
  location := inLineOne 1

theorem read_reboundSource : Program.read reboundSource "" = .ok reboundProgram := by
  cbv

/-- The error of the call. -/
def reboundError : TypeError :=
  .placed (.clash (.mismatch .number (.fn [] (.var 0)))) ⟨⟨.call, inLineOne 12⟩, [0, 1]⟩

theorem failsFirst_reboundProgram :
    reboundProgram.FailsFirst (.withBase []) 0 .empty 1 reboundError := by
  have hfirst : reboundProgram.endBy? (.withBase []) 0 .empty 0 = some none := by cbv
  refine ⟨by cbv, fun i hi => ?_⟩
  obtain rfl : i = 0 := by omega
  exact hfirst

theorem boundBy?_reboundProgram :
    reboundProgram.boundBy? (.withBase []) 0 .empty 0 = some ("x", .mono .number) := by
  cbv

/-- The check that stops knows the name as a number, though it is bound again later. -/
theorem a_check_that_stops_is_one_cut_short_at_a_call :
    Program.read reboundSource "" = .ok reboundProgram ∧ Env.Closed .empty ∧
      ∃ full cut more, reboundProgram.checkBy (.withBase []) true 0 .empty = .ok full ∧
        reboundProgram.checkBy (.withBase []) false 0 .empty = .ok cut ∧
        full.errors = reboundError :: more ∧ cut.errors = [reboundError] ∧
        cut.schemes = .ofList [("x", .mono .number)] ∧ cut.programType = none := by
  have hclosed : Env.Closed .empty := nofun
  obtain ⟨full, cut, hfull, hcut, hall, -, hstop⟩ :=
    a_check_that_stops_is_one_cut_short read_reboundSource [] 0 hclosed
  have hfirst := failsFirst_reboundProgram
  have herrors : full.errors = reboundError :: [2, 3].filterMap fun slot =>
      (reboundProgram.endBy? (.withBase []) 0 .empty slot).join := by
    rw [hall]
    change [0, 1, 2, 3].filterMap _ = _
    simp [hfirst.passed 0, hfirst.fails]
  obtain ⟨slot, hslot, hone, hschemes, -, htype⟩ := hstop _ _ herrors
  obtain rfl := hslot.slot_eq hfirst
  refine ⟨read_reboundSource, hclosed, full, cut, _, hfull, hcut, herrors, hone, ?_, htype⟩
  rw [hschemes, List.range_one, List.filterMap_cons_some boundBy?_reboundProgram]
  rfl

end LetPoly
