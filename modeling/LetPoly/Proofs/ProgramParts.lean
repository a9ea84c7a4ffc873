-- The parts of a program, which are its items and its last expression, and how the check
-- of each of them ends. A check that goes on after errors comes to all parts, and what it
-- knows in the end is made of one report for each, in order. If it starts with names that
-- are bound to closed schemes, it always comes to an end.
import Mathlib.Data.List.Induction
import LetPoly.Proofs.OrderlyRuns
import LetPoly.Proofs.RecordedNodes
import LetPoly.Proofs.SettledStages

namespace LetPoly

/-! ## Parts -/

/-- The error of types in which a run ends, if there is one, and the state that the run leaves.
Other failures are no such end. -/
def Infer.ending? {α : Type} :
    EStateM.Result InferFailure InferState α → Option (Option TypeError × InferState)
  | .ok _ after => some (none, after)
  | .error (.typeError error) after => some (some error, after)
  | .error _ _ => none

/-- The rules of the language with the given base types in place of its own. -/
def Rules.withBase (baseTypes : List String) : Rules := ⟨baseTypes, standardOperators⟩

theorem Rules.proper_withBase (baseTypes : List String) : (withBase baseTypes).Proper :=
  proper_standard []

namespace Program

/-- What is checked part by part: the items and the last expression. -/
def parts (p : Program) : List Term := p.statements ++ p.result.toList

section

variable (p : Program) (rules : Rules) (seed : Int) (prelude : Env)

/-- What the part in a slot is met with in a check that goes on after errors. -/
def stageBy? (slot : Nat) : Option Check.Stage :=
  match Check.items rules true (p.statements.take slot) 0 ⟨prelude, seed, .start⟩ with
  | .ok (st, _) => some ⟨st.env, st.next⟩
  | .error _ => none

/-- How the check of the part in a slot ends, in a check that goes on after errors. -/
def endingBy? (slot : Nat) : Option (Option TypeError × InferState) := do
  let part ← p.parts[slot]?
  let stage ← p.stageBy? rules seed prelude slot
  if slot < p.statements.length then
    Infer.ending? (Infer.check rules part stage.env [slot] (.start stage.next))
  else
    Infer.ending? (Infer.infer rules part stage.env [slot] (.start stage.next))

end

/-- How the check of the part in a slot ends by the rules of the language, in a check that goes on
after errors. -/
def endAt? (p : Program) (options : CheckOptions) (slot : Nat) :
    Option (Option TypeError × InferState) :=
  p.endingBy? (.standard options.extraTypes) options.seed options.prelude slot

theorem getElem?_parts {p : Program} {slot : Nat} {part : Term} (h : p.parts[slot]? = some part) :
    p.statements[slot]? = some part ∨ slot = p.statements.length ∧ p.result = some part := by
  by_cases hlt : slot < p.statements.length
  · rw [parts, List.getElem?_append_left hlt] at h
    exact .inl h
  · rw [parts, List.getElem?_append_right (by omega)] at h
    cases hresult : p.result with
    | none => simp [hresult] at h
    | some e =>
      rw [hresult, Option.toList_some, List.getElem?_singleton] at h
      split at h
      · exact .inr ⟨by omega, h⟩
      · cases h

end Program

/-! ## Reports on parts -/

/-- A list that is gathered item by item, as what is gathered over the places in order. -/
theorem filterMap_eq_range {α β : Type} {l : List α} {f : α → Option β} {g : Nat → Option β}
    (h : ∀ i a, l[i]? = some a → f a = g i) :
    l.filterMap f = (List.range l.length).filterMap g := by
  induction l using List.reverseRecOn with
  | nil => rfl
  | append_singleton l a ih =>
    have hlast : f a = g l.length := h l.length a List.getElem?_concat_length
    have hfront : ∀ i b, l[i]? = some b → f b = g i := by
      intro i b hb
      refine h i b ?_
      rw [List.getElem?_append_left (List.getElem?_eq_some_iff.1 hb).1]
      exact hb
    rw [List.filterMap_append, ih hfront, List.length_append, List.length_singleton,
      List.range_succ, List.filterMap_append]
    simp only [List.filterMap_cons, List.filterMap_nil, hlast]

@[simp] theorem Checked.types_ofReports (reports : List Report) (t : Option Ty) :
    (ofReports reports t).types = reports.flatMap Report.types :=
  List.nil_append _

/-- A report tells how the check of a part ended: the error, or the types of just the nodes that
get one. -/
structure Report.Tells (report : Report) (part : Term) (slot : Nat)
    (ending : Option TypeError × InferState) : Prop where
  error? : report.error? = ending.1
  passed : ending.1 = none → (report.types.map (·.1)).Perm (typedSites (part.walk [slot]))
  failed : ending.1 ≠ none → report.types = []

namespace Check

variable {rules : Rules} {stage stage' : Stage} {slot : Nat}

theorem sites_of_finalTypes {s : Subst} {types types' : List (Site × Ty)}
    (h : finalTypes s types = .ok types') : types'.map (·.1) = types.map (·.1) := by
  induction types generalizing types' with
  | nil =>
    cases h
    rfl
  | cons entry types ih =>
    rw [finalTypes] at h
    rcases ht : s.expand? entry.2 with _ | t
    · simp [ht] at h
    · rcases hmore : finalTypes s types with failure | more
      · simp [ht, hmore, bind, Except.bind] at h
      · simp only [ht, hmore, bind, Except.bind, Except.ok.injEq] at h
        subst h
        simp [ih hmore]

theorem tells_of_passed {part : Term} {after : InferState} {s : Subst} {types : List (Site × Ty)}
    {bound : Option (String × Scheme)} {log : List LogLine}
    (hrecord : (after.types.map (·.1)).Perm (typedSites (part.walk [slot])))
    (hfinal : finalTypes s after.types = .ok types) :
    Report.Tells (.passed bound types log) part slot (none, after) :=
  ⟨rfl, fun _ => sites_of_finalTypes hfinal ▸ hrecord, fun h => absurd rfl h⟩

theorem tells_of_failed (part : Term) (slot : Nat) (error : TypeError) (log : List LogLine)
    (after : InferState) : Report.Tells (.failed error log) part slot (some error, after) :=
  ⟨rfl, nofun, fun _ => rfl⟩

/-- The report on an item tells how the check of it ended. -/
theorem tells_of_inspect (hr : rules.Proper) {resilient : Bool} {item : Term} {report : Report}
    (h : inspect rules resilient item slot stage = .ok (report, stage')) :
    ∃ ending, Infer.ending? (Infer.check rules item stage.env [slot] (.start stage.next)) =
      some ending ∧ report.Tells item slot ending := by
  have hkept := Infer.keptChecked hr item stage.env [slot] (stage.next, []) (.start stage.next) rfl
  unfold inspect at h
  rcases hrun : Infer.check rules item stage.env [slot] (.start stage.next) with
    ⟨⟨s, env⟩, after⟩ | ⟨failure, after⟩
  · rw [hrun] at h hkept
    obtain ⟨news, hnews, hperm⟩ := hkept
    obtain rfl : after.types = news := hnews
    rcases hfinal : finalTypes s after.types with failure | types
    · simp [hfinal, bind, Except.bind] at h
    · simp only [hfinal, bind, Except.bind, Except.ok.injEq, Prod.mk.injEq] at h
      obtain ⟨rfl, -⟩ := h
      exact ⟨_, rfl, tells_of_passed hperm hfinal⟩
  · rw [hrun] at h
    cases failure with
    | typeError error =>
      obtain ⟨rfl, -⟩ := Prod.mk.inj (Except.ok.inj h)
      exact ⟨_, rfl, tells_of_failed _ _ _ _ _⟩
    | cyclic | notExpression _ | notStatement _ | malformed _ _ => cases h

/-- The report on a last expression tells how inference on it ended. -/
theorem tells_of_finish (hr : rules.Proper) {e : Term} {last : List Report} {t : Option Ty}
    (h : finish rules slot stage (some e) = .ok (last, t)) :
    ∃ report ending, last = [report] ∧
      Infer.ending? (Infer.infer rules e stage.env [slot] (.start stage.next)) = some ending ∧
        report.Tells e slot ending := by
  have hkept := Infer.kept hr e stage.env [slot] (stage.next, []) (.start stage.next) rfl
  rw [finish] at h
  rcases hrun : Infer.infer rules e stage.env [slot] (.start stage.next) with
    ⟨⟨s, t⟩, after⟩ | ⟨failure, after⟩
  · rw [hrun] at h hkept
    obtain ⟨news, hnews, hperm⟩ := hkept
    obtain rfl : after.types = news := hnews
    rcases hfinal : finalTypes s after.types with failure | types
    · simp [hfinal, bind, Except.bind] at h
    rcases ht : s.expand? t with _ | u
    · simp [hfinal, ht, bind, Except.bind] at h
    · simp only [hfinal, ht, bind, Except.bind, Except.ok.injEq, Prod.mk.injEq] at h
      exact ⟨_, _, h.1.symm, rfl, tells_of_passed hperm hfinal⟩
  · rw [hrun] at h
    cases failure with
    | typeError error =>
      obtain ⟨hlast, -⟩ := Prod.mk.inj (Except.ok.inj h)
      exact ⟨_, _, hlast.symm, rfl, tells_of_failed _ _ _ _ _⟩
    | cyclic | notExpression _ | notStatement _ | malformed _ _ => cases h

/-- A check that goes on after errors reports on each item at the stage that the items before it
lead to. -/
theorem reports_at {es : List Term} {rs : List Report} {through : Bool}
    (h : reports rules true es slot stage = .ok (rs, stage', through)) {i : Nat} {item : Term}
    (hitem : es[i]? = some item) :
    ∃ before middle report next,
      reports rules true (es.take i) slot stage = .ok (before, middle, true) ∧
        inspect rules true item (slot + i) middle = .ok (report, next) ∧
          rs[i]? = some report := by
  induction es generalizing slot stage rs i with
  | nil => cases hitem
  | cons first es ih =>
    obtain ⟨report, next, rest, hfirst, rfl, hrest⟩ := reports_cons_resilient h
    cases i with
    | zero =>
      cases hitem
      exact ⟨[], stage, report, next, rfl, hfirst, rfl⟩
    | succ i =>
      obtain ⟨before, middle, report', next', hbefore, hitem, hat⟩ := ih hrest hitem
      refine ⟨report :: before, middle, report', next', ?_, ?_, hat⟩
      · rw [List.take_succ_cons, reports_cons hfirst rfl, hbefore]
        rfl
      · rwa [show slot + (i + 1) = slot + 1 + i by omega]

end Check

namespace Program

variable {p : Program} {rules : Rules} {seed : Int} {prelude : Env} {first last : List Report}
  {stage : Check.Stage} {t : Option Ty}

theorem checkBy_of_through {resilient : Bool}
    (hfirst : Check.reports rules resilient p.statements 0 ⟨prelude, seed⟩ =
      .ok (first, stage, true))
    (hlast : Check.finish rules p.statements.length stage p.result = .ok (last, t)) :
    p.checkBy rules resilient seed prelude = .ok (.ofReports (first ++ last) t) := by
  have hresult : Check.result rules p.statements.length
        ⟨stage.env, stage.next, Checked.start.add first⟩ p.result = _ :=
    Check.result_eq_finish p.statements.length rfl p.result
  rw [hlast] at hresult
  unfold checkBy
  rw [Check.items_eq_reports, hfirst]
  refine hresult.trans ?_
  simp [Except.map, Checked.ofReports, Checked.add_add]

/-- A check that goes on after errors reports on all items and then on the last expression. -/
theorem reports_of_checkBy {c : Checked} (h : p.checkBy rules true seed prelude = .ok c) :
    ∃ first stage last t,
      Check.reports rules true p.statements 0 ⟨prelude, seed⟩ = .ok (first, stage, true) ∧
        Check.finish rules p.statements.length stage p.result = .ok (last, t) ∧
          c = .ofReports (first ++ last) t := by
  rcases hfirst : Check.reports rules true p.statements 0 ⟨prelude, seed⟩ with
    failure | ⟨first, stage, through⟩
  · unfold checkBy at h
    rw [Check.items_eq_reports, hfirst] at h
    cases h
  obtain rfl := Check.through_of_resilient hfirst
  rcases hlast : Check.finish rules p.statements.length stage p.result with failure | ⟨last, t⟩
  · unfold checkBy at h
    rw [Check.items_eq_reports, hfirst] at h
    have hresult : Check.result rules p.statements.length
          ⟨stage.env, stage.next, Checked.start.add first⟩ p.result = _ :=
      Check.result_eq_finish p.statements.length rfl p.result
    rw [hlast] at hresult
    cases hresult.symm.trans h
  · exact ⟨first, stage, last, t, rfl, hlast,
      Except.ok.inj (h.symm.trans (checkBy_of_through hfirst hlast))⟩

theorem stageBy?_of_reports {slot : Nat} {before : List Report} {through : Bool}
    (h : Check.reports rules true (p.statements.take slot) 0 ⟨prelude, seed⟩ =
      .ok (before, stage, through)) :
    p.stageBy? rules seed prelude slot = some stage := by
  unfold stageBy?
  rw [Check.items_eq_reports, h]
  rfl

section

variable (hr : rules.Proper)
  (hfirst : Check.reports rules true p.statements 0 ⟨prelude, seed⟩ = .ok (first, stage, true))
  (hlast : Check.finish rules p.statements.length stage p.result = .ok (last, t))

include hr hfirst hlast

/-- There is one report for each part. -/
theorem length_reports : (first ++ last).length = p.parts.length := by
  have hlength : first.length = p.statements.length := (Check.reports_of_items hfirst).1
  cases hresult : p.result with
  | none =>
    rw [hresult] at hlast
    cases hlast
    simp [parts, hresult, hlength]
  | some e =>
    rw [hresult] at hlast
    obtain ⟨report, -, rfl, -⟩ := Check.tells_of_finish hr hlast
    simp [parts, hresult, hlength]

/-- The report on a part tells how the check of the part ends. -/
theorem tells_at {slot : Nat} {part : Term} (hpart : p.parts[slot]? = some part) :
    ∃ report ending, (first ++ last)[slot]? = some report ∧
      p.endingBy? rules seed prelude slot = some ending ∧ report.Tells part slot ending := by
  have hlength : first.length = p.statements.length := (Check.reports_of_items hfirst).1
  unfold endingBy?
  rcases getElem?_parts hpart with hitem | ⟨rfl, hresult⟩
  · obtain ⟨hslot, -⟩ := List.getElem?_eq_some_iff.1 hitem
    obtain ⟨before, middle, report, next, hbefore, hinspect, hat⟩ :=
      Check.reports_at hfirst hitem
    rw [Nat.zero_add] at hinspect
    obtain ⟨ending, hending, htells⟩ := Check.tells_of_inspect hr hinspect
    refine ⟨report, ending, ?_, ?_, htells⟩
    · rw [List.getElem?_append_left (by omega), hat]
    · simp [hpart, stageBy?_of_reports hbefore, hslot, hending]
  · rw [hresult] at hlast
    obtain ⟨report, ending, rfl, hending, htells⟩ := Check.tells_of_finish hr hlast
    have hstage : p.stageBy? rules seed prelude p.statements.length = some stage :=
      stageBy?_of_reports (by rwa [List.take_length])
    refine ⟨report, ending, ?_, ?_, htells⟩
    · rw [← hlength, List.getElem?_concat_length]
    · simp [hpart, hstage, hending]

/-- The report in a slot tells how the check of the part in the slot ends. -/
theorem tells_of_report {slot : Nat} {report : Report}
    (hreport : (first ++ last)[slot]? = some report) :
    ∃ part ending, p.parts[slot]? = some part ∧
      p.endingBy? rules seed prelude slot = some ending ∧ report.Tells part slot ending := by
  obtain ⟨hslot, -⟩ := List.getElem?_eq_some_iff.1 hreport
  rw [length_reports hr hfirst hlast] at hslot
  have hpart : p.parts[slot]? = some p.parts[slot] := List.getElem?_eq_getElem hslot
  obtain ⟨report', ending, hat, hend, htells⟩ := tells_at hr hfirst hlast hpart
  obtain rfl : report = report' := Option.some.inj (hreport.symm.trans hat)
  exact ⟨_, ending, hpart, hend, htells⟩

/-- The errors are those of the parts that fail, in order. -/
theorem errors_of_reports :
    (first ++ last).filterMap Report.error? = (List.range p.parts.length).filterMap fun slot =>
      (p.endingBy? rules seed prelude slot).bind (·.1) := by
  rw [← length_reports hr hfirst hlast]
  refine filterMap_eq_range fun slot report hreport => ?_
  obtain ⟨part, ending, -, hend, htells⟩ := tells_of_report hr hfirst hlast hreport
  rw [hend, htells.error?]
  rfl

end

/-- A check that goes on after errors comes to each part. -/
theorem exists_endingBy? (hr : rules.Proper) {c : Checked}
    (h : p.checkBy rules true seed prelude = .ok c) {slot : Nat} (hslot : slot < p.parts.length) :
    ∃ ending, p.endingBy? rules seed prelude slot = some ending := by
  obtain ⟨first, stage, last, t, hfirst, hlast, -⟩ := reports_of_checkBy h
  obtain ⟨report, ending, -, hend, -⟩ := tells_at hr hfirst hlast (List.getElem?_eq_getElem hslot)
  exact ⟨ending, hend⟩

end Program

/-! ## Closed preludes -/

namespace Env

/-- No scheme has a free variable. -/
def Closed (env : Env) : Prop := ∀ v, v ∉ env.freeVars

variable {env : Env}

theorem Closed.ready (h : env.Closed) (n : Int) : env.Ready False n :=
  ⟨fun v hv => absurd hv (h v), False.elim⟩

theorem Closed.generalize (h : env.Closed) (x : String) (t : Ty) :
    Closed (env.insert x (env.generalize t)) :=
  fun v hv => h v (mem_freeVars_insert_generalize hv)

end Env

namespace Check

variable {rules : Rules} {stage : Stage}

/-- In a closed environment a statement settles, and what follows it is closed again. -/
theorem settles_check (hr : rules.Proper) {env : Env} (h : env.Closed) (item : Term) (slot : Nat)
    (n : Int) :
    Infer.Settles (Infer.check rules item env [slot]) n
      fun answer _ => answer.1.Solved ∧ answer.2.Closed := by
  have hkeeps := (Watched.keeps_check False hr item env [slot] n (h.ready n)).settles
    (Watched.shows_check rules item env [slot])
  refine hkeeps.imp fun answer n' hbound => ⟨hbound.tidy.solved, fun v hv => ?_⟩
  have hself : env.subst answer.1.image = env :=
    Env.subst_eq_self fun v hv => absurd hv (h v)
  exact h v (hself ▸ hbound.free v hv)

theorem closed_recover {env : Env} (h : env.Closed) (item : Term) (slot : Nat) (n : Int) :
    (recover rules [slot] item env n).1.Closed := by
  obtain ⟨-, hentered⟩ := recover_entered rules slot item env n
  generalize (recover rules [slot] item env n).1 = env', (recover rules [slot] item env n).2 = n'
    at hentered ⊢
  cases hentered with
  | same => exact h
  | bound _ _ => exact h.generalize _ _

/-- In a closed environment an item in place is always reported on, and leaves a closed one. -/
theorem exists_inspect_of_closed (hr : rules.Proper) (h : stage.env.Closed) {item : Term}
    (hplace : item.IsStatement) (resilient : Bool) (slot : Nat) :
    ∃ report stage', inspect rules resilient item slot stage = .ok (report, stage') ∧
      stage'.env.Closed := by
  have hsettles := settles_check hr h item slot stage.next
  have hend := hsettles (.start stage.next) rfl
  unfold inspect
  rcases hrun : Infer.check rules item stage.env [slot] (.start stage.next) with
    ⟨⟨s, env⟩, after⟩ | ⟨failure, after⟩
  · rw [hrun] at hend
    simp only [finalTypes_eq_ok hend.1]
    exact ⟨_, _, rfl, hend.2⟩
  · obtain ⟨error, rfl⟩ := Infer.exists_typeError (Infer.fairChecked hr hplace _ _) hsettles rfl
      hrun
    refine ⟨_, _, rfl, ?_⟩
    cases resilient with
    | false => exact h
    | true => exact closed_recover h item slot after.next

/-- In a closed environment a last expression in place is always reported on. -/
theorem exists_finish_of_closed (hr : rules.Proper) (h : stage.env.Closed) {e : Option Term}
    (hplace : ∀ t, e = some t → t.IsExpression) (slot : Nat) :
    ∃ last t, finish rules slot stage e = .ok (last, t) := by
  cases e with
  | none => exact ⟨_, _, rfl⟩
  | some e =>
    have hsettles := (Watched.keeps_infer False hr e stage.env [slot] stage.next
      (h.ready stage.next)).settles (Watched.shows_infer rules e stage.env [slot])
    have hend := hsettles (.start stage.next) rfl
    rw [finish]
    rcases hrun : Infer.infer rules e stage.env [slot] (.start stage.next) with
      ⟨⟨s, t⟩, after⟩ | ⟨failure, after⟩
    · rw [hrun] at hend
      simp only [finalTypes_eq_ok hend.tidy.solved, hend.tidy.solved.expand? t]
      exact ⟨_, _, rfl⟩
    · obtain ⟨error, rfl⟩ := Infer.exists_typeError (Infer.fairInferred hr (hplace e rfl) _ _)
        hsettles rfl hrun
      exact ⟨_, _, rfl⟩

end Check

/-- From a closed prelude, all items of a program in place are reported on, and so is its last
expression. -/
theorem Program.exists_reports_of_closed {p : Program} (h : p.InPlace) {rules : Rules}
    (hr : rules.Proper) (seed : Int) {prelude : Env} (hclosed : prelude.Closed) :
    ∃ first stage last t,
      Check.reports rules true p.statements 0 ⟨prelude, seed⟩ = .ok (first, stage, true) ∧
        Check.finish rules p.statements.length stage p.result = .ok (last, t) := by
  have hitems : ∃ first stage through, Check.reports rules true p.statements 0 ⟨prelude, seed⟩ =
      .ok (first, stage, through) ∧ stage.env.Closed :=
    Check.exists_reports_of (I := fun stage => stage.env.Closed)
      (fun stage item slot hs hitem => Check.exists_inspect_of_closed hr hs hitem true slot)
      hclosed h.statements 0
  obtain ⟨first, stage, through, hfirst, hstage⟩ := hitems
  obtain rfl := Check.through_of_resilient hfirst
  obtain ⟨last, t, hlast⟩ := Check.exists_finish_of_closed hr hstage h.result p.statements.length
  exact ⟨first, stage, last, t, hfirst, hlast⟩

/-! ## A program with a slip -/

/-- An item that passes, and a last expression that does not. -/
def slipSource : String := "let a = id(1); if true \x7b a \x7d else \x7b false \x7d"

/-- A place in the first line. -/
def inLineOne (column : Int) : Option Location := some ⟨"", 1, column⟩

/-- What is read from the text. -/
def slipProgram : Program where
  statements := [.letBinding "a"
    (.call (.name "id" (inLineOne 9)) [.number 1 (inLineOne 12)] (inLineOne 9)) none (inLineOne 5)]
  result := some (.conditional (.boolean true (inLineOne 19))
    (.block [] (some (.name "a" (inLineOne 26))) (inLineOne 24))
    (.block [] (some (.boolean false (inLineOne 37))) (inLineOne 35)) (inLineOne 16))
  file := ""
  location := inLineOne 1

theorem read_slipSource : Program.read slipSource "" = .ok slipProgram := by
  cbv

/-- A check that goes on after errors. The identity is bound from the start, and its variable is
the first one to be drawn. -/
def slipOptions : CheckOptions :=
  ⟨[], true, 0, .single "id" (.quantify [0] (.fn [.var 0] (.var 0)))⟩

theorem closed_slipOptions : slipOptions.prelude.Closed := by
  unfold Env.Closed
  decide

theorem endAt?_slipItem : (slipProgram.endAt? slipOptions 0).map (·.1) = some none := by
  cbv

/-- Five nodes are on record when the branches turn out to disagree. -/
theorem endAt?_slip :
    (slipProgram.endAt? slipOptions 1).map (fun e => (e.1, e.2.types.map (·.1.position))) =
      some (some (.placed (.branches .number .bool (.mismatch .number .bool))
        ⟨⟨.conditional, inLineOne 16⟩, [1]⟩), [[0, 1], [0, 1, 1], [1, 1], [0, 2, 1], [2, 1]]) := by
  cbv

end LetPoly
