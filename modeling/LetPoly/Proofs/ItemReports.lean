-- What a check says of each item. All that a check comes to is made of its reports on
-- the items, one after the other, and a report depends on nothing but the environment
-- and the next unused variable that the items before leave. So two checks that meet an
-- item in environments that say the same of the names it refers to report the same of
-- it, up to the numbers of variables.
import LetPoly.Check
import LetPoly.Proofs.TwinRuns

namespace LetPoly

open Function (Injective)

/-! ## Reports -/

/-- What a check says of an item. -/
inductive Report where
  /-- It passed, and this is the name it bound and the types of its nodes. -/
  | passed (bound : Option (String × Scheme)) (types : List (Site × Ty)) (log : List LogLine)
  /-- It is wrong. -/
  | failed (error : TypeError) (log : List LogLine)

namespace Report

/-- The name that the item bound. -/
def bound? : Report → Option (String × Scheme)
  | passed bound _ _ => bound
  | failed _ _ => none

/-- What is wrong with the item. -/
def error? : Report → Option TypeError
  | passed _ _ _ => none
  | failed error _ => some error

/-- The types of the item's nodes. -/
def types : Report → List (Site × Ty)
  | passed _ types _ => types
  | failed _ _ => []

/-- The lines that the item leaves in the log. -/
def log : Report → List LogLine
  | passed _ _ log | failed _ log => log

end Report

namespace Checked

/-- What is known after some more items. -/
def add (c : Checked) (reports : List Report) : Checked where
  schemes := c.schemes.insertAll (reports.filterMap Report.bound?)
  errors := c.errors ++ reports.filterMap Report.error?
  types := c.types ++ reports.flatMap Report.types
  programType := c.programType
  log := c.log ++ reports.flatMap Report.log

@[simp] theorem add_nil (c : Checked) : c.add [] = c := by
  simp [add, Table.insertAll]

theorem add_add (c : Checked) (first second : List Report) :
    (c.add first).add second = c.add (first ++ second) := by
  simp [add, Table.insertAll, List.filterMap_append, List.foldl_append]

/-- What is known after a check, from its reports and the type of the program. -/
def ofReports (reports : List Report) (t : Option Ty) : Checked :=
  { start.add reports with programType := t }

@[simp] theorem errors_ofReports (reports : List Report) (t : Option Ty) :
    (ofReports reports t).errors = reports.filterMap Report.error? :=
  List.nil_append _

end Checked

namespace Check

/-- What an item is met with: the names bound so far, and the next unused variable. -/
structure Stage where
  env : Env
  next : Int

/-- The report on an item that passed. -/
def passed (item : Term) (env : Env) (types : List (Site × Ty)) (after : InferState) : Report :=
  let bound := item.boundName?.bind fun x => (env.get? x).map (x, ·)
  .passed bound types (logOf after ++
    bound.toList.map fun (x, scheme) => ⟨"sfl.type_checker", x ++ " : " ++ scheme.text⟩)

/-- The report on an item that failed. -/
def failed (error : TypeError) (after : InferState) : Report :=
  .failed error
    (logOf after ++ [⟨"sfl.type_checker", "error in top-level item: " ++ error.message⟩])

/-- The report on the item in a slot, and what the next one is met with. -/
def inspect (rules : Rules) (resilient : Bool) (item : Term) (slot : Nat) (stage : Stage) :
    Except InferFailure (Report × Stage) :=
  match Infer.check rules item stage.env [slot] (.start stage.next) with
  | .ok (s, env) after => do
    let types ← finalTypes s after.types
    .ok (passed item env types after, ⟨env, after.next⟩)
  | .error (.typeError error) after =>
    let (env, next) :=
      if resilient then recover rules [slot] item stage.env after.next else (stage.env, after.next)
    .ok (failed error after, ⟨env, next⟩)
  | .error failure _ => .error failure

/-- The reports on the items in the slots from `slot` on, what comes after them is met with, and
whether the check went through to the end. -/
def reports (rules : Rules) (resilient : Bool) :
    List Term → Nat → Stage → Except InferFailure (List Report × Stage × Bool)
  | [], _, stage => .ok ([], stage, true)
  | item :: more, slot, stage => do
    let (report, stage) ← inspect rules resilient item slot stage
    if resilient || report.error?.isNone then
      let (rest, stage, through) ← reports rules resilient more (slot + 1) stage
      .ok (report :: rest, stage, through)
    else
      .ok ([report], stage, false)

/-- The report on the last expression, which stands in the given slot, and the type of the
program. -/
def finish (rules : Rules) (slot : Nat) (stage : Stage) :
    Option Term → Except InferFailure (List Report × Option Ty)
  | none => .ok ([], some .unit)
  | some e =>
    match Infer.infer rules e stage.env [slot] (.start stage.next) with
    | .ok (s, t) after => do
      let types ← finalTypes s after.types
      match s.expand? t with
      | none => .error .cyclic
      | some t => .ok ([.passed none types (logOf after)], some t)
    | .error (.typeError error) after => .ok ([.failed error (logOf after)], none)
    | .error failure _ => .error failure

end Check

/-- The reports on all items of a program and on its last expression, and the type of the
program. -/
def Program.reports (p : Program) (options : CheckOptions) :
    Except InferFailure (List Report × Option Ty) := do
  let rules := Rules.standard options.extraTypes
  let (first, stage, through) ←
    Check.reports rules options.resilient p.statements 0 ⟨options.prelude, options.seed⟩
  if through then
    let (last, t) ← Check.finish rules p.statements.length stage p.result
    .ok (first ++ last, t)
  else
    .ok (first, none)

/-! ## A check is made of reports -/

namespace Check

variable {rules : Rules}

theorem accept_eq (st : State) (item : Term) (env : Env) (types : List (Site × Ty))
    (after : InferState) :
    accept st item env types after =
      ⟨env, after.next, st.checked.add [passed item env types after]⟩ := by
  unfold accept passed
  generalize item.boundName?.bind (fun x => (env.get? x).map (x, ·)) = bound
  cases bound with
  | none => simp [Checked.add, Report.bound?, Report.error?, Report.types, Report.log,
      Table.insertAll, List.filterMap_cons]
  | some bound => simp [Checked.add, Report.bound?, Report.error?, Report.types, Report.log,
      Table.insertAll, List.filterMap_cons]

theorem reject_eq (st : State) (error : TypeError) (after : InferState) :
    reject st error after = ⟨st.env, after.next, st.checked.add [failed error after]⟩ := by
  simp [reject, failed, Checked.add, Report.bound?, Report.error?, Report.types, Report.log,
    Table.insertAll, List.filterMap_cons]

section

variable {resilient : Bool} {item : Term} {more : List Term} {slot : Nat} {stage stage' : Stage}
  {report : Report}

theorem reports_cons (h : inspect rules resilient item slot stage = .ok (report, stage'))
    (hgo : (resilient || report.error?.isNone) = true) :
    reports rules resilient (item :: more) slot stage =
      (reports rules resilient more (slot + 1) stage').map fun (rest, last) =>
        (report :: rest, last) := by
  rw [reports, h]
  show (if _ then _ else _) = _
  rw [if_pos hgo]
  cases reports rules resilient more (slot + 1) stage' <;> rfl

theorem reports_cons_stop (h : inspect rules false item slot stage = .ok (report, stage'))
    (hstop : report.error?.isNone = false) :
    reports rules false (item :: more) slot stage = .ok ([report], stage', false) := by
  rw [reports, h]
  show (if _ then _ else _) = _
  rw [if_neg (by simp [hstop])]

theorem reports_cons_error {failure : InferFailure}
    (h : inspect rules resilient item slot stage = .error failure) :
    reports rules resilient (item :: more) slot stage = .error failure := by
  rw [reports, h]
  rfl

/-- The first item is reported on, and then the others are, or the check stops there. -/
theorem reports_cons_cases {rs : List Report} {last : Stage} {through : Bool}
    (h : reports rules resilient (item :: more) slot stage = .ok (rs, last, through)) :
    ∃ report next, inspect rules resilient item slot stage = .ok (report, next) ∧
      (((resilient || report.error?.isNone) = true ∧ ∃ rest, rs = report :: rest ∧
          reports rules resilient more (slot + 1) next = .ok (rest, last, through)) ∨
        ((resilient || report.error?.isNone) = false ∧ rs = [report] ∧ last = next ∧
          through = false)) := by
  rcases hi : inspect rules resilient item slot stage with failure | ⟨report, next⟩
  · rw [reports_cons_error hi] at h
    cases h
  · refine ⟨report, next, rfl, ?_⟩
    by_cases hgo : (resilient || report.error?.isNone) = true
    · rw [reports_cons hi hgo] at h
      rcases hmore : reports rules resilient more (slot + 1) next with failure | ⟨rest, _, _⟩
      · rw [hmore] at h
        cases h
      · rw [hmore] at h
        cases h
        exact .inl ⟨hgo, rest, rfl, rfl⟩
    · obtain ⟨rfl, hstop⟩ := Bool.or_eq_false_iff.1 (Bool.eq_false_iff.2 hgo)
      rw [reports_cons_stop hi hstop] at h
      cases h
      exact .inr ⟨Bool.eq_false_iff.2 hgo, rfl, rfl, rfl⟩

/-- A check that goes on after errors reports on the first item and then on the others. -/
theorem reports_cons_resilient {rs : List Report} {last : Stage} {through : Bool}
    (h : reports rules true (item :: more) slot stage = .ok (rs, last, through)) :
    ∃ report next rest, inspect rules true item slot stage = .ok (report, next) ∧
      rs = report :: rest ∧
        reports rules true more (slot + 1) next = .ok (rest, last, through) := by
  obtain ⟨report, next, hi, ⟨-, rest, hrs, hrest⟩ | ⟨hstop, -⟩⟩ := reports_cons_cases h
  · exact ⟨report, next, rest, hi, hrs, hrest⟩
  · cases hstop

end

theorem inspect_of_ok {resilient : Bool} {item : Term} {slot : Nat} (stage : Stage) {s : Subst}
    {env : Env} {after : InferState} {types : List (Site × Ty)}
    (hrun : Infer.check rules item stage.env [slot] (.start stage.next) = .ok (s, env) after)
    (hfinal : finalTypes s after.types = .ok types) :
    inspect rules resilient item slot stage =
      .ok (passed item env types after, ⟨env, after.next⟩) := by
  simp [inspect, hrun, hfinal]
  rfl

theorem inspect_of_error {item : Term} {slot : Nat} (stage : Stage) {error : TypeError}
    {after : InferState}
    (hrun : Infer.check rules item stage.env [slot] (.start stage.next) =
      .error (.typeError error) after) :
    inspect rules true item slot stage =
      .ok (failed error after, ⟨(recover rules [slot] item stage.env after.next).1,
        (recover rules [slot] item stage.env after.next).2⟩) := by
  simp [inspect, hrun]

/-- The items of a check come to what their reports come to. -/
theorem items_eq_reports (resilient : Bool) (es : List Term) (slot : Nat) (st : State) :
    items rules resilient es slot st =
      (reports rules resilient es slot ⟨st.env, st.next⟩).map fun (rs, stage, through) =>
        (⟨stage.env, stage.next, st.checked.add rs⟩, through) := by
  induction es generalizing slot st with
  | nil => simp [items, reports, Except.map]
  | cons item es ih =>
    -- after the report on the first item, both go on in the same way
    have hgo : ∀ (report : Report) (stage : Stage),
        items rules resilient es (slot + 1) ⟨stage.env, stage.next, st.checked.add [report]⟩ =
          ((reports rules resilient es (slot + 1) stage).map fun (rest, last) =>
            (report :: rest, last)).map fun (rs, stage, through) =>
              (⟨stage.env, stage.next, st.checked.add rs⟩, through) := by
      intro report stage
      rw [ih]
      cases reports rules resilient es (slot + 1) stage with
      | error failure => rfl
      | ok rest => simp [Except.map, Checked.add_add]
    rw [items]
    rcases hrun : Infer.check rules item st.env [slot] (.start st.next) with
      ⟨⟨s, env⟩, after⟩ | ⟨failure, after⟩
    · rcases hfinal : finalTypes s after.types with failure | types
      · have hinspect : inspect rules resilient item slot ⟨st.env, st.next⟩ = .error failure := by
          simp [inspect, hrun, hfinal]
          rfl
        rw [reports_cons_error hinspect]
        simp [hfinal, bind, Except.bind, Except.map]
      · rw [reports_cons (inspect_of_ok ⟨st.env, st.next⟩ hrun hfinal)
          (by simp [passed, Report.error?]), ← hgo]
        simp only [hfinal, bind, Except.bind, accept_eq]
    · cases failure with
      | typeError error =>
        cases resilient with
        | false =>
          have hinspect : inspect rules false item slot ⟨st.env, st.next⟩ =
              .ok (failed error after, ⟨st.env, after.next⟩) := by simp [inspect, hrun]
          rw [reports_cons_stop hinspect (by simp [failed, Report.error?])]
          simp [reject_eq, Except.map]
        | true =>
          rw [reports_cons (inspect_of_error ⟨st.env, st.next⟩ hrun) rfl, ← hgo]
          simp only [if_true, reject_eq]
      | cyclic | notExpression _ | notStatement _ | malformed _ _ =>
        rw [reports_cons_error (by rw [inspect, hrun])]
        rfl

/-- The last expression comes to what its report comes to. -/
theorem result_eq_finish (slot : Nat) {st : State} (hnone : st.checked.programType = none)
    (e : Option Term) :
    result rules slot st e = (finish rules slot ⟨st.env, st.next⟩ e).map fun (last, t) =>
      { st.checked.add last with programType := t } := by
  cases e with
  | none => simp [result, finish, Except.map]
  | some e =>
    rw [result, finish]
    rcases Infer.infer rules e st.env [slot] (.start st.next) with
      ⟨⟨s, t⟩, after⟩ | ⟨failure, after⟩
    · rcases hfinal : finalTypes s after.types with failure | types
      · simp [hfinal, bind, Except.bind, Except.map]
      · rcases ht : s.expand? t with _ | u <;>
          simp [hfinal, ht, bind, Except.bind, Except.map, Checked.add, Report.bound?,
            Report.error?, Report.types, Report.log, Table.insertAll, List.filterMap_cons]
    · cases failure with
      | typeError error =>
        simp [Except.map, Checked.add, Report.bound?, Report.error?, Report.types, Report.log,
          Table.insertAll, List.filterMap_cons, hnone]
      | cyclic | notExpression _ | notStatement _ | malformed _ _ => rfl

end Check

/-- A check comes to what its reports come to. -/
theorem Program.check_eq_reports (p : Program) (options : CheckOptions) :
    p.check options = (p.reports options).map fun (rs, t) => .ofReports rs t := by
  unfold Program.check Program.checkBy Program.reports
  simp only [Check.items_eq_reports]
  rcases Check.reports (.standard options.extraTypes) options.resilient p.statements 0
    ⟨options.prelude, options.seed⟩ with failure | ⟨first, stage, through⟩
  · rfl
  · cases through with
    | false => rfl
    | true =>
      have hfinish : Check.result (.standard options.extraTypes) p.statements.length
          ⟨stage.env, stage.next, Checked.start.add first⟩ p.result = _ :=
        Check.result_eq_finish p.statements.length rfl p.result
      simp only [Except.map, bind, Except.bind, if_true, hfinish]
      rcases Check.finish (.standard options.extraTypes) p.statements.length stage p.result with
        failure | ⟨last, t⟩
      · rfl
      · simp [Checked.ofReports, Checked.add_add]

theorem Program.check_of_reports {p : Program} {options : CheckOptions} {rs : List Report}
    {t : Option Ty} (h : p.reports options = .ok (rs, t)) :
    p.check options = .ok (.ofReports rs t) := by
  rw [check_eq_reports, h]
  rfl

/-! ## Reports side by side -/

/-- Both ways there is a result, and the results go together, or the same failure. -/
inductive Outcomes {ε α : Type} (P : α → α → Prop) : Except ε α → Except ε α → Prop
  | ok {a b : α} : P a b → Outcomes P (.ok a) (.ok b)
  | error (e : ε) : Outcomes P (.error e) (.error e)

theorem Outcomes.imp {ε α : Type} {P Q : α → α → Prop} {r r' : Except ε α} (h : Outcomes P r r')
    (himp : ∀ a b, P a b → Q a b) : Outcomes Q r r' := by
  cases h with
  | ok hab => exact .ok (himp _ _ hab)
  | error e => exact .error e

theorem Outcomes.map {ε α β : Type} {P : α → α → Prop} {Q : β → β → Prop} {r r' : Except ε α}
    (h : Outcomes P r r') {f g : α → β} (hfg : ∀ a b, P a b → Q (f a) (g b)) :
    Outcomes Q (r.map f) (r'.map g) := by
  cases h with
  | ok hab => exact .ok (hfg _ _ hab)
  | error e => exact .error e

/-- The names that two items bound go together, or both are hidden. -/
def Report.BoundAlike (w : Twinning) (p : Pairing) (bound bound' : Option (String × Scheme)) :
    Prop :=
  Option.Rel (fun a b => a.1 = b.1 ∧ Scheme.Alike w p a.2 b.2) bound bound' ∨
    (∀ x scheme, bound = some (x, scheme) → w.hidden x) ∧
      ∀ x scheme, bound' = some (x, scheme) → w.hidden x

/-- Two reports say the same of items that stand below two roots. -/
inductive Report.Alike (w : Twinning) (root root' : Position) : Report → Report → Prop
  | passed {p : Pairing} {bound bound' : Option (String × Scheme)} {types types' : List (Site × Ty)}
      (log log' : List LogLine) : w.Admits p → Report.BoundAlike w p bound bound' →
    List.Forall₂ (p.Entries root root') types types' →
    Alike w root root' (.passed bound types log) (.passed bound' types' log')
  | failed {p : Pairing} {e e' : TypeError} (log log' : List LogLine) : w.Admits p →
    e.Alike root root' p.map e' → Alike w root root' (.failed e log) (.failed e' log')

theorem Report.Alike.rel_error? {w : Twinning} {root root' : Position} {r r' : Report}
    (h : r.Alike w root root' r') {S : TypeError → TypeError → Prop}
    (hS : ∀ (p : Pairing) (e e' : TypeError), w.Admits p → e.Alike root root' p.map e' → S e e') :
    Option.Rel S r.error? r'.error? := by
  cases h with
  | passed _ _ _ _ _ => exact .none
  | failed _ _ hw he => exact .some (hS _ _ _ hw he)

theorem Report.Alike.rel_types {w : Twinning} {root root' : Position} {r r' : Report}
    (h : r.Alike w root root' r') {S : Site × Ty → Site × Ty → Prop}
    (hS : ∀ (p : Pairing) (a b : Site × Ty), w.Admits p → p.Entries root root' a b → S a b) :
    List.Forall₂ S r.types r'.types := by
  cases h with
  | passed _ _ hw _ htypes => exact htypes.imp fun _ _ hab => hS _ _ _ hw hab
  | failed _ _ _ _ => exact .nil

theorem Report.Alike.isNone {w : Twinning} {root root' : Position} {r r' : Report}
    (h : r.Alike w root root' r') : r'.error?.isNone = r.error?.isNone := by
  cases h <;> rfl

namespace Check

variable {w : Twinning} {p : Pairing} {stage stage' : Stage} {rules : Rules}

/-- Two checks meet an item with the same, up to the numbers of variables. -/
structure Stage.Alike (w : Twinning) (p : Pairing) (stage stage' : Stage) : Prop where
  env : Env.Alike w p stage.env stage'.env
  first : stage.next = p.first
  second : stage'.next = p.second
  admits : w.Admits p

theorem Stage.Alike.start (h : Stage.Alike w p stage stage') (root root' : Position) :
    InferState.Alike w root root' p (.start stage.next) (.start stage'.next) :=
  ⟨h.first, h.second, h.admits, .nil⟩

theorem finalTypes_alike {root root' : Position} {s s' : Subst} (hs : p.Matches s s')
    {types types' : List (Site × Ty)} (h : List.Forall₂ (p.Entries root root') types types') :
    Outcomes (List.Forall₂ (p.Entries root root')) (finalTypes s types) (finalTypes s' types') := by
  induction h with
  | nil => exact .ok .nil
  | @cons entry entry' more more' hentry _ ih =>
    have hexpand := hs.expand? hentry.2
    rw [finalTypes, finalTypes]
    generalize s.expand? entry.2 = o at hexpand ⊢
    generalize s'.expand? entry'.2 = o' at hexpand ⊢
    generalize finalTypes s more = r at ih ⊢
    generalize finalTypes s' more' = r' at ih ⊢
    cases hexpand with
    | none => exact .error _
    | some ht =>
      cases ih with
      | ok hrest => exact .ok (.cons ⟨hentry.1, ht⟩ hrest)
      | error e => exact .error e

theorem passed_alike {root root' : Position} (item : Term) {env env' : Env}
    (henv : Env.Alike w p env env') (hw : w.Admits p) {types types' : List (Site × Ty)}
    (htypes : List.Forall₂ (p.Entries root root') types types') (after after' : InferState) :
    Report.Alike w root root' (passed item env types after) (passed item env' types' after') := by
  refine .passed _ _ hw ?_ htypes
  cases item.boundName? with
  | none => exact .inl .none
  | some x =>
    rw [Option.bind_some, Option.bind_some]
    rcases henv x with hrel | ⟨hx, -⟩
    · generalize env.get? x = o at hrel ⊢
      generalize env'.get? x = o' at hrel ⊢
      cases hrel with
      | none => exact .inl .none
      | some hs => exact .inl (.some ⟨rfl, hs⟩)
    · have hname : ∀ (o : Option Scheme) y scheme, o.map (x, ·) = some (y, scheme) →
          w.hidden y := by
        intro o y scheme h
        obtain ⟨_, -, heq⟩ := Option.map_eq_some_iff.1 h
        exact (Prod.mk.inj heq).1 ▸ hx
      exact .inr ⟨hname _, hname _⟩

/-- What a failed item declares is read alike in two slots. -/
theorem declared?_alike (w : Twinning) (rules : Rules) (slot slot' : Nat) (item : Term) :
    Option.Rel (fun a b => a.1 = b.1 ∧
        ∀ p, Naming.Tracks w [slot] [slot'] a.2 b.2 p Pairing.Matches)
      (declared? rules [slot] item) (declared? rules [slot'] item) := by
  unfold declared?
  split
  · refine .some ⟨rfl, fun p => ?_⟩
    refine (tracks_signature _ _ [] p).bind fun q a b hq hab => ?_
    exact tracks_pure (hab.fst.fn hab.snd)
  · exact .some ⟨rfl, fun p => TypeExpr.tracks_resolve _ [1] p⟩
  · exact .none

/-- After a failed item both checks bind its name to the declared type, or neither does. -/
theorem recover_alike (rules : Rules) (h : Stage.Alike w p stage stage') (slot slot' : Nat)
    (item : Term) :
    ∃ q, p.Extends q ∧ Stage.Alike w q
      ⟨(recover rules [slot] item stage.env stage.next).1,
        (recover rules [slot] item stage.env stage.next).2⟩
      ⟨(recover rules [slot'] item stage'.env stage'.next).1,
        (recover rules [slot'] item stage'.env stage'.next).2⟩ := by
  have hdeclared := declared?_alike w rules slot slot' item
  unfold recover
  generalize declared? rules [slot] item = o at hdeclared ⊢
  generalize declared? rules [slot'] item = o' at hdeclared ⊢
  cases hdeclared with
  | none => exact ⟨p, .refl p, h⟩
  | @some a b hab =>
    obtain ⟨x, step⟩ := a
    obtain ⟨x', step'⟩ := b
    obtain ⟨rfl, htracks⟩ := hab
    have hstart : Naming.Alike w p ⟨stage.next, Table.empty⟩ ⟨stage'.next, Table.empty⟩ :=
      ⟨h.first, h.second, h.admits, rfl, fun v hv => absurd hv List.not_mem_nil⟩
    have hend := htracks p _ _ hstart
    simp only at hend ⊢
    generalize step ⟨stage.next, Table.empty⟩ = r at hend ⊢
    generalize step' ⟨stage'.next, Table.empty⟩ = r' at hend ⊢
    cases hend with
    | ok hq hn ht =>
      have henv := h.env.mono hq
      exact ⟨_, hq, henv.insert x (henv.generalize ht), hn.first, hn.second, hn.admits⟩
    | error hq hn _ => exact ⟨_, hq, h.env.mono hq, hn.first, hn.second, hn.admits⟩

/-- Two checks that meet an item with the same report the same of it and go on with the same. -/
theorem inspect_alike (hr : rules.Proper) (resilient : Bool) {item : Term}
    (hv : ∀ x ∈ item.identifiers, ¬ w.hidden x) (slot slot' : Nat)
    (h : Stage.Alike w p stage stage') :
    Outcomes (fun a b => Report.Alike w [slot] [slot'] a.1 b.1 ∧
        ∃ q, p.Extends q ∧ Stage.Alike w q a.2 b.2)
      (inspect rules resilient item slot stage) (inspect rules resilient item slot' stage') := by
  have hend := Infer.pacedChecked hr item hv p stage.env stage'.env [] h.env _ _
    (h.start [slot] [slot'])
  rw [List.nil_append, List.nil_append] at hend
  unfold inspect
  generalize Infer.check rules item stage.env [slot] (.start stage.next) = r at hend ⊢
  generalize Infer.check rules item stage'.env [slot'] (.start stage'.next) = r' at hend ⊢
  cases hend with
  | @ok q a b after after' hq hafter hab =>
    have hfinal := finalTypes_alike hab.1 hafter.types
    simp only
    generalize finalTypes a.1 after.types = f at hfinal ⊢
    generalize finalTypes b.1 after'.types = f' at hfinal ⊢
    cases hfinal with
    | error e => exact .error e
    | ok htypes =>
      exact .ok ⟨passed_alike item hab.2 hafter.admits htypes after after', q, hq, hab.2,
        hafter.first, hafter.second, hafter.admits⟩
  | @error q failure failure' after after' hq hafter hfailure =>
    cases hfailure with
    | typeError he =>
      have hstage : Stage.Alike w q ⟨stage.env, after.next⟩ ⟨stage'.env, after'.next⟩ :=
        ⟨h.env.mono hq, hafter.first, hafter.second, hafter.admits⟩
      refine .ok ⟨.failed _ _ hafter.admits he, ?_⟩
      cases resilient with
      | false => exact ⟨q, hq, hstage⟩
      | true =>
        obtain ⟨r, hqr, hrecover⟩ := recover_alike rules hstage slot slot' item
        exact ⟨r, hq.trans hqr, hrecover⟩
    | cyclic => exact .error _
    | notExpression kind => exact .error _
    | notStatement kind => exact .error _
    | malformed _ _ => exact .error _

/-- The reports on items in two rows of slots say the same, one by one. -/
def ReportsAlike (w : Twinning) (slot slot' count : Nat) (rs rs' : List Report) : Prop :=
  List.Forall₂ (fun r r' => ∃ i < count, Report.Alike w [slot + i] [slot' + i] r r') rs rs'

theorem ReportsAlike.cons {slot slot' count : Nat} {r r' : Report} {rs rs' : List Report}
    (hs : ReportsAlike w (slot + 1) (slot' + 1) count rs rs')
    (h : Report.Alike w [slot] [slot'] r r') :
    ReportsAlike w slot slot' (count + 1) (r :: rs) (r' :: rs') := by
  refine List.Forall₂.cons ⟨0, Nat.succ_pos count, h⟩ (List.Forall₂.imp ?_ hs)
  rintro a b ⟨i, hi, hab⟩
  refine ⟨i + 1, Nat.succ_lt_succ hi, ?_⟩
  rwa [Nat.add_assoc, Nat.add_assoc, Nat.add_comm 1] at hab

/-- Two checks that start alike report the same of all items. -/
theorem reports_alike (hr : rules.Proper) (resilient : Bool) (es : List Term)
    (hv : ∀ x ∈ Term.identifiersAll es, ¬ w.hidden x) (slot slot' : Nat)
    (h : Stage.Alike w p stage stage') :
    Outcomes (fun a b => ReportsAlike w slot slot' es.length a.1 b.1 ∧
        (∃ q, Stage.Alike w q a.2.1 b.2.1) ∧ b.2.2 = a.2.2)
      (reports rules resilient es slot stage) (reports rules resilient es slot' stage') := by
  induction es generalizing p slot slot' stage stage' with
  | nil => exact .ok ⟨.nil, ⟨p, h⟩, rfl⟩
  | cons item es ih =>
    obtain ⟨hitem, hes⟩ := List.forall_mem_append.1 hv
    have hfirst := inspect_alike hr resilient hitem slot slot' h
    generalize hi : inspect rules resilient item slot stage = r at hfirst
    generalize hi' : inspect rules resilient item slot' stage' = r' at hfirst
    cases hfirst with
    | error e =>
      rw [reports_cons_error hi, reports_cons_error hi']
      exact .error e
    | @ok a b hab =>
      obtain ⟨report, next⟩ := a
      obtain ⟨report', next'⟩ := b
      obtain ⟨hreport, q, -, hnext⟩ := hab
      by_cases hgo : (resilient || report.error?.isNone) = true
      · rw [reports_cons hi hgo, reports_cons hi' (by rw [hreport.isNone]; exact hgo)]
        refine (ih hes (slot + 1) (slot' + 1) hnext).map ?_
        exact fun a b ⟨hrest, hstage⟩ => ⟨hrest.cons hreport, hstage⟩
      · obtain ⟨rfl, hstop⟩ := Bool.or_eq_false_iff.1 (Bool.eq_false_iff.2 hgo)
        rw [reports_cons_stop hi hstop, reports_cons_stop hi' (hreport.isNone.trans hstop)]
        exact .ok ⟨List.Forall₂.cons ⟨0, Nat.succ_pos _, hreport⟩ .nil, ⟨q, hnext⟩, rfl⟩

/-- Two checks that come to the last expression alike report the same of it. -/
theorem finish_alike (hr : rules.Proper) {e : Option Term}
    (hv : ∀ x ∈ Term.identifiersAll e.toList, ¬ w.hidden x) (slot slot' : Nat)
    (h : Stage.Alike w p stage stage') :
    Outcomes (fun a b => ReportsAlike w slot slot' 1 a.1 b.1 ∧
        ∃ q : Pairing, w.Admits q ∧ Option.Rel q.Matches a.2 b.2)
      (finish rules slot stage e) (finish rules slot' stage' e) := by
  cases e with
  | none => exact .ok ⟨.nil, p, h.admits, .some (Pairing.matches_con _)⟩
  | some e =>
    have hv : ∀ x ∈ e.identifiers, ¬ w.hidden x := by simpa [Term.identifiersAll] using hv
    have hend := Infer.paced hr e hv p stage.env stage'.env [] h.env _ _
      (h.start [slot] [slot'])
    rw [List.nil_append, List.nil_append] at hend
    rw [finish, finish]
    generalize Infer.infer rules e stage.env [slot] (.start stage.next) = r at hend ⊢
    generalize Infer.infer rules e stage'.env [slot'] (.start stage'.next) = r' at hend ⊢
    cases hend with
    | @ok q a b after after' hq hafter hab =>
      have hfinal := finalTypes_alike hab.fst hafter.types
      have hexpand := hab.fst.expand? hab.snd
      simp only
      generalize finalTypes a.1 after.types = f at hfinal ⊢
      generalize finalTypes b.1 after'.types = f' at hfinal ⊢
      generalize a.1.expand? a.2 = o at hexpand ⊢
      generalize b.1.expand? b.2 = o' at hexpand ⊢
      cases hfinal with
      | error e => exact .error e
      | ok htypes =>
        cases hexpand with
        | none => exact .error _
        | some ht =>
          have hreport := Report.Alike.passed (logOf after) (logOf after') hafter.admits
            (.inl .none) htypes
          exact .ok ⟨List.Forall₂.cons ⟨0, Nat.one_pos, hreport⟩ .nil, q, hafter.admits, .some ht⟩
    | @error q failure failure' after after' hq hafter hfailure =>
      cases hfailure with
      | typeError he =>
        have hreport := Report.Alike.failed (logOf after) (logOf after') hafter.admits he
        exact .ok ⟨List.Forall₂.cons ⟨0, Nat.one_pos, hreport⟩ .nil, q, hafter.admits, .none⟩
      | cyclic => exact .error _
      | notExpression kind => exact .error _
      | notStatement kind => exact .error _
      | malformed _ _ => exact .error _

end Check

/-! ## What reports come to -/

/-- The one becomes the other when variables are renamed, different ones differently. -/
def Renamed {α : Type} (rename : (Int → Int) → α → α) (a b : α) : Prop :=
  ∃ π, Injective π ∧ b = rename π a

theorem Scheme.Alike.renamed {w : Twinning} {p : Pairing} {scheme other : Scheme}
    (h : Scheme.Alike w p scheme other) : Renamed Scheme.rename scheme other := by
  obtain ⟨σ, hσ, he, -⟩ := h.exists_renaming
  exact ⟨σ, hσ, he⟩

namespace Report

variable {w : Twinning} {rs rs' : List Report}

theorem entries_cons (r : Report) (rs : List Report) (t : Env) :
    t.insertAll ((r :: rs).filterMap bound?) =
      (t.insertAll r.bound?.toList).insertAll (rs.filterMap bound?) := by
  rw [List.filterMap_cons]
  cases r.bound? <;> rfl

/-- Reports that say the same enter the same names in the same order, hidden ones left out. -/
theorem entries_alike (names : List String) (hhidden : ∀ x, w.hidden x → x ∈ names)
    {R : Scheme → Scheme → Prop}
    (hR : ∀ p a b, w.Admits p → Scheme.Alike w p a b → R a b)
    (h : List.Forall₂ (fun r r' => ∃ root root', Report.Alike w root root' r r') rs rs')
    (t t' : Env) (ht : Table.Rel R (t.without names) (t'.without names)) :
    Table.Rel R ((t.insertAll (rs.filterMap bound?)).without names)
      ((t'.insertAll (rs'.filterMap bound?)).without names) := by
  induction h generalizing t t' with
  | nil => exact ht
  | cons hr _ ih =>
    rw [entries_cons, entries_cons]
    refine ih _ _ ?_
    obtain ⟨root, root', hr⟩ := hr
    cases hr with
    | failed _ _ _ _ => exact ht
    | passed _ _ hw hbound _ =>
      simp only [bound?]
      rcases hbound with hrel | ⟨hx, hx'⟩
      · cases hrel with
        | none => exact ht
        | @some a b hab =>
          obtain ⟨hname, hs⟩ := hab
          show Table.Rel R ((t.insert a.1 a.2).without names) ((t'.insert b.1 b.2).without names)
          rw [Table.without_insert, Table.without_insert, ← hname]
          by_cases hmem : a.1 ∈ names
          · rw [if_pos hmem, if_pos hmem]
            exact ht
          · rw [if_neg hmem, if_neg hmem]
            exact ht.insert a.1 (hR _ _ _ hw hs)
      · have hleft : ∀ bound : Option (String × Scheme),
            (∀ x scheme, bound = some (x, scheme) → w.hidden x) →
              ∀ entry ∈ bound.toList, entry.1 ∈ names := fun bound hb entry he =>
          hhidden _ (hb entry.1 entry.2 (Option.mem_toList.1 he))
        rw [Table.without_insertAll (hleft _ hx), Table.without_insertAll (hleft _ hx')]
        exact ht

/-- Reports that say the same tell of the same errors in the same order. -/
theorem errors_alike {slot slot' count : Nat} (h : Check.ReportsAlike w slot slot' count rs rs') :
    List.Forall₂
      (fun e e' => ∃ i < count, ∃ π, Injective π ∧ e.Alike [slot + i] [slot' + i] π e')
      (rs.filterMap error?) (rs'.filterMap error?) := by
  refine List.rel_filterMap (fun r r' hr => ?_) h
  obtain ⟨i, hi, hr⟩ := hr
  exact hr.rel_error? fun p e e' _ he => ⟨i, hi, p.map, p.injective, he⟩

end Report

theorem map_eq_of_forall₂ {α β γ : Type} {R : α → β → Prop} {f : α → γ} {g : β → γ} {as : List α}
    {bs : List β} (h : List.Forall₂ R as bs) (hfg : ∀ a b, R a b → g b = f a) :
    bs.map g = as.map f := by
  induction h with
  | nil => rfl
  | cons hab _ ih => rw [List.map_cons, List.map_cons, hfg _ _ hab, ih]

/-- What two checks came to differs in the numbers of variables only. -/
structure Checked.Alike (c c' : Checked) : Prop where
  schemes : Table.Rel (Renamed Scheme.rename) c.schemes c'.schemes
  errors : List.Forall₂ (Renamed TypeError.rename) c.errors c'.errors
  programType : Option.Rel (Renamed Ty.rename) c.programType c'.programType

namespace Checked.Alike

variable {c c' : Checked}

theorem describe_eq (h : Alike c c') (p : Program) : c'.describe p = c.describe p := by
  have hschemes : c'.schemes.entries.map (fun (x, s) => x ++ " : " ++ s.text) =
      c.schemes.entries.map fun (x, s) => x ++ " : " ++ s.text := by
    refine map_eq_of_forall₂ h.schemes ?_
    rintro ⟨x, s⟩ ⟨_, _⟩ ⟨rfl, π, hπ, rfl⟩
    exact congrArg (x ++ " : " ++ ·) (Scheme.text_rename hπ s)
  unfold describe
  rw [hschemes]
  have htype := h.programType
  generalize c.programType = o at htype ⊢
  generalize c'.programType = o' at htype ⊢
  cases htype with
  | none => rfl
  | some ht =>
    obtain ⟨π, hπ, rfl⟩ := ht
    cases p.result with
    | none => rfl
    | some e => simp only [Ty.pretty_rename hπ]

/-- Reports that say the same come to the same. -/
theorem ofReports {w : Twinning} (hv : ∀ x, ¬ w.hidden x) {rs rs' : List Report}
    (h : List.Forall₂ (fun r r' => ∃ i, Report.Alike w [i] [i] r r') rs rs') {q : Pairing}
    {t t' : Option Ty} (ht : Option.Rel q.Matches t t') :
    (Checked.ofReports rs t).Alike (.ofReports rs' t') := by
  refine ⟨?_, ?_, rel_imp ht fun _ _ ht => ⟨q.map, q.injective, ht.eq⟩⟩
  · have hentries := Report.entries_alike [] (fun x hx => absurd hx (hv x))
      (fun _ _ _ _ hs => hs.renamed) (h.imp fun _ _ ⟨i, h⟩ => ⟨[i], [i], h⟩) .empty .empty
      Table.rel_empty
    rwa [Table.without_nil, Table.without_nil] at hentries
  · refine List.rel_filterMap (fun r r' hr => ?_) h
    obtain ⟨i, hr⟩ := hr
    exact hr.rel_error? fun q e e' _ he => ⟨q.map, q.injective, he.eq⟩

end Checked.Alike

namespace Program

variable {w : Twinning}

/-- Two checks of a program that start alike report the same of it. -/
theorem reports_alike (p : Program) (extraTypes : List String) (resilient : Bool) {env other : Env}
    {n m : Int} {q : Pairing} (h : Check.Stage.Alike w q ⟨env, n⟩ ⟨other, m⟩)
    (hv : ∀ x, ¬ w.hidden x) :
    Outcomes (fun a b => List.Forall₂ (fun r r' => ∃ i, Report.Alike w [i] [i] r r') a.1 b.1 ∧
        ∃ q : Pairing, w.Admits q ∧ Option.Rel q.Matches a.2 b.2)
      (p.reports ⟨extraTypes, resilient, n, env⟩)
      (p.reports ⟨extraTypes, resilient, m, other⟩) := by
  have hr := Rules.proper_standard extraTypes
  have hslots : ∀ {slot count : Nat} {rs rs' : List Report},
      Check.ReportsAlike w slot slot count rs rs' →
        List.Forall₂ (fun r r' => ∃ i, Report.Alike w [i] [i] r r') rs rs' :=
    fun h => h.imp fun _ _ ⟨i, _, hi⟩ => ⟨_, hi⟩
  have hitems := Check.reports_alike hr resilient p.statements (fun x _ => hv x) 0 0 h
  unfold Program.reports
  simp only
  generalize Check.reports _ _ _ _ ⟨env, n⟩ = r at hitems ⊢
  generalize Check.reports _ _ _ _ ⟨other, m⟩ = r' at hitems ⊢
  cases hitems with
  | error e => exact .error e
  | @ok a b hab =>
    obtain ⟨first, stage, through⟩ := a
    obtain ⟨first', stage', _⟩ := b
    obtain ⟨hfirst, ⟨q', hstage⟩, hthrough⟩ := hab
    cases hthrough
    cases through with
    | false => exact .ok ⟨hslots hfirst, q', hstage.admits, .none⟩
    | true =>
      have hlast := Check.finish_alike hr (e := p.result) (fun x _ => hv x) p.statements.length
        p.statements.length hstage
      simp only [bind, Except.bind, if_true]
      generalize Check.finish _ _ stage _ = r at hlast ⊢
      generalize Check.finish _ _ stage' _ = r' at hlast ⊢
      cases hlast with
      | error e => exact .error e
      | ok hab => exact .ok ⟨List.rel_append (hslots hfirst) (hslots hab.1), hab.2⟩

theorem reports_of_through {p : Program} {extraTypes : List String} {resilient : Bool} {seed : Int}
    {env : Env} {first last : List Report} {stage : Check.Stage} {t : Option Ty}
    (hfirst : Check.reports (.standard extraTypes) resilient p.statements 0 ⟨env, seed⟩ =
      .ok (first, stage, true))
    (hlast : Check.finish (.standard extraTypes) p.statements.length stage p.result =
      .ok (last, t)) :
    p.reports ⟨extraTypes, resilient, seed, env⟩ = .ok (first ++ last, t) := by
  unfold Program.reports
  simp only [hfirst, bind, Except.bind, if_true, hlast]

end Program

end LetPoly
