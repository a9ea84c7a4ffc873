-- The laws of what items have to do with each other. An item has an effect on those
-- after it through the name that it binds and through nothing else: neither the
-- variables that were drawn for it, nor its substitution, nor its failure show in what
-- is said of an item that does not refer to that name. And a definition whose types
-- are all written out has the same effect whatever its body is.
import LetPoly.Proofs.SettledStages

namespace LetPoly

open Function (Injective)

/-! ## Where errors are put down to -/

/-- The slot of the top-level item that an error is put down to. -/
def TypeError.slot? (e : TypeError) : Option Nat := e.site.bind (·.position.getLast?)

theorem TypeError.Alike.slots {i j : Nat} {π : Int → Int} {e e' : TypeError}
    (h : e.Alike [i] [j] π e') : e.slot? = some i ∧ e'.slot? = some j := by
  cases h with
  | placed reason hs =>
    obtain ⟨inner, hp, hp'⟩ := hs.position
    simp [slot?, TypeError.placed, hp, hp']

/-- The place of a node after the item in a slot is taken out: those behind it move up. -/
def Position.closeGap (slot : Nat) (position : Position) : Position :=
  match position.getLast? with
  | some i => if slot < i then position.dropLast ++ [i - 1] else position
  | none => position

/-- An error after the item in a slot is taken out. -/
def TypeError.closeGap (slot : Nat) (e : TypeError) : TypeError :=
  ⟨e.reason, e.site.map fun site => ⟨site.toTag, Position.closeGap slot site.position⟩⟩

theorem Position.closeGap_append (slot : Nat) (inner : Position) (i : Nat) :
    closeGap slot (inner ++ [i]) = inner ++ [if slot < i then i - 1 else i] := by
  by_cases h : slot < i <;> simp [closeGap, h]

theorem TypeError.Alike.closeGap {slot i j : Nat} (hj : j = if slot < i then i - 1 else i)
    {π : Int → Int} {e e' : TypeError} (h : e.Alike [i] [j] π e') :
    e' = (e.rename π).closeGap slot := by
  cases h with
  | @placed reason site site' hs =>
    obtain ⟨tag, position⟩ := site
    obtain ⟨tag', position'⟩ := site'
    obtain ⟨rfl, inner, rfl, rfl⟩ := hs
    simp [TypeError.closeGap, TypeError.rename, TypeError.placed, Position.closeGap_append, hj]

/-! ## Checks that differ in a row of items -/

/-- Two errors stand at the same place in items of two rows of slots, and differ in the numbers of
variables. -/
def TypeError.InRows (slot slot' count : Nat) (e e' : TypeError) : Prop :=
  ∃ i < count, ∃ π, Injective π ∧ e.Alike [slot + i] [slot' + i] π e'

/-- Two checks came to the same, up to the numbers of variables, but for the given names and for
what is wrong in a row of items: it takes `length` slots in the one program and `length'` in the
other. -/
structure Checked.AlikeAround (names : List String) (slot length length' : Nat) (c c' : Checked) :
    Prop where
  schemes : Table.Rel (Renamed Scheme.rename) (c.schemes.without names) (c'.schemes.without names)
  errors : ∃ front row row' back back' count, c.errors = front ++ row ++ back ∧
    c'.errors = front ++ row' ++ back' ∧ List.Forall₂ (TypeError.InRows 0 0 slot) front front ∧
    List.Forall₂ (TypeError.InRows slot slot length) row row ∧ row.length ≤ length ∧
    List.Forall₂ (TypeError.InRows slot slot length') row' row' ∧ row'.length ≤ length' ∧
    List.Forall₂ (TypeError.InRows (slot + length) (slot + length') count) back back'
  programType : Option.Rel (Renamed Ty.rename) c.programType c'.programType

namespace Check

variable {rules : Rules} {stage stage' : Stage}

theorem ReportsAlike.append {w : Twinning} {slot slot' count count' : Nat}
    {rs rs' more more' : List Report} (h : ReportsAlike w slot slot' count rs rs')
    (hmore : ReportsAlike w (slot + count) (slot' + count) count' more more') :
    ReportsAlike w slot slot' (count + count') (rs ++ more) (rs' ++ more') := by
  refine List.rel_append (h.imp fun _ _ ⟨i, hi, hr⟩ => ⟨i, by omega, hr⟩) (hmore.imp ?_)
  rintro r r' ⟨i, hi, hr⟩
  exact ⟨count + i, by omega, by rwa [← Nat.add_assoc, ← Nat.add_assoc]⟩

/-- What is said of a row of items is said of it in the slots that it takes. -/
theorem reports_alike_self (hr : rules.Proper) (h : stage.Settled) {es : List Term} {slot : Nat}
    {rs : List Report} {through : Bool}
    (hrun : reports rules true es slot stage = .ok (rs, stage', through)) :
    ReportsAlike .plain slot slot es.length rs rs := by
  have hself := reports_alike hr true es (fun _ _ => id) slot slot h.alike_self
  rw [hrun] at hself
  cases hself with
  | ok hab => exact hab.1

/-- The errors in a row of items, and how many there are. -/
theorem errors_in_row (hr : rules.Proper) (h : stage.Settled) {es : List Term} {slot : Nat}
    {rs : List Report} {through : Bool}
    (hrun : reports rules true es slot stage = .ok (rs, stage', through)) :
    List.Forall₂ (TypeError.InRows slot slot es.length) (rs.filterMap Report.error?)
        (rs.filterMap Report.error?) ∧
      (rs.filterMap Report.error?).length ≤ es.length := by
  refine ⟨Report.errors_alike (reports_alike_self hr h hrun), ?_⟩
  rw [← (reports_of_items hrun).1]
  exact List.length_filterMap_le _ _

/-- What is left of a program is reported on in the same way from two stages that say the same of
all names in it. -/
theorem exists_rest_alike (hr : rules.Proper) (h : stage.Settled) (h' : stage'.Settled)
    {hidden : String → Prop} (hget : ∀ x, ¬ hidden x → stage'.env.get? x = stage.env.get? x)
    {es : List Term} {result : Option Term} (hplace : ∀ e ∈ es, e.IsStatement)
    (hresult : ∀ e, result = some e → e.IsExpression)
    (hv : ∀ x ∈ Term.identifiersAll (es ++ result.toList), ¬ hidden x) (slot slot' : Nat) :
    ∃ rs rs' last last' end₁ end₂ t t',
      reports rules true es slot stage = .ok (rs, end₁, true) ∧
      finish rules (slot + es.length) end₁ result = .ok (last, t) ∧
      reports rules true es slot' stage' = .ok (rs', end₂, true) ∧
      finish rules (slot' + es.length) end₂ result = .ok (last', t') ∧
      ReportsAlike ⟨none, hidden⟩ slot slot' (es.length + 1) (rs ++ last) (rs' ++ last') ∧
      Option.Rel (Renamed Ty.rename) t t' := by
  rw [Term.identifiersAll_append] at hv
  obtain ⟨hves, hvresult⟩ := List.forall_mem_append.1 hv
  obtain ⟨rs, end₁, hrs, hend⟩ := exists_reports_resilient hr h hplace slot
  obtain ⟨rs', end₂, hrs', hend'⟩ := exists_reports_resilient hr h' hplace slot'
  have hitems := reports_alike hr true es hves slot slot' (h.alike h' hget)
  rw [hrs, hrs'] at hitems
  cases hitems with
  | ok hitems =>
    obtain ⟨hitems, ⟨p, halike⟩, -⟩ := hitems
    obtain ⟨last, t, hlast⟩ := exists_finish hr hend hresult (slot + es.length)
    obtain ⟨last', t', hlast'⟩ := exists_finish hr hend' hresult (slot' + es.length)
    have hfinish := finish_alike hr hvresult (slot + es.length) (slot' + es.length) halike
    rw [hlast, hlast'] at hfinish
    cases hfinish with
    | ok hfinish =>
      obtain ⟨hlasts, q, -, ht⟩ := hfinish
      exact ⟨rs, rs', last, last', end₁, end₂, t, t', hrs, hlast, hrs', hlast',
        hitems.append hlasts, rel_imp ht fun _ _ ht => ⟨q.map, q.injective, ht.eq⟩⟩

end Check

/-- What a check comes to on a program whose items come in three rows. -/
theorem Program.check_of_rows {extraTypes : List String} {seed : Int}
    {before row after : List Term} {result : Option Term} {file : String} {l : Option Location}
    {first second third last : List Report} {stage₁ stage₂ stage₃ : Check.Stage} {t : Option Ty}
    (h₁ : Check.reports (.standard extraTypes) true before 0 ⟨Table.empty, seed⟩ =
      .ok (first, stage₁, true))
    (h₂ : Check.reports (.standard extraTypes) true row before.length stage₁ =
      .ok (second, stage₂, true))
    (h₃ : Check.reports (.standard extraTypes) true after (before.length + row.length) stage₂ =
      .ok (third, stage₃, true))
    (h₄ : Check.finish (.standard extraTypes) (before.length + row.length + after.length) stage₃
      result = .ok (last, t)) :
    Program.check ⟨before ++ row ++ after, result, file, l⟩
      ⟨extraTypes, true, seed, Table.empty⟩ =
      .ok (.ofReports (first ++ second ++ third ++ last) t) := by
  have hfront : Check.reports (.standard extraTypes) true (before ++ row) 0 ⟨Table.empty, seed⟩ =
      .ok (first ++ second, stage₂, true) :=
    Check.reports_append h₁ (by rw [Nat.zero_add]; exact h₂)
  have hitems : Check.reports (.standard extraTypes) true (before ++ row ++ after) 0
      ⟨Table.empty, seed⟩ = .ok (first ++ second ++ third, stage₃, true) :=
    Check.reports_append hfront (by rw [Nat.zero_add, List.length_append]; exact h₃)
  have hlast : Check.finish (.standard extraTypes) (before ++ row ++ after).length stage₃ result =
      .ok (last, t) := by
    rw [List.length_append, List.length_append]
    exact h₄
  exact check_of_reports (reports_of_through hitems hlast)

/-- Reports on a row of items that bind left out names do not show in the schemes. -/
theorem Report.entries_around {names : List String} {front row row' back back' : List Report}
    (hrow : ∀ r ∈ row, ∀ x scheme, r.bound? = some (x, scheme) → x ∈ names)
    (hrow' : ∀ r ∈ row', ∀ x scheme, r.bound? = some (x, scheme) → x ∈ names)
    {w : Twinning} (hhidden : ∀ x, w.hidden x → x ∈ names) {slot slot' count count' : Nat}
    (hfront : Check.ReportsAlike .plain 0 0 count front front)
    (hback : Check.ReportsAlike w slot slot' count' back back') {t t' : Option Ty} :
    Table.Rel (Renamed Scheme.rename)
      ((Checked.ofReports (front ++ row ++ back) t).schemes.without names)
      ((Checked.ofReports (front ++ row' ++ back') t').schemes.without names) := by
  -- what the row enters is left out
  have hout : ∀ (row : List Report), (∀ r ∈ row, ∀ x scheme, r.bound? = some (x, scheme) →
      x ∈ names) → ∀ t : Env, (t.insertAll (row.filterMap Report.bound?)).without names =
        t.without names := by
    intro row hrow t
    refine Table.without_insertAll (fun entry he => ?_) t
    obtain ⟨r, hr, hb⟩ := List.mem_filterMap.1 he
    exact hrow r hr entry.1 entry.2 hb
  have hstart : Table.Rel (Renamed Scheme.rename)
      ((Table.empty.insertAll (front.filterMap Report.bound?)).without names)
      ((Table.empty.insertAll (front.filterMap Report.bound?)).without names) :=
    Report.entries_alike (w := .plain) names nofun (fun _ _ _ _ hs => hs.renamed)
      (hfront.imp fun _ _ ⟨_, _, h⟩ => ⟨_, _, h⟩) .empty .empty Table.rel_empty
  have hend := Report.entries_alike names hhidden (fun _ _ _ _ hs => hs.renamed)
    (hback.imp fun _ _ ⟨_, _, h⟩ => ⟨_, _, h⟩)
    ((Table.empty.insertAll (front.filterMap Report.bound?)).insertAll
      (row.filterMap Report.bound?))
    ((Table.empty.insertAll (front.filterMap Report.bound?)).insertAll
      (row'.filterMap Report.bound?)) (by rwa [hout row hrow, hout row' hrow'])
  simpa [Checked.ofReports, Checked.add, Checked.start, Table.insertAll] using hend

/-- A row of items has an effect on the items after it only through the names that they refer to:
if the environments after it say the same of those, nothing else matters of the row. -/
theorem Program.check_around (extraTypes : List String) (seed : Int) (file : String)
    (l : Option Location) (row row' : List Term) (names : List String) (hidden : String → Prop)
    {before after : List Term} {result : Option Term} (hbefore : ∀ e ∈ before, e.IsStatement)
    (hrow : ∀ e ∈ row, e.IsStatement) (hrow' : ∀ e ∈ row', e.IsStatement)
    (hafter : ∀ e ∈ after, e.IsStatement) (hresult : ∀ e, result = some e → e.IsExpression)
    (hnames : ∀ e ∈ row ++ row', ∀ x, e.boundName? = some x → x ∈ names)
    (hhidden : ∀ x, hidden x → x ∈ names)
    (hv : ∀ x ∈ Term.identifiersAll (after ++ result.toList), ¬ hidden x)
    (hget : ∀ {stage rs st rs' st'}, Check.Stage.Settled stage →
      Check.reports (.standard extraTypes) true row before.length stage = .ok (rs, st, true) →
      Check.reports (.standard extraTypes) true row' before.length stage = .ok (rs', st', true) →
      ∀ x, ¬ hidden x → st'.env.get? x = st.env.get? x) :
    ∃ c c',
      Program.check ⟨before ++ row ++ after, result, file, l⟩
        ⟨extraTypes, true, seed, Table.empty⟩ = .ok c ∧
      Program.check ⟨before ++ row' ++ after, result, file, l⟩
        ⟨extraTypes, true, seed, Table.empty⟩ = .ok c' ∧
      c.AlikeAround names before.length row.length row'.length c' := by
  have hr := Rules.proper_standard extraTypes
  obtain ⟨front, stage, hfront, hstage⟩ :=
    Check.exists_reports_resilient hr (Check.settled_empty seed) hbefore 0
  obtain ⟨rs, st, hrs, hst⟩ := Check.exists_reports_resilient hr hstage hrow before.length
  obtain ⟨rs', st', hrs', hst'⟩ := Check.exists_reports_resilient hr hstage hrow' before.length
  obtain ⟨back, back', last, last', end₁, end₂, t, t', hback, hlast, hback', hlast', halike, ht⟩ :=
    Check.exists_rest_alike hr hst hst' (hget hstage hrs hrs') hafter hresult hv
      (before.length + row.length) (before.length + row'.length)
  have hself := Check.reports_alike_self hr (Check.settled_empty seed) hfront
  obtain ⟨hrow, hlength⟩ := Check.errors_in_row hr hstage hrs
  obtain ⟨hrow', hlength'⟩ := Check.errors_in_row hr hstage hrs'
  refine ⟨_, _, check_of_rows hfront hrs hback hlast, check_of_rows hfront hrs' hback' hlast', ?_,
    ⟨front.filterMap Report.error?, rs.filterMap Report.error?, rs'.filterMap Report.error?,
      (back ++ last).filterMap Report.error?, (back' ++ last').filterMap Report.error?, _, ?_, ?_,
      Report.errors_alike hself, hrow, hlength, hrow', hlength', Report.errors_alike halike⟩, ht⟩
  · rw [List.append_assoc _ back, List.append_assoc _ back']
    refine Report.entries_around (fun r hr x scheme hx => ?_) (fun r hr x scheme hx => ?_)
      hhidden hself halike
    · obtain ⟨e, he, hx⟩ := (Check.reports_of_items hrs).2 r hr x scheme hx
      exact hnames e (List.mem_append_left _ he) x hx
    · obtain ⟨e, he, hx⟩ := (Check.reports_of_items hrs').2 r hr x scheme hx
      exact hnames e (List.mem_append_right _ he) x hx
  · simp
  · simp

/-! ## Items that are not referred to -/

theorem TypeError.InRows.slots {slot slot' count : Nat} {e e' : TypeError}
    (h : e.InRows slot slot' count e') :
    ∃ i < count, e.slot? = some (slot + i) ∧ e'.slot? = some (slot' + i) := by
  obtain ⟨i, hi, π, -, he⟩ := h
  exact ⟨i, hi, he.slots⟩

theorem TypeError.InRows.closeGap {gap slot slot' count : Nat}
    (hslot : ∀ i < count, slot' + i = if gap < slot + i then slot + i - 1 else slot + i)
    {e e' : TypeError} (h : e.InRows slot slot' count e') :
    Renamed (fun π e => (e.rename π).closeGap gap) e e' := by
  obtain ⟨i, hi, π, hπ, he⟩ := h
  exact ⟨π, hπ, he.closeGap (hslot i hi)⟩

theorem Check.inspect_of_reports {rules : Rules} {item : Term} {slot : Nat}
    {stage stage' : Check.Stage} {rs : List Report} {through : Bool}
    (h : Check.reports rules true [item] slot stage = .ok (rs, stage', through)) :
    ∃ report, Check.inspect rules true item slot stage = .ok (report, stage') := by
  obtain ⟨report, next, rest, hi, -, hrest⟩ := reports_cons_resilient h
  cases hrest
  exact ⟨report, hi⟩

/-- The errors apart from those of the item in a slot, and the errors of that item. -/
theorem filter_slot {slot : Nat} {front row back : List TypeError}
    (hfront : List.Forall₂ (TypeError.InRows 0 0 slot) front front)
    (hrow : List.Forall₂ (TypeError.InRows slot slot 1) row row)
    (hback : ∀ e ∈ back, ∃ i, e.slot? = some (slot + 1 + i)) :
    (front ++ row ++ back).filter (·.slot? ≠ some slot) = front ++ back ∧
      (front ++ row ++ back).filter (·.slot? = some slot) = row := by
  have hkeep : ∀ e ∈ front ++ back, e.slot? ≠ some slot := by
    refine List.forall_mem_append.2 ⟨fun e he => ?_, fun e he => ?_⟩
    · obtain ⟨i, hi, hs, -⟩ := (List.forall₂_same.1 hfront e he).slots
      rw [hs, ne_eq, Option.some.injEq]
      omega
    · obtain ⟨i, hs⟩ := hback e he
      rw [hs, ne_eq, Option.some.injEq]
      omega
  have hdrop : ∀ e ∈ row, e.slot? = some slot := by
    intro e he
    obtain ⟨i, hi, hs, -⟩ := (List.forall₂_same.1 hrow e he).slots
    rw [hs, Option.some.injEq]
    omega
  constructor
  · rw [List.filter_append, List.filter_append, List.filter_eq_nil_iff (l := row) |>.2
      fun e he => by simpa using hdrop e he, List.append_nil, ← List.filter_append]
    exact List.filter_eq_self.2 fun e he => by simpa using hkeep e he
  · have hnone : ∀ es : List TypeError, (∀ e ∈ es, e.slot? ≠ some slot) →
        es.filter (·.slot? = some slot) = [] := fun es hes =>
      List.filter_eq_nil_iff.2 fun e he => by simpa using hes e he
    obtain ⟨hf, hb⟩ := List.forall_mem_append.1 hkeep
    rw [List.filter_append, List.filter_append, hnone front hf, hnone back hb, List.append_nil,
      List.nil_append]
    exact List.filter_eq_self.2 fun e he => by simpa using hdrop e he

theorem TypeError.slots_of_rows {slot slot' count : Nat} {es es' : List TypeError}
    (h : List.Forall₂ (TypeError.InRows slot slot' count) es es') :
    (∀ e ∈ es, ∃ i, e.slot? = some (slot + i)) ∧ ∀ e ∈ es', ∃ i, e.slot? = some (slot' + i) := by
  induction h with
  | nil => simp
  | cons he _ ih =>
    obtain ⟨i, -, hs, hs'⟩ := he.slots
    exact ⟨List.forall_mem_cons.2 ⟨⟨i, hs⟩, ih.1⟩, List.forall_mem_cons.2 ⟨⟨i, hs'⟩, ih.2⟩⟩

/-- Whether an item passes, fails and is recovered, or fails and binds nothing: if nothing after it
refers to the name that it binds, the check of a program comes to the same without it. All other
names have the same schemes in the same order, the program has the same type and all other items
the same errors, up to the numbers of variables. -/
theorem an_item_matters_only_where_its_name_is_used (extraTypes : List String) (seed : Int)
    (before : List Term) (item : Term) (after : List Term) (result : Option Term) (file : String)
    (l : Option Location) (hplace : Program.InPlace ⟨before ++ item :: after, result, file, l⟩)
    (hunused : ∀ x, item.boundName? = some x →
      x ∉ Term.identifiersAll (after ++ result.toList)) :
    ∃ c c',
      Program.check ⟨before ++ item :: after, result, file, l⟩
        ⟨extraTypes, true, seed, Table.empty⟩ = .ok c ∧
      Program.check ⟨before ++ after, result, file, l⟩
        ⟨extraTypes, true, seed, Table.empty⟩ = .ok c' ∧
      Table.Rel (Renamed Scheme.rename) (c.schemes.without item.boundName?.toList)
        (c'.schemes.without item.boundName?.toList) ∧
      Option.Rel (Renamed Ty.rename) c.programType c'.programType ∧
      List.Forall₂ (Renamed fun π e => (e.rename π).closeGap before.length)
        (c.errors.filter (·.slot? ≠ some before.length)) c'.errors ∧
      (c.errors.filter (·.slot? = some before.length)).length ≤ 1 := by
  obtain ⟨hbefore, hrest⟩ := List.forall_mem_append.1 hplace.statements
  obtain ⟨hitem, hafter⟩ := List.forall_mem_cons.1 hrest
  have hr := Rules.proper_standard extraTypes
  obtain ⟨c, c', hc, hc', h⟩ := Program.check_around extraTypes seed file l [item] []
    item.boundName?.toList (fun x => item.boundName? = some x) hbefore
    (List.forall_mem_singleton.2 hitem) nofun hafter hplace.result (by simp) (by simp)
    (fun x hx hname => hunused x hname hx) fun hstage hrun hrun' x hx => by
      obtain ⟨report, hinspect⟩ := Check.inspect_of_reports hrun
      cases hrun'
      exact ((Check.inspect_entered hr hstage hinspect).2.get? hx).symm
  rw [List.append_nil] at hc'
  rw [List.append_assoc, List.singleton_append] at hc
  obtain ⟨front, row, row', back, back', count, herr, herr', hfront, hrow, hlength, -, hlength',
    hback⟩ := h.errors
  obtain rfl : row' = [] := List.length_eq_zero_iff.1 (Nat.le_zero.1 hlength')
  obtain ⟨hothers, hown⟩ := filter_slot hfront hrow (TypeError.slots_of_rows hback).1
  rw [List.append_nil] at herr'
  refine ⟨c, c', hc, hc', h.schemes, h.programType, ?_, ?_⟩
  · rw [herr, hothers, herr']
    refine List.rel_append (hfront.imp fun e e' he => he.closeGap fun i hi => ?_)
      (hback.imp fun e e' he => he.closeGap fun i _ => ?_)
    · rw [if_neg (by omega)]
    · rw [List.length_singleton, List.length_nil, if_pos (by omega)]
      omega
  · rw [herr, hown]
    exact hlength

/-- `let id = \x -> x;` -/
def identityItem : Term :=
  .letBinding "id" (.lambda [⟨"x", none, none⟩] (.name "x" none) none) none none

theorem isStatement_identityItem : identityItem.IsStatement := .letBinding (.lambda .name)

/-- `def sign(y : number) : bool` with the given body -/
def signItem (body : Term) : Term :=
  .definition "sign" [⟨"y", some (.named "number" none), none⟩] (some (.named "bool" none)) body
    none

/-- `{ y }` -/
def wrongBody : Term := .block [] (some (.name "y" none)) none

theorem isStatement_signItem_wrongBody : (signItem wrongBody).IsStatement :=
  .definition (.block nofun .name)

/-- `let b = id(true);` -/
def truthItem : Term :=
  .letBinding "b" (.call (.name "id" none) [.boolean true none] none) none none

theorem isStatement_truthItem : truthItem.IsStatement :=
  .letBinding (.call .name (List.forall_mem_singleton.2 .boolean))

/-- `b + 1` -/
def brokenSum : Term := .binary (.name "b" none) "+" (.number 1 none) none

/-- A definition that fails and is recovered, before an item that uses the first one and a last
expression that is wrong. -/
theorem an_item_matters_only_where_its_name_is_used_after_a_failure :
    Program.InPlace
      ⟨[identityItem] ++ signItem wrongBody :: [truthItem], some brokenSum, "", none⟩ ∧
    (∀ x, (signItem wrongBody).boundName? = some x →
      x ∉ Term.identifiersAll ([truthItem] ++ [brokenSum])) ∧
    answer? (Infer.check (.standard []) (signItem wrongBody) Table.empty [1] (.start 1)) = none ∧
    ∃ c c',
      Program.check ⟨[identityItem] ++ signItem wrongBody :: [truthItem], some brokenSum, "", none⟩
        ⟨[], true, 0, Table.empty⟩ = .ok c ∧
      Program.check ⟨[identityItem] ++ [truthItem], some brokenSum, "", none⟩
        ⟨[], true, 0, Table.empty⟩ = .ok c' ∧
      c'.schemes.keys = ["id", "b"] ∧ c'.errors.map TypeError.slot? = [some 2] ∧
      Table.Rel (Renamed Scheme.rename) (c.schemes.without ["sign"])
        (c'.schemes.without ["sign"]) ∧
      Option.Rel (Renamed Ty.rename) c.programType c'.programType ∧
      List.Forall₂ (Renamed fun π e => (e.rename π).closeGap 1)
        (c.errors.filter (·.slot? ≠ some 1)) c'.errors ∧
      (c.errors.filter (·.slot? = some 1)).length ≤ 1 := by
  have hplace : Program.InPlace
      ⟨[identityItem] ++ signItem wrongBody :: [truthItem], some brokenSum, "", none⟩ := by
    refine ⟨fun e he => ?_, fun e he => ?_⟩
    · simp only [List.cons_append, List.nil_append, List.mem_cons, List.not_mem_nil,
        or_false] at he
      rcases he with rfl | rfl | rfl
      · exact isStatement_identityItem
      · exact isStatement_signItem_wrongBody
      · exact isStatement_truthItem
    · obtain rfl := Option.some.inj he
      exact .binary .name .number
  have hunused : ∀ x, (signItem wrongBody).boundName? = some x →
      x ∉ Term.identifiersAll ([truthItem] ++ [brokenSum]) := by
    rintro x hx
    obtain rfl := Option.some.inj hx
    decide
  have hrun : (Program.check ⟨[identityItem] ++ [truthItem], some brokenSum, "", none⟩
      ⟨[], true, 0, Table.empty⟩).toOption.map (fun c =>
        (c.schemes.keys, c.errors.map TypeError.slot?)) = some (["id", "b"], [some 2]) := by
    cbv
  obtain ⟨c, c', hc, hc', hsame⟩ := an_item_matters_only_where_its_name_is_used [] 0
    [identityItem] (signItem wrongBody) [truthItem] (some brokenSum) "" none hplace hunused
  rw [hc'] at hrun
  obtain ⟨hkeys, hslots⟩ := Prod.mk.inj (Option.some.inj hrun)
  exact ⟨hplace, hunused, by cbv, c, c', hc, hc', hkeys, hslots, hsame⟩

/-! ## Definitions whose types are all written out -/

namespace TypeExpr

mutual

/-- No quoted name stands in an annotation. -/
def plain : TypeExpr → Bool
  | named _ _ => true
  | quoted _ _ => false
  | arrow params result _ => plainAll params && result.plain

/-- No quoted name stands in annotations. -/
def plainAll : List TypeExpr → Bool
  | [] => true
  | t :: more => t.plain && plainAll more

end

end TypeExpr

/-- The types of the parameters and of the result of a function are all written out, without quoted
names. -/
structure WrittenOut (params : List Param) (returns : Option TypeExpr) : Prop where
  params : ∀ param ∈ params, ∃ t, param.ascription = some t ∧ t.plain = true
  returns : ∃ t, returns = some t ∧ t.plain = true

/-- Reading always comes to the one thing that can be meant, or it always fails and nothing can be
meant. -/
def Naming.Definite {α : Type} (step : Naming.Step α) (Means : (String → Ty) → α → Prop) : Prop :=
  (∃ a, (∀ names a', Means names a' → a' = a) ∧ ∀ s, ∃ s', step s = .ok a s') ∨
    (∀ s, ∃ e s', step s = .error e s') ∧ ∀ names a, ¬ Means names a

/-- Two readings one after the other, where a meaning of both is a meaning of each. -/
theorem Naming.Definite.bind₂ {α β γ : Type} {x : Naming.Step α} {y : Naming.Step β}
    {P : (String → Ty) → α → Prop} {Q : (String → Ty) → β → Prop}
    {R : (String → Ty) → γ → Prop} (hx : Definite x P) (hy : Definite y Q) {f : α → β → γ}
    (hR : ∀ names c, R names c → ∃ a b, P names a ∧ Q names b ∧ c = f a b) :
    Definite (do let a ← x; let b ← y; pure (f a b)) R := by
  rcases hx with ⟨a, ha, hx⟩ | ⟨hx, hno⟩
  · rcases hy with ⟨b, hb, hy⟩ | ⟨hy, hno⟩
    · refine .inl ⟨f a b, fun names c hc => ?_, fun s => ?_⟩
      · obtain ⟨a', b', hpa, hqb, rfl⟩ := hR names c hc
        rw [ha names a' hpa, hb names b' hqb]
      · obtain ⟨s₁, h₁⟩ := hx s
        obtain ⟨s₂, h₂⟩ := hy s₁
        exact ⟨s₂, by rw [bind_of_ok h₁, bind_of_ok h₂]; rfl⟩
    · refine .inr ⟨fun s => ?_, fun names c hc => ?_⟩
      · obtain ⟨s₁, h₁⟩ := hx s
        obtain ⟨e, s₂, h₂⟩ := hy s₁
        exact ⟨e, s₂, by rw [bind_of_ok h₁, bind_of_error h₂]⟩
      · obtain ⟨_, b, -, hqb, -⟩ := hR names c hc
        exact hno names b hqb
  · refine .inr ⟨fun s => ?_, fun names c hc => ?_⟩
    · obtain ⟨e, s₁, h₁⟩ := hx s
      exact ⟨e, s₁, by rw [bind_of_error h₁]⟩
    · obtain ⟨a, _, hpa, -⟩ := hR names c hc
      exact hno names a hpa

section

variable {baseTypes : List String}

mutual

theorem TypeExpr.definite_resolve (written : TypeExpr) (h : written.plain = true)
    (position : Position) :
    Naming.Definite (written.resolve baseTypes position) (written.Means baseTypes) := by
  match written with
  | .named name l =>
    unfold resolve
    by_cases hn : name ∈ baseTypes
    · rw [if_pos hn]
      refine .inl ⟨.con name, fun names t ht => ?_, fun s => ⟨s, rfl⟩⟩
      cases ht
      rfl
    · rw [if_neg hn]
      refine .inr ⟨fun s => ⟨_, s, rfl⟩, fun names t ht => ?_⟩
      cases ht
      exact hn ‹_›
  | .arrow params result l =>
    obtain ⟨hp, hr⟩ := Bool.and_eq_true_iff.1 h
    unfold resolve
    refine (TypeExpr.definite_resolveAll params hp position 0).bind₂
      (TypeExpr.definite_resolve result hr _) fun names t ht => ?_
    cases ht with
    | arrow hps hr => exact ⟨_, _, hps, hr, rfl⟩

theorem TypeExpr.definite_resolveAll (written : List TypeExpr)
    (h : TypeExpr.plainAll written = true) (position : Position) (slot : Nat) :
    Naming.Definite (TypeExpr.resolveAll baseTypes written position slot)
      fun names => TypeExpr.MeanAll baseTypes names written := by
  match written with
  | [] =>
    unfold resolveAll
    refine .inl ⟨[], fun names ts hts => ?_, fun s => ⟨s, rfl⟩⟩
    cases hts
    rfl
  | t :: more =>
    obtain ⟨ht, hmore⟩ := Bool.and_eq_true_iff.1 h
    unfold resolveAll
    refine (TypeExpr.definite_resolve t ht _).bind₂
      (TypeExpr.definite_resolveAll more hmore position (slot + 1)) fun names ts hts => ?_
    cases hts with
    | cons ht hmore => exact ⟨_, _, ht, hmore, rfl⟩

end

theorem TypeExpr.definite_resolveOption {ascription : Option TypeExpr}
    (h : ∃ t, ascription = some t ∧ t.plain = true) (position : Position) :
    Naming.Definite (TypeExpr.resolveOption baseTypes ascription position)
      fun names => TypeExpr.Allows baseTypes names ascription := by
  obtain ⟨written, rfl, hplain⟩ := h
  have hresolve : Naming.Definite (TypeExpr.resolve baseTypes written position) _ :=
    TypeExpr.definite_resolve written hplain position
  exact hresolve.imp (fun ⟨t, ht, hrun⟩ => ⟨t, fun names u hu => ht names u (hu written rfl), hrun⟩)
    fun ⟨hrun, hno⟩ => ⟨hrun, fun names u hu => hno names u (hu written rfl)⟩

theorem Param.definite_resolveAll {params : List Param}
    (h : ∀ param ∈ params, ∃ t, param.ascription = some t ∧ t.plain = true) (position : Position)
    (slot : Nat) :
    Naming.Definite (Param.resolveAll baseTypes params position slot)
      fun names => Param.Allow baseTypes names params := by
  induction params generalizing slot with
  | nil =>
    refine .inl ⟨[], fun names ts hts => ?_, fun s => ⟨s, rfl⟩⟩
    cases hts
    rfl
  | cons param more ih =>
    obtain ⟨hparam, hmore⟩ := List.forall_mem_cons.1 h
    unfold resolveAll
    refine (TypeExpr.definite_resolveOption hparam _).bind₂ (ih hmore (slot + 1))
      fun names ts hts => ?_
    cases hts with
    | cons ht hmore => exact ⟨_, _, ht, hmore, rfl⟩

theorem definite_signature {params : List Param} {returns : Option TypeExpr}
    (h : WrittenOut params returns) (position : Position) :
    Naming.Definite (signature baseTypes params returns position) fun names answer =>
      Param.Allow baseTypes names params answer.1 ∧
        TypeExpr.Allows baseTypes names returns answer.2 :=
  (Param.definite_resolveAll h.params position 0).bind₂
    (TypeExpr.definite_resolveOption h.returns _) fun _ answer ha =>
      ⟨answer.1, answer.2, ha.1, ha.2, rfl⟩

end

/-- A definition whose types are all written out leaves the same names bound, whatever its body is
and whether it passes or fails. -/
theorem Check.env_of_writtenOut {rules : Rules} (hr : rules.Proper) {stage : Check.Stage}
    (h : stage.Settled) (f : String) {params : List Param} {returns : Option TypeExpr}
    (hwritten : WrittenOut params returns) (slot : Nat) (l : Option Location) :
    ∃ env, ∀ body report stage',
      Check.inspect rules true (.definition f params returns body l) slot stage =
        .ok (report, stage') → stage'.env = env := by
  -- what passes can be derived, and what fails is recovered, from the same reading
  have hbinds : ∀ {body s env after}, Infer.check rules (.definition f params returns body l)
      stage.env [slot] (.start stage.next) = .ok (s, env) after →
      ∃ names types t, Param.Allow rules.baseTypes names params types ∧
        TypeExpr.Allows rules.baseTypes names returns t ∧
        env = stage.env.insert f (stage.env.generalize (.fn types t)) := by
    intro body s env after hrun
    have hp := (Infer.passes hr (.definition f params returns body l) stage.env [slot] stage.next
      h.below).of_ok rfl hrun
    have hb : Binds rules stage.env (.definition f params returns body l) env :=
      hp.of_closed h.closed
    cases hb with
    | definition names hallow hreturns _ => exact ⟨names, _, _, hallow, hreturns, rfl⟩
  have hsignature : Naming.Definite (signature rules.baseTypes params returns [slot]) _ :=
    definite_signature hwritten [slot]
  rcases hsignature with
    ⟨⟨types, t⟩, hmeant, hread⟩ | ⟨hread, hnothing⟩
  · refine ⟨stage.env.insert f (stage.env.generalize (.fn types t)),
      fun body report stage' hinspect => ?_⟩
    rcases Check.inspect_cases hinspect with ⟨s, env, after, _, hrun, -, rfl⟩ |
      ⟨error, after, -, -, rfl⟩
    · obtain ⟨names, types', t', hallow, hreturns, rfl⟩ := hbinds hrun
      obtain ⟨rfl, rfl⟩ := Prod.mk.inj (hmeant names (types', t') ⟨hallow, hreturns⟩)
      rfl
    · obtain ⟨naming, hread⟩ := hread ⟨after.next, Table.empty⟩
      simp only [if_true, Check.recover, Check.declared?]
      rw [bind_of_ok hread]
      rfl
  · refine ⟨stage.env, fun body report stage' hinspect => ?_⟩
    rcases Check.inspect_cases hinspect with ⟨s, env, after, _, hrun, -, rfl⟩ |
      ⟨error, after, -, -, rfl⟩
    · obtain ⟨names, types', t', hallow, hreturns, rfl⟩ := hbinds hrun
      exact absurd ⟨hallow, hreturns⟩ (hnothing names (types', t'))
    · obtain ⟨e, naming, hread⟩ := hread ⟨after.next, Table.empty⟩
      simp only [if_true, Check.recover, Check.declared?]
      rw [bind_of_error hread]

theorem TypeError.InRows.renamed {slot count : Nat} {e e' : TypeError}
    (h : e.InRows slot slot count e') : Renamed TypeError.rename e e' := by
  obtain ⟨i, -, π, hπ, he⟩ := h
  exact ⟨π, hπ, he.eq⟩

/-- Another body for a top-level definition whose types are all written out changes nothing but what
is said of that definition: whether the one body or the other passes or fails, all other names have
the same schemes, the program has the same type and all other items the same errors, up to the
numbers of variables. -/
theorem the_body_of_a_written_out_definition_matters_only_to_itself (extraTypes : List String)
    (seed : Int) (before after : List Term) (f : String) (params : List Param)
    (returns : Option TypeExpr) (body body' : Term) (result : Option Term) (file : String)
    (l l' : Option Location) (hwritten : WrittenOut params returns)
    (hplace : Program.InPlace
      ⟨before ++ .definition f params returns body l :: after, result, file, l'⟩)
    (hplace' : Program.InPlace
      ⟨before ++ .definition f params returns body' l :: after, result, file, l'⟩) :
    ∃ c c',
      Program.check ⟨before ++ .definition f params returns body l :: after, result, file, l'⟩
        ⟨extraTypes, true, seed, Table.empty⟩ = .ok c ∧
      Program.check ⟨before ++ .definition f params returns body' l :: after, result, file, l'⟩
        ⟨extraTypes, true, seed, Table.empty⟩ = .ok c' ∧
      Table.Rel (Renamed Scheme.rename) (c.schemes.without [f]) (c'.schemes.without [f]) ∧
      Option.Rel (Renamed Ty.rename) c.programType c'.programType ∧
      List.Forall₂ (Renamed TypeError.rename)
        (c.errors.filter (·.slot? ≠ some before.length))
        (c'.errors.filter (·.slot? ≠ some before.length)) := by
  obtain ⟨hbefore, hrest⟩ := List.forall_mem_append.1 hplace.statements
  obtain ⟨hitem, hafter⟩ := List.forall_mem_cons.1 hrest
  obtain ⟨hitem', -⟩ := List.forall_mem_cons.1 (List.forall_mem_append.1 hplace'.statements).2
  have hr := Rules.proper_standard extraTypes
  obtain ⟨c, c', hc, hc', h⟩ := Program.check_around extraTypes seed file l'
    [.definition f params returns body l] [.definition f params returns body' l] [f]
    (fun _ => False) hbefore
    (List.forall_mem_singleton.2 hitem) (List.forall_mem_singleton.2 hitem') hafter hplace.result
    (by simp [Term.boundName?]) nofun (fun _ _ => id) fun hstage hrun hrun' x _ => by
      obtain ⟨report, hinspect⟩ := Check.inspect_of_reports hrun
      obtain ⟨report', hinspect'⟩ := Check.inspect_of_reports hrun'
      obtain ⟨env, henv⟩ := Check.env_of_writtenOut hr hstage f hwritten before.length l
      rw [henv _ _ _ hinspect, henv _ _ _ hinspect']
  rw [List.append_assoc, List.singleton_append] at hc hc'
  obtain ⟨front, row, row', back, back', count, herr, herr', hfront, hrow, -, hrow', -, hback⟩ :=
    h.errors
  have hothers := (filter_slot hfront hrow (TypeError.slots_of_rows hback).1).1
  have hothers' := (filter_slot hfront hrow' (TypeError.slots_of_rows hback).2).1
  refine ⟨c, c', hc, hc', h.schemes, h.programType, ?_⟩
  rw [herr, hothers, herr', hothers']
  exact List.rel_append (hfront.imp fun _ _ he => he.renamed) (hback.imp fun _ _ he => he.renamed)

/-- `{ y < 0 }` -/
def rightBody : Term :=
  .block [] (some (.binary (.name "y" none) "<" (.number 0 none) none)) none

/-- `let b = sign(id(1));` -/
def signedItem : Term :=
  .letBinding "b" (.call (.name "sign" none) [.call (.name "id" none) [.number 1 none] none] none)
    none none

theorem inPlace_signProgram {body : Term} (h : (signItem body).IsStatement) :
    Program.InPlace
      ⟨[identityItem] ++ signItem body :: [signedItem], some brokenSum, "", none⟩ := by
  refine ⟨fun e he => ?_, fun e he => ?_⟩
  · simp only [List.cons_append, List.nil_append, List.mem_cons, List.not_mem_nil, or_false] at he
    rcases he with rfl | rfl | rfl
    · exact isStatement_identityItem
    · exact h
    · exact .letBinding (.call .name (List.forall_mem_singleton.2
        (.call .name (List.forall_mem_singleton.2 .number))))
  · obtain rfl := Option.some.inj he
    exact .binary .name .number

/-- A body that fails and one that passes, and a use of the definition behind it. -/
theorem the_body_of_a_written_out_definition_matters_only_to_itself_after_a_failure :
    WrittenOut [⟨"y", some (.named "number" none), none⟩] (some (.named "bool" none)) ∧
    answer? (Infer.check (.standard []) (signItem wrongBody) Table.empty [1] (.start 1)) = none ∧
    ∃ c c',
      Program.check ⟨[identityItem] ++ signItem wrongBody :: [signedItem], some brokenSum, "", none⟩
        ⟨[], true, 0, Table.empty⟩ = .ok c ∧
      Program.check ⟨[identityItem] ++ signItem rightBody :: [signedItem], some brokenSum, "", none⟩
        ⟨[], true, 0, Table.empty⟩ = .ok c' ∧
      c'.schemes.keys = ["id", "sign", "b"] ∧ c'.errors.map TypeError.slot? = [some 3] ∧
      Table.Rel (Renamed Scheme.rename) (c.schemes.without ["sign"])
        (c'.schemes.without ["sign"]) ∧
      Option.Rel (Renamed Ty.rename) c.programType c'.programType ∧
      List.Forall₂ (Renamed TypeError.rename) (c.errors.filter (·.slot? ≠ some 1))
        (c'.errors.filter (·.slot? ≠ some 1)) := by
  have hwritten : WrittenOut [⟨"y", some (.named "number" none), none⟩]
      (some (.named "bool" none)) :=
    ⟨List.forall_mem_singleton.2 ⟨_, rfl, rfl⟩, _, rfl, rfl⟩
  have hright : (signItem rightBody).IsStatement :=
    .definition (.block nofun (.binary .name .number))
  have hrun : (Program.check
      ⟨[identityItem] ++ signItem rightBody :: [signedItem], some brokenSum, "", none⟩
      ⟨[], true, 0, Table.empty⟩).toOption.map (fun c =>
        (c.schemes.keys, c.errors.map TypeError.slot?)) = some (["id", "sign", "b"], [some 3]) := by
    cbv
  have hsame := the_body_of_a_written_out_definition_matters_only_to_itself [] 0 [identityItem]
    [signedItem] "sign" [⟨"y", some (.named "number" none), none⟩] (some (.named "bool" none))
    wrongBody rightBody (some brokenSum) "" none none hwritten
    (inPlace_signProgram isStatement_signItem_wrongBody) (inPlace_signProgram hright)
  rw [← signItem, ← signItem] at hsame
  obtain ⟨c, c', hc, hc', hsame⟩ := hsame
  rw [hc'] at hrun
  obtain ⟨hkeys, hslots⟩ := Prod.mk.inj (Option.some.inj hrun)
  exact ⟨hwritten, by cbv, c, c', hc, hc', hkeys, hslots, hsame⟩

end LetPoly
