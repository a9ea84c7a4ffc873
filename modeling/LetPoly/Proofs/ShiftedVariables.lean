-- The laws of the first variable. With which variable a check begins shows in nothing but
-- the numbers of variables: all of them are shifted by the same. That holds also where the
-- check draws the variable that the operators on all types bind.
import LetPoly.Proofs.SettledStages

namespace LetPoly

/-- A variable shifted by the given number. -/
def shifted (k v : Int) : Int := v + k

variable {k : Int}

/-! ## What a shift does to reports -/

/-- All variables are shifted by the same, and nothing else differs. -/
def Twinning.shifting (k : Int) : Twinning := ⟨some k, fun _ => False⟩

theorem Twinning.Admits.map_eq {p : Pairing} (h : (Twinning.shifting k).Admits p) :
    p.map = shifted k :=
  funext (h k rfl)

theorem Scheme.Alike.eq_shifted {p : Pairing} {scheme other : Scheme}
    (hp : (Twinning.shifting k).Admits p) (h : Scheme.Alike (.shifting k) p scheme other) :
    other = scheme.rename (shifted k) := by
  cases h with
  | drawn hm => rw [← hp.map_eq]; exact hm.eq
  | closed hnone => cases hnone

theorem Pairing.Entries.eq_shifted {p : Pairing} {root : Position} {a b : Site × Ty}
    (hp : (Twinning.shifting k).Admits p) (h : p.Entries root root a b) :
    b = (a.1, a.2.rename (shifted k)) := by
  rw [← hp.map_eq]
  exact Prod.ext h.1.eq h.2.eq

theorem TypeError.Alike.eq_shifted {p : Pairing} {root : Position} {e e' : TypeError}
    (hp : (Twinning.shifting k).Admits p) (h : e.Alike root root p.map e') :
    e' = e.rename (shifted k) := by
  rw [← hp.map_eq]
  exact h.eq

theorem eq_map_of_forall₂ {α β : Type} {f : α → β} {as : List α} {bs : List β}
    (h : List.Forall₂ (fun a b => b = f a) as bs) : bs = as.map f := by
  have hmap := map_eq_of_forall₂ h (f := f) (g := id) fun _ _ hab => hab
  rwa [List.map_id] at hmap

theorem Table.eq_map_of_rel {κ α β : Type} {f : α → β} {t : Table κ α} {u : Table κ β}
    (h : Table.Rel (fun a b => b = f a) t u) : u = t.map f := by
  exact Table.ext (eq_map_of_forall₂ (List.Forall₂.imp
    (fun _ _ hab => Prod.ext hab.1.symm hab.2) h))

/-- What is known after a check, with all variables shifted. -/
structure Checked.Shifted (k : Int) (c c' : Checked) : Prop where
  schemes : c'.schemes = c.schemes.map (Scheme.rename (shifted k))
  errors : c'.errors = c.errors.map (TypeError.rename (shifted k))
  types : c'.types = c.types.map fun entry => (entry.1, entry.2.rename (shifted k))
  programType : c'.programType = c.programType.map (Ty.rename (shifted k))

theorem Checked.shifted_ofReports {rs rs' : List Report}
    (h : List.Forall₂ (fun r r' => ∃ i, Report.Alike (.shifting k) [i] [i] r r') rs rs')
    {q : Pairing} (hq : (Twinning.shifting k).Admits q) {t t' : Option Ty}
    (ht : Option.Rel q.Matches t t') :
    (Checked.ofReports rs t).Shifted k (.ofReports rs' t') := by
  refine ⟨?_, ?_, ?_, ?_⟩
  · have hentries := Report.entries_alike [] (fun _ => False.elim)
      (fun _ _ _ hp hs => hs.eq_shifted hp) (h.imp fun _ _ ⟨i, h⟩ => ⟨[i], [i], h⟩) .empty .empty
      Table.rel_empty
    rw [Table.without_nil, Table.without_nil] at hentries
    exact Table.eq_map_of_rel hentries
  · refine eq_map_of_forall₂ (List.rel_filterMap (fun r r' hr => ?_) h)
    obtain ⟨i, hr⟩ := hr
    exact hr.rel_error? fun p e e' hp he => he.eq_shifted hp
  · refine eq_map_of_forall₂ (List.rel_flatMap h fun r r' hr => ?_)
    obtain ⟨i, hr⟩ := hr
    exact hr.rel_types fun p a b hp hab => hab.eq_shifted hp
  · cases ht with
    | none => rfl
    | some ht =>
      rw [← hq.map_eq]
      exact congrArg some ht.eq

/-! ## Checks that begin with different variables -/

theorem Check.alike_shifting (s k : Int) :
    Check.Stage.Alike (.shifting k) (.between s (s + k)) ⟨Table.empty, s⟩ ⟨Table.empty, s + k⟩ := by
  refine ⟨fun x => .inl .none, rfl, rfl, fun k' hk v => ?_⟩
  obtain rfl := Option.some.inj hk
  show v - s + (s + k) = v + k
  omega

/-- Whatever variable a check begins with, and whether it goes on after errors or not: to begin with
the one `k` further on shifts all variables in the schemes, in the types of the nodes and of the
program and in the errors by `k`, and changes nothing else. So the description of the program is the
same. -/
theorem the_first_variable_only_shifts_the_others (p : Program) (h : p.InPlace)
    (extraTypes : List String) (resilient : Bool) (s k : Int) :
    ∃ c c', p.check ⟨extraTypes, resilient, s, Table.empty⟩ = .ok c ∧
      p.check ⟨extraTypes, resilient, s + k, Table.empty⟩ = .ok c' ∧
      c'.schemes = c.schemes.map (Scheme.rename (shifted k)) ∧
      c'.programType = c.programType.map (Ty.rename (shifted k)) ∧
      c'.types = c.types.map (fun entry => (entry.1, entry.2.rename (shifted k))) ∧
      c'.errors = c.errors.map (TypeError.rename (shifted k)) ∧
      c'.describe p = c.describe p := by
  obtain ⟨rs, t, hrun⟩ := p.exists_reports h extraTypes resilient s
  obtain ⟨rs', t', hrun'⟩ := p.exists_reports h extraTypes resilient (s + k)
  have halike := p.reports_alike extraTypes resilient (Check.alike_shifting s k) fun _ => id
  rw [hrun, hrun'] at halike
  cases halike with
  | ok hab =>
    obtain ⟨hrs, q, hq, ht⟩ := hab
    have hshifted := Checked.shifted_ofReports hrs hq ht
    refine ⟨.ofReports rs t, .ofReports rs' t', Program.check_of_reports hrun,
      Program.check_of_reports hrun', hshifted.schemes, hshifted.programType, hshifted.types,
      hshifted.errors, ?_⟩
    exact Checked.Alike.describe_eq (.ofReports (fun _ => id) hrs ht) p

/-- `let same = \x, y -> x == y; same(1, same)` -/
def sameProgram : Program where
  statements := [.letBinding "same" (.lambda [⟨"x", none, none⟩, ⟨"y", none, none⟩]
    (.binary (.name "x" none) "==" (.name "y" none) none) none) none none]
  result := some (.call (.name "same" none) [.number 1 none, .name "same" none] none)
  file := ""
  location := none

/-- A check that begins with `t-3` draws `t-1` for the variable that the comparison binds, which is
`t-1` itself; one that begins with `t4` draws `t6`. -/
theorem the_first_variable_only_shifts_the_others_past_a_bound_one :
    sameProgram.InPlace ∧
    ∃ c c', sameProgram.check ⟨[], true, -3, Table.empty⟩ = .ok c ∧
      sameProgram.check ⟨[], true, -3 + 7, Table.empty⟩ = .ok c' ∧
      c.schemes = .ofList [("same", .quantify [-2] (.fn [.var (-2), .var (-2)] .bool))] ∧
      c.errors.map (·.reason) =
        [.clash (.mismatch .number (.fn [.var 4, .var 4] .bool))] ∧
      c'.schemes = c.schemes.map (Scheme.rename (shifted 7)) ∧
      c'.programType = c.programType.map (Ty.rename (shifted 7)) ∧
      c'.types = c.types.map (fun entry => (entry.1, entry.2.rename (shifted 7))) ∧
      c'.errors = c.errors.map (TypeError.rename (shifted 7)) ∧
      c'.describe sameProgram = c.describe sameProgram := by
  have hplace : sameProgram.InPlace := by
    refine ⟨List.forall_mem_singleton.2 (.letBinding (.lambda (.binary .name .name))),
      fun e he => ?_⟩
    obtain rfl := Option.some.inj he
    refine .call .name fun e he => ?_
    simp only [List.mem_cons, List.not_mem_nil, or_false] at he
    rcases he with rfl | rfl
    · exact .number
    · exact .name
  have hrun : (sameProgram.check ⟨[], true, -3, Table.empty⟩).toOption.map (fun c =>
      (c.schemes, c.errors.map (·.reason))) =
      some (.ofList [("same", .quantify [-2] (.fn [.var (-2), .var (-2)] .bool))],
        [.clash (.mismatch .number (.fn [.var 4, .var 4] .bool))]) := by
    cbv
  obtain ⟨c, c', hc, hc', hsame⟩ :=
    the_first_variable_only_shifts_the_others sameProgram hplace [] true (-3) 7
  rw [hc] at hrun
  obtain ⟨hschemes, herrors⟩ := Prod.mk.inj (Option.some.inj hrun)
  exact ⟨hplace, c, c', hc, hc', hschemes, herrors, hsame⟩

end LetPoly
