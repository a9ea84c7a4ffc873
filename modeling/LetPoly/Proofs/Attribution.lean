-- Which part of a program an error belongs to, and which node of that part. A check that
-- goes on after errors finds one error for each part that fails, in order, and puts it
-- down to a node of that very part. What the unifier says of two types that clash stays
-- the cause of an error about branches or about a body, and names no node of its own.
import LetPoly.Proofs.BlamedNodes
import LetPoly.Proofs.ProgramParts

namespace LetPoly

/-! ## Terms at positions -/

namespace Program

/-- The expression or statement at a position. -/
def termAt? (p : Program) : Position → Option Term
  | [] => none
  | [slot] => p.parts[slot]?
  | slot :: outer :: position => (p.termAt? (outer :: position)).bind (·.child? slot)

variable {p : Program} {slot : Nat} {part : Term}

theorem termAt?_child {position : Position} {e e' : Term} (h : p.termAt? position = some e)
    (hc : e.child? slot = some e') : p.termAt? (slot :: position) = some e' := by
  cases position with
  | nil => cases h
  | cons outer position => rw [termAt?, h, Option.bind_some, hc]

/-- The nodes of a part, among the terms of the program. -/
def frame (p : Program) (slot : Nat) (part : Term) : Frame :=
  ⟨part.walk [slot], fun position e => p.termAt? position = some e, termAt?_child⟩

theorem holds_part (hpart : p.parts[slot]? = some part) : (p.frame slot part).Holds part [slot] :=
  ⟨hpart, fun _ hv => hv⟩

/-! ## Errors of parts -/

theorem error_of_ending? {α : Type} {r : EStateM.Result InferFailure InferState α}
    {error : TypeError} {after : InferState} (h : Infer.ending? r = some (some error, after)) :
    r = .error (.typeError error) after := by
  cases r with
  | ok a s => cases h
  | error failure s =>
    cases failure with
    | typeError e =>
      cases h
      rfl
    | cyclic | notExpression _ | notStatement _ | malformed _ _ => cases h

/-- The error of a part is put down to a node of the part. -/
theorem attributed_of_endingBy? {rules : Rules} {seed : Int} {prelude : Env} {error : TypeError}
    {after : InferState} (hpart : p.parts[slot]? = some part)
    (hend : p.endingBy? rules seed prelude slot = some (some error, after)) :
    (p.frame slot part).Attributed after.types error := by
  have hholds := holds_part hpart
  unfold endingBy? at hend
  simp only [hpart, Option.bind_eq_bind, Option.bind_some] at hend
  obtain ⟨stage, -, hend⟩ := Option.bind_eq_some_iff.1 hend
  split at hend
  · exact (Infer.tracesCheck _ _ part _ _ [] hholds).of_error (error_of_ending? hend)
  · exact (Infer.tracesInfer _ _ part _ _ [] hholds).of_error (error_of_ending? hend)

end Program

/-! ## The nodes to blame -/

namespace Program

/-- At the site stands a conditional, the types of whose branches are on record, and once the
substitution so far is applied there is no way to make them one. -/
def BranchesDisagree (p : Program) (record : List (Site × Ty)) (site : Site)
    (thenType elseType : Ty) (cause : Clash) : Prop :=
  ∃ condition thenBranch elseBranch l s t,
    p.termAt? site.position = some (.conditional condition thenBranch elseBranch l) ∧
      site = (Term.conditional condition thenBranch elseBranch l).site site.position ∧
      (thenBranch.site (1 :: site.position), t) ∈ record ∧ Subst.expand? s t = some thenType ∧
      (elseBranch.site (2 :: site.position), elseType) ∈ record ∧
      unify thenType elseType = .error cause ∧ ∀ f, thenType.subst f ≠ elseType.subst f

/-- The site is the result of a definition's body, or the definition where the body has none. The
type of the body is on record, and there is no way to make it one with the declared type. -/
def BodyDisagrees (p : Program) (record : List (Site × Ty)) (site : Site) (declared inferred : Ty)
    (cause : Clash) : Prop :=
  ∃ position f params returns statements result l l',
    p.termAt? position = some (.definition f params returns (.block statements result l') l) ∧
      site = (match result with
        | some e => e.site (statements.length :: (params.length + 1) :: position)
        | none => ⟨⟨.definition, l⟩, position⟩) ∧
      (⟨⟨.block, l'⟩, (params.length + 1) :: position⟩, inferred) ∈ record ∧
      unify declared inferred = .error cause ∧ ∀ f, declared.subst f ≠ inferred.subst f

theorem apart_of_unify {a b : Ty} {cause : Clash} (h : unify a b = .error cause) (f : Int → Ty) :
    a.subst f ≠ b.subst f := by
  intro heq
  obtain ⟨s, hs⟩ := exists_unify heq
  rw [h] at hs
  cases hs

variable {p : Program} {slot : Nat} {part : Term} {record : List (Site × Ty)} {error : TypeError}

theorem branches_of_attributed (h : (p.frame slot part).Attributed record error)
    {thenType elseType : Ty} {cause : Clash}
    (hreason : error.reason = .branches thenType elseType cause) {site : Site}
    (hsite : error.site = some site) :
    p.BranchesDisagree record site thenType elseType cause := by
  cases h with
  | branches hholds hthen happly helse hunify =>
    cases hreason
    cases hsite
    exact ⟨_, _, _, _, _, _, hholds.stands, rfl, hthen, happly, helse, hunify,
      apart_of_unify hunify⟩
  | unbound _ | unknownType _ | clash _ _ | returns _ _ _ _ => cases hreason

theorem returns_of_attributed (h : (p.frame slot part).Attributed record error)
    {declared inferred : Ty} {cause : Clash}
    (hreason : error.reason = .returns declared inferred cause) {site : Site}
    (hsite : error.site = some site) : p.BodyDisagrees record site declared inferred cause := by
  cases h with
  | returns hholds hresult hbody hunify =>
    cases hreason
    cases hsite
    unfold Infer.resultSite? at hresult
    split at hresult
    · cases hresult
      exact ⟨_, _, _, _, _, some _, _, _, hholds.stands, rfl, hbody, hunify,
        apart_of_unify hunify⟩
    · cases hresult
      exact ⟨_, _, _, _, _, none, _, _, hholds.stands, rfl, hbody, hunify, apart_of_unify hunify⟩
    · cases hresult
  | unbound _ | unknownType _ | clash _ _ | branches _ _ _ _ _ => cases hreason

end Program

/-- In a check that goes on after errors and starts from a closed prelude, of a program that is
read from a text, whatever the base types are, the errors are those of the parts that fail, one for
each and in order. Each is put down to a node of that very part, at whose location it is reported.
An error about branches falls on the conditional whose branches disagree, and one about a body on
the result of the body, or on the definition where the body has none; what the unifier says is the
cause. -/
theorem every_error_has_its_node_in_the_part_that_fails {source file : String} {p : Program}
    (hread : Program.read source file = .ok p) (baseTypes : List String) (seed : Int)
    {prelude : Env} (hclosed : prelude.Closed) :
    ∃ c, p.checkBy (.withBase baseTypes) true seed prelude = .ok c ∧
      (∀ slot < p.parts.length, ∃ ending,
        p.endingBy? (.withBase baseTypes) seed prelude slot = some ending) ∧
      c.errors = ((List.range p.parts.length).filterMap fun slot =>
        (p.endingBy? (.withBase baseTypes) seed prelude slot).bind (·.1)) ∧
      ∀ (slot : Nat) (part : Term) (error : TypeError) (after : InferState),
        p.parts[slot]? = some part →
        p.endingBy? (.withBase baseTypes) seed prelude slot = some (some error, after) →
          ∃ v ∈ part.walk [slot], error.site = some v.site ∧ error.location = v.site.location ∧
            (∀ thenType elseType cause, error.reason = .branches thenType elseType cause →
              p.BranchesDisagree after.types v.site thenType elseType cause) ∧
            ∀ declared inferred cause, error.reason = .returns declared inferred cause →
              p.BodyDisagrees after.types v.site declared inferred cause := by
  have hr := Rules.proper_withBase baseTypes
  obtain ⟨first, stage, last, t, hfirst, hlast⟩ :=
    Program.exists_reports_of_closed (Program.inPlace_of_read hread) hr seed hclosed
  have hc := Program.checkBy_of_through hfirst hlast
  refine ⟨_, hc, fun slot hslot => Program.exists_endingBy? hr hc hslot, ?_,
    fun slot part error after hpart hend => ?_⟩
  · rw [Checked.errors_ofReports]
    exact Program.errors_of_reports hr hfirst hlast
  · have hattributed := Program.attributed_of_endingBy? hpart hend
    obtain ⟨v, hv, hsite⟩ := hattributed.exists_visit
    refine ⟨v, hv, hsite, by simp [TypeError.location, hsite], fun thenType elseType cause h => ?_,
      fun declared inferred cause h => ?_⟩
    · exact Program.branches_of_attributed hattributed h hsite
    · exact Program.returns_of_attributed hattributed h hsite

/-- A definition whose body has no result. -/
def bareProgram : Program where
  statements := [.definition "g" [] (some (.named "number" (inLineOne 10)))
    (.block [] none (inLineOne 17)) (inLineOne 5)]
  result := none
  file := ""
  location := inLineOne 1

/-- The branches of a last expression disagree, and a definition without a result is to return a
number, the one type that can be written: the first is put down to the conditional, the second to
the definition. -/
theorem every_error_has_its_node_in_the_part_that_fails_twice :
    (Program.read slipSource "" = .ok slipProgram ∧ slipOptions.prelude.Closed ∧
      ∃ c error after,
        slipProgram.checkBy (.withBase Ty.baseNames) true 0 slipOptions.prelude = .ok c ∧
        slipProgram.endingBy? (.withBase Ty.baseNames) 0 slipOptions.prelude 1 =
          some (some error, after) ∧ c.errors = [error] ∧
        slipProgram.BranchesDisagree after.types ⟨⟨.conditional, inLineOne 16⟩, [1]⟩ .number .bool
          (.mismatch .number .bool)) ∧
      Program.read "def g(): number \x7b \x7d" "" = .ok bareProgram ∧
        ∃ c error after,
          bareProgram.checkBy (.withBase ["number"]) true 0 slipOptions.prelude = .ok c ∧
          bareProgram.endingBy? (.withBase ["number"]) 0 slipOptions.prelude 0 =
            some (some error, after) ∧ c.errors = [error] ∧
          bareProgram.BodyDisagrees after.types ⟨⟨.definition, inLineOne 5⟩, [0]⟩ .number .unit
            (.mismatch .number .unit) := by
  have hbare : Program.read "def g(): number \x7b \x7d" "" = .ok bareProgram := by cbv
  have hend : (bareProgram.endingBy? (.withBase ["number"]) 0 slipOptions.prelude 0).map (·.1) =
      some (some (.placed (.returns .number .unit (.mismatch .number .unit))
        ⟨⟨.definition, inLineOne 5⟩, [0]⟩)) := by cbv
  refine ⟨⟨read_slipSource, closed_slipOptions, ?_⟩, hbare, ?_⟩
  · obtain ⟨⟨error?, first⟩, hfirst, rfl⟩ := Option.map_eq_some_iff.1 endAt?_slipItem
    obtain ⟨⟨error?, after⟩, hlast, heq⟩ := Option.map_eq_some_iff.1 endAt?_slip
    obtain ⟨rfl, -⟩ := Prod.mk.inj heq
    obtain ⟨c, hc, -, herrors, hblame⟩ := every_error_has_its_node_in_the_part_that_fails
      read_slipSource Ty.baseNames 0 closed_slipOptions
    obtain ⟨v, -, hsite, -, hbranches, -⟩ := hblame 1 _ _ after rfl hlast
    rw [← Option.some.inj hsite] at hbranches
    refine ⟨c, _, after, hc, hlast, ?_, hbranches _ _ _ rfl⟩
    rw [herrors]
    change [0, 1].filterMap (fun slot => (slipProgram.endAt? slipOptions slot).bind (·.1)) = _
    simp [hfirst, hlast]
  · obtain ⟨⟨error?, after⟩, hlast, rfl⟩ := Option.map_eq_some_iff.1 hend
    obtain ⟨c, hc, -, herrors, hblame⟩ := every_error_has_its_node_in_the_part_that_fails
      hbare ["number"] 0 closed_slipOptions
    obtain ⟨v, -, hsite, -, -, hreturns⟩ := hblame 0 _ _ after rfl hlast
    rw [← Option.some.inj hsite] at hreturns
    refine ⟨c, _, after, hc, hlast, ?_, hreturns _ _ _ rfl⟩
    rw [herrors, show bareProgram.parts.length = 1 from rfl]
    simp [List.range_succ, hlast]

end LetPoly
