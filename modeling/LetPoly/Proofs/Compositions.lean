-- The laws of the substitutions that inference composes. One that comes later speaks of
-- no variable that the earlier one replaces, so the two composed do what they do one
-- after the other. This holds of every composition of a run, those inside unifications
-- among them, and so no substitution of the run leads into a cycle.
import LetPoly.Proofs.OrderlyRuns

namespace LetPoly

/-! ## What unifications do -/

namespace Unify

/-- What is done to solve equations one after the other, on top of what is solved already: that is
applied to both sides, the sides are unified, part by part if they are function types, and what is
found is composed with what was solved before. -/
inductive DoesInTurn : List Equation → Subst → Action → Prop
  | apply {l r : Ty} {rest : List Equation} {s : Subst} :
    DoesInTurn ((l, r) :: rest) s (.applied s [l, r])
  | inside {l r t u : Ty} {ps qs : List Ty} {rest : List Equation} {s : Subst} {action : Action} :
    s.expand? l = some (.fn ps t) → s.expand? r = some (.fn qs u) → ps.length = qs.length →
    DoesInTurn (ps.zip qs ++ [(t, u)]) Subst.empty action → DoesInTurn ((l, r) :: rest) s action
  | compose {l r l' r' : Ty} {rest : List Equation} {s found : Subst} :
    s.expand? l = some l' → s.expand? r = some r' → unify l' r' = .ok found →
    DoesInTurn ((l, r) :: rest) s (.composed found s)
  | after {l r l' r' : Ty} {rest : List Equation} {s found both : Subst} {action : Action} :
    s.expand? l = some l' → s.expand? r = some r' → unify l' r' = .ok found →
    found.compose? s = some both → DoesInTurn rest both action →
    DoesInTurn ((l, r) :: rest) s action

/-- What is done to unify two types: nothing, unless both are function types with as many
parameters. -/
inductive Does : Ty → Ty → Action → Prop
  | parts {t u : Ty} {ps qs : List Ty} {action : Action} : ps.length = qs.length →
    DoesInTurn (ps.zip qs ++ [(t, u)]) Subst.empty action → Does (.fn ps t) (.fn qs u) action

/-- The unifier of two types to which a substitution was applied has none of its variables left. -/
theorem clear_of_unify {s found : Subst} (hs : s.Solved) {l r l' r' : Ty}
    (hl : s.expand? l = some l') (hr : s.expand? r = some r') (hu : unify l' r' = .ok found) :
    found.LeavesAlone s := by
  rw [hs.expand?] at hl hr
  cases hl
  cases hr
  intro v hv
  rcases mem_of_unify hu hv with hv | hv
  · exact hs.not_mem_subst hv
  · exact hs.not_mem_subst hv

theorem orderly_of_doesInTurn {strict : Prop} {eqs : List Equation} {s : Subst} {action : Action}
    (h : DoesInTurn eqs s action) (hs : s.Solved) : action.Orderly strict := by
  induction h with
  | apply => exact ⟨_, hs.expandAll? _⟩
  | inside _ _ _ _ ih => exact ih Subst.solved_empty
  | compose hl hr hu => exact ⟨(found_of_unify hu).solved, hs, clear_of_unify hs hl hr hu⟩
  | after hl hr hu hboth _ ih =>
    obtain ⟨both, heq, hc⟩ :=
      Subst.exists_composed (found_of_unify hu).solved hs (clear_of_unify hs hl hr hu)
    rw [heq] at hboth
    cases hboth
    exact ih hc.solved

theorem orderly_of_does {strict : Prop} {a b : Ty} {action : Action} (h : Does a b action) :
    action.Orderly strict := by
  cases h with
  | parts _ h => exact orderly_of_doesInTurn h Subst.solved_empty

end Unify

/-! ## Runs -/

/-- What a run did: what is on its list, and what the unifications on the list did. -/
def Performed (actions : List Action) (action : Action) : Prop :=
  action ∈ actions ∨ ∃ a b, .unified a b ∈ actions ∧ Unify.Does a b action

/-- Whatever substitution was applied led to an end. Whatever substitution was composed with an
earlier one has none of the variables that the earlier one replaces, and the two composed do what
they do one after the other. -/
structure Disciplined (actions : List Action) : Prop where
  applied : ∀ s types, Performed actions (.applied s types) → ∃ us, s.expandAll? types = some us
  appliedEnv : ∀ s env, Performed actions (.appliedEnv s env) →
    ∃ env', Env.expand? s env = some env'
  composed : ∀ later earlier, Performed actions (.composed later earlier) →
    (∀ v ∈ earlier.keys, v ∉ later.keys ∧ ∀ t ∈ later.values, v ∉ t.leaves) ∧
    ∃ both, later.compose? earlier = some both ∧
      ∀ t, ∃ u w, earlier.expand? t = some u ∧ later.expand? u = some w ∧ both.expand? t = some w

theorem Performed.orderly {strict : Prop} {actions : List Action} {action : Action}
    (h : Performed actions action) (hall : ∀ a ∈ actions, a.Orderly strict) :
    action.Orderly strict := by
  rcases h with h | ⟨a, b, -, h⟩
  · exact hall action h
  · exact Unify.orderly_of_does h

theorem disciplined_of_orderly {strict : Prop} {actions : List Action}
    (hall : ∀ a ∈ actions, a.Orderly strict) : Disciplined actions := by
  refine ⟨fun s types h => h.orderly hall, fun s env h => ?_, fun later earlier h => ?_⟩
  · exact ⟨_, Env.expand?_eq_some (h.orderly hall).1 env⟩
  · obtain ⟨hlater, hearlier, hclear⟩ := h.orderly hall
    obtain ⟨both, heq, hc⟩ := Subst.exists_composed hlater hearlier hclear
    refine ⟨fun v hv => ⟨fun hk => ?_, fun t ht hvt => ?_⟩, both, heq, fun t => ?_⟩
    · exact hclear v (Subst.keys_subset_mentioned hk) hv
    · exact hclear v (Subst.mem_mentioned_of_value ht hvt) hv
    · refine ⟨_, _, hearlier.expand? t, hlater.expand? _, ?_⟩
      rw [hc.solved.expand?, hc.subst]

namespace Infer

/-- What is answered for an expression: a substitution that replaces none of the variables it puts
in, speaks of variables in reach only and changes nothing in the type, whose variables are in reach
too. -/
structure Resolved (env : Env) (start stop : InferState) (s : Subst) (t : Ty) : Prop where
  solved : ∀ v ∈ s.keys, ∀ u ∈ s.values, v ∉ u.leaves
  reach : ∀ v ∈ s.mentioned, Reach env start.next stop.next v
  fixed : s.expand? t = some t
  leaves : ∀ v ∈ t.leaves, Reach env start.next stop.next v

/-- What is answered for a statement: a substitution of the same kind, and an environment of
variables from before the supply. -/
structure Left (env : Env) (start stop : InferState) (s : Subst) (env' : Env) : Prop where
  solved : ∀ v ∈ s.keys, ∀ u ∈ s.values, v ∉ u.leaves
  reach : ∀ v ∈ s.mentioned, Reach env start.next stop.next v
  below : env'.Below stop.next

/-- In an environment of variables from before the supply, inference for any expression and the
check of any statement do nothing with substitutions that is out of order, watched or not: they
come to the same. No substitution leads into a cycle, and the substitutions that are answered are
about variables of the environment and variables drawn in the run. -/
theorem inference_composes_substitutions_in_order (extraTypes : List String) (env : Env)
    (position : Position) (start : InferState) (hb : env.Below start.next) (e : Term) :
    (Watched.outcome (Watched.infer (.standard extraTypes) e env position ⟨start, []⟩) =
        infer (.standard extraTypes) e env position start ∧
      Disciplined
        (Watched.actions (Watched.infer (.standard extraTypes) e env position ⟨start, []⟩)) ∧
      (∀ stop, infer (.standard extraTypes) e env position start ≠ .error .cyclic stop) ∧
      ∀ s t stop, infer (.standard extraTypes) e env position start = .ok (s, t) stop →
        Resolved env start stop s t) ∧
    Watched.outcome (Watched.check (.standard extraTypes) e env position ⟨start, []⟩) =
        check (.standard extraTypes) e env position start ∧
      Disciplined
        (Watched.actions (Watched.check (.standard extraTypes) e env position ⟨start, []⟩)) ∧
      (∀ stop, check (.standard extraTypes) e env position start ≠ .error .cyclic stop) ∧
      ∀ s env' stop, check (.standard extraTypes) e env position start = .ok (s, env') stop →
        Left env start stop s env' := by
  have hr := Rules.proper_standard extraTypes
  have hinfer := Watched.keeps_infer False hr e env position start.next hb.ready
  have hcheck := Watched.keeps_check False hr e env position start.next hb.ready
  have hsettles := hinfer.settles (Watched.shows_infer _ e env position)
  have hsettles' := hcheck.settles (Watched.shows_check _ e env position)
  refine ⟨⟨Watched.shows_infer _ e env position _,
    disciplined_of_orderly (hinfer.orderly start rfl), fun stop h => ?_, fun s t stop h => ?_⟩,
    Watched.shows_check _ e env position _,
    disciplined_of_orderly (hcheck.orderly start rfl), fun stop h => ?_, fun s env' stop h => ?_⟩
  · have hrun := hsettles start rfl
    rw [h] at hrun
    exact hrun rfl
  · have ha := hsettles.of_ok rfl h
    refine ⟨ha.tidy.solved, ha.tidy.reach, ?_, fun v hv => (ha.leaves v hv).1⟩
    rw [ha.tidy.solved.expand?, Subst.subst_of_not_mem fun v hv => (ha.leaves v hv).2]
  · have hrun := hsettles' start rfl
    rw [h] at hrun
    exact hrun rfl
  · have hp := (passes hr e env position start.next hb).of_ok rfl h
    exact ⟨hp.tidy.solved, hp.tidy.reach, hp.below⟩

/-- What is done for `{ def first(a : 'a, b) : 'a { id(a) } first(first(y, 1), first) }`. -/
def firstActions : List Action :=
  Watched.actions (Watched.infer (.standard []) firstBlock identityEnv [] ⟨.start 2, []⟩)

/-- The call of `id` in the definition composes substitutions that replace something, and so does
the unification of the type of `id` with that of the call. -/
theorem inference_composes_substitutions_in_order_of_two_instances :
    identityEnv.Below 2 ∧
    (∃ s stop, infer (.standard []) firstBlock identityEnv [] (.start 2) = .ok (s, .var 1) stop ∧
      Resolved identityEnv (.start 2) stop s (.var 1)) ∧
    Disciplined firstActions ∧
    .composed (.ofList [(6, .var 2)]) (.ofList [(4, .var 6), (5, .var 6)]) ∈ firstActions ∧
    Performed firstActions (.composed (.ofList [(5, .var 6)]) (.ofList [(4, .var 5)])) := by
  obtain ⟨⟨-, hdisciplined, -, hanswer⟩, -⟩ := inference_composes_substitutions_in_order []
    identityEnv [] (.start 2) below_identityEnv firstBlock
  refine ⟨below_identityEnv, ?_, hdisciplined, List.mem_of_elem_eq_true (by cbv), .inr ?_⟩
  · have ht : (answer? (infer (.standard []) firstBlock identityEnv [] (.start 2))).map (·.2) =
        some (.var 1) := by cbv
    obtain ⟨⟨s, t⟩, hrun, rfl⟩ := Option.map_eq_some_iff.1 ht
    obtain ⟨stop, hrun⟩ := exists_of_answer? hrun
    exact ⟨s, stop, hrun, hanswer s _ stop hrun⟩
  · refine ⟨.fn [.var 4] (.var 4), .fn [.var 5] (.var 6), List.mem_of_elem_eq_true (by cbv), ?_⟩
    have hfirst : unify (.var 4) (.var 5) = .ok (.ofList [(4, .var 5)]) := by cbv
    have hsecond : unify (.var 5) (.var 6) = .ok (.ofList [(5, .var 6)]) := by cbv
    exact .parts rfl (.after rfl rfl hfirst rfl (.compose rfl rfl hsecond))

end Infer

end LetPoly
