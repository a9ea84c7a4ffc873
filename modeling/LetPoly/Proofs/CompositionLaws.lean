-- The laws of composition. Two substitutions that replace none of the variables they put
-- in, the later of which speaks of no variable that the earlier one replaces, compose to
-- one that does what they do one after the other: to types, to schemes and to
-- environments. Three such substitutions compose to the same from either end.
import LetPoly.Proofs.Environments

namespace LetPoly

namespace Subst

/-- Neither substitution puts in a variable that it replaces, and the later one speaks of no
variable that the earlier one replaces. -/
structure InOrder (later earlier : Subst) : Prop where
  laterSolved : later.Solved
  earlierSolved : earlier.Solved
  leavesAlone : later.LeavesAlone earlier

variable {later earlier earliest : Subst}

theorem InOrder.composed (h : InOrder later earlier) :
    Composed later earlier (joined later earlier) :=
  composed_joined h.laterSolved h.earlierSolved h.leavesAlone

theorem InOrder.compose? (h : InOrder later earlier) :
    later.compose? earlier = some (joined later earlier) :=
  compose?_eq_joined h.laterSolved h.leavesAlone

/-- What was composed last and what comes before both are in order. -/
theorem InOrder.joined_left (h : InOrder later earlier) (hlater : InOrder later earliest)
    (hearlier : InOrder earlier earliest) : InOrder (joined later earlier) earliest := by
  refine ⟨h.composed.solved, hlater.earlierSolved, fun v hv => ?_⟩
  rcases h.composed.mentioned v hv with hv | hv
  · exact hearlier.leavesAlone v hv
  · exact hlater.leavesAlone v hv

/-- What comes after both and what was composed first are in order. -/
theorem InOrder.joined_right (h : InOrder earlier earliest) (hearlier : InOrder later earlier)
    (hearliest : InOrder later earliest) : InOrder later (joined earlier earliest) := by
  refine ⟨hearlier.laterSolved, h.composed.solved, fun v hv hk => ?_⟩
  rcases (h.composed.keys v).1 hk with hk | hk
  · exact hearliest.leavesAlone v hv hk
  · exact hearlier.leavesAlone v hv hk

theorem joined_assoc (latest middle earliest : Subst) :
    joined (joined latest middle) earliest = joined latest (joined middle earliest) := by
  have himage : ∀ t : Ty, t.subst (joined latest middle).image =
      (t.subst middle.image).subst latest.image := by
    intro t
    rw [Ty.subst_subst]
    exact Ty.subst_congr fun v _ => image_joined latest middle v
  have hmap : earliest.map (Ty.subst (joined latest middle).image) =
      (earliest.map (Ty.subst middle.image)).map (Ty.subst latest.image) := by
    rw [Table.map_map]
    exact Table.map_congr fun t _ => himage t
  rw [joined, hmap, joined, joined, joined, Table.map_append, Table.append_assoc]

end Subst

/-- A scheme binds no variable that a substitution replaces or puts in. -/
def Scheme.BindsNoneOf (scheme : Scheme) (s : Subst) : Prop :=
  ∀ v ∈ scheme.quantified, v ∉ s.mentioned

theorem Scheme.BindsNoneOf.clean {scheme : Scheme} {s : Subst} (h : scheme.BindsNoneOf s) :
    scheme.Clean s.image := by
  intro v hv w hw hq
  rcases Subst.mem_mentioned_of_image hw with rfl | hm
  · exact (Scheme.mem_freeVars.1 hv).2 hq
  · exact h w hq hm

namespace Subst

/-- Substitutions in order compose to one that replaces none of the variables it puts in and does
what they do one after the other, to every type, to every scheme that binds no variable of the
earlier one, and to environments of such schemes. With a third one before both it makes no
difference which two are composed first. -/
theorem composing_is_applying_in_turn {later earlier : Subst} (h : InOrder later earlier) :
    ∃ both, later.compose? earlier = some both ∧ both.Solved ∧
      (∀ t, ∃ u w,
        earlier.expand? t = some u ∧ later.expand? u = some w ∧ both.expand? t = some w) ∧
      (∀ scheme : Scheme, scheme.BindsNoneOf earlier → ∃ u w,
        scheme.expand? earlier = some u ∧ u.expand? later = some w ∧
          scheme.expand? both = some w) ∧
      (∀ env : Env, (∀ scheme ∈ env.values, scheme.BindsNoneOf earlier) → ∃ u w,
        Env.expand? earlier env = some u ∧ Env.expand? later u = some w ∧
          Env.expand? both env = some w) ∧
      ∀ earliest, InOrder earlier earliest → InOrder later earliest → ∃ lower all,
        earlier.compose? earliest = some lower ∧ later.compose? lower = some all ∧
          both.compose? earliest = some all := by
  have hboth := h.composed
  refine ⟨joined later earlier, h.compose?, hboth.solved, fun t => ?_, fun scheme hs => ?_,
    fun env hs => ?_, fun earliest hearlier hlater => ?_⟩
  · refine ⟨_, _, h.earlierSolved.expand? t, h.laterSolved.expand? _, ?_⟩
    rw [hboth.solved.expand?, hboth.subst]
  · refine ⟨_, _, Scheme.expand?_eq_some h.earlierSolved scheme,
      Scheme.expand?_eq_some h.laterSolved _, ?_⟩
    rw [Scheme.expand?_eq_some hboth.solved, Scheme.subst_subst hs.clean]
    exact congrArg some (Scheme.subst_congr fun v _ => hboth.image v)
  · refine ⟨_, _, Env.expand?_eq_some h.earlierSolved env, Env.expand?_eq_some h.laterSolved _, ?_⟩
    rw [Env.expand?_eq_some hboth.solved, Env.subst_subst fun scheme hmem => (hs scheme hmem).clean]
    exact congrArg some (Env.subst_congr fun v _ => hboth.image v)
  · refine ⟨_, _, hearlier.compose?, (hearlier.joined_right h hlater).compose?, ?_⟩
    rw [(h.joined_left hlater hearlier).compose?, joined_assoc]

/-- `t0` becomes `(t1, t2) -> t6`. -/
def turnOne : Subst := .ofList [(0, .fn [.var 1, .var 2] (.var 6))]

/-- `t1` becomes `(t3) -> t4` and `t2` becomes `t4`. -/
def turnTwo : Subst := .ofList [(1, .fn [.var 3] (.var 4)), (2, .var 4)]

/-- `t3` becomes `number` and `t4` becomes `(t5) -> t5`. -/
def turnThree : Subst := .ofList [(3, .number), (4, .fn [.var 5] (.var 5))]

/-- Three substitutions in order, each of which puts in what the next replaces. -/
theorem composing_is_applying_in_turn_of_three :
    InOrder turnThree turnTwo ∧ InOrder turnTwo turnOne ∧ InOrder turnThree turnOne ∧
    ∃ both, turnThree.compose? turnTwo = some both ∧ both.Solved ∧
      both.expand? (.fn [.var 1] (.var 3)) =
        some (.fn [.fn [.number] (.fn [.var 5] (.var 5))] .number) ∧
      Scheme.expand? both (.quantify [7] (.fn [.var 7] (.var 2))) =
        some (.quantify [7] (.fn [.var 7] (.fn [.var 5] (.var 5)))) ∧
      Env.expand? both (.ofList [("f", .quantify [7] (.fn [.var 7] (.var 2)))]) =
        some (.ofList [("f", .quantify [7] (.fn [.var 7] (.fn [.var 5] (.var 5))))]) ∧
      ∃ lower all, turnTwo.compose? turnOne = some lower ∧ turnThree.compose? lower = some all ∧
        both.compose? turnOne = some all := by
  have hlast : InOrder turnThree turnTwo :=
    ⟨by unfold Solved; decide, by unfold Solved; decide, by unfold LeavesAlone; decide⟩
  have hfirst : InOrder turnTwo turnOne :=
    ⟨by unfold Solved; decide, by unfold Solved; decide, by unfold LeavesAlone; decide⟩
  have hends : InOrder turnThree turnOne := ⟨hlast.1, hfirst.2, by unfold LeavesAlone; decide⟩
  obtain ⟨both, hboth, hsolved, htypes, hschemes, henvs, hthree⟩ :=
    composing_is_applying_in_turn hlast
  refine ⟨hlast, hfirst, hends, both, hboth, hsolved, ?_, ?_, ?_, hthree turnOne hfirst hends⟩
  · obtain ⟨u, w, hu, hw, hall⟩ := htypes (.fn [.var 1] (.var 3))
    cases hu
    cases hw
    exact hall
  · obtain ⟨u, w, hu, hw, hall⟩ := hschemes (.quantify [7] (.fn [.var 7] (.var 2)))
      (by unfold Scheme.BindsNoneOf; decide)
    cases hu
    cases hw
    exact hall
  · obtain ⟨u, w, hu, hw, hall⟩ := henvs (.ofList [("f", .quantify [7] (.fn [.var 7] (.var 2)))])
      (by unfold Scheme.BindsNoneOf; decide)
    cases hu
    cases hw
    exact hall

end Subst

end LetPoly
