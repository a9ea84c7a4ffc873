-- Unification does not depend on which of the two types is expected and which was found.
-- Two variables are bound the other way round when the sides are exchanged, so from then
-- on the two runs speak of the same equations under different names. A permutation of the
-- variables keeps account of that, up to the solution or to the clash.
import LetPoly.Proofs.MostGeneralUnifier
import LetPoly.Proofs.Renaming
import Mathlib.Data.List.Zip
import Mathlib.Logic.Equiv.Basic

namespace LetPoly

/-- A clash with what is expected and what was found exchanged. -/
def Clash.flipped : Clash → Clash
  | mismatch expected actual => .mismatch actual expected
  | arity expected actual => .arity actual expected
  | infinite v t => .infinite v t

namespace Unify

open Equiv (Perm swap)

/-! ## One step on both sides -/

/-- Equations with their variables renamed and their sides exchanged. -/
def mirror (π : Perm Int) (eqs : List Equation) : List Equation :=
  eqs.map fun (l, r) => (r.rename π, l.rename π)

theorem mirror_cons (π : Perm Int) (l r : Ty) (rest : List Equation) :
    mirror π ((l, r) :: rest) = (r.rename π, l.rename π) :: mirror π rest := rfl

theorem mirror_zip (π : Perm Int) (ps qs : List Ty) :
    mirror π (ps.zip qs) = (qs.map (Ty.rename π)).zip (ps.map (Ty.rename π)) := by
  rw [mirror, ← List.zip_swap, List.map_map, List.zip_map]
  rfl

/-- Replacing one variable on each side of the mirror is one replacement, under the names that hold
after it. -/
def Agrees (π π' : Perm Int) (v : Int) (t : Ty) (v' : Int) (t' : Ty) : Prop :=
  ∀ u : Ty, (u.rename π).replace v' t' = (u.replace v t).rename π'

theorem agrees_same (π : Perm Int) (v : Int) (t : Ty) : Agrees π π v t (π v) (t.rename π) :=
  fun u => (Ty.replace_rename π.injective u v t).symm

/-- A variable put in for another on one side, and the other for the one on the other side: the two
have changed their names. -/
theorem agrees_swap (π : Perm Int) (v w : Int) :
    Agrees π ((swap v w).trans π) v (.var w) (π w) (.var (π v)) := by
  intro u
  unfold Ty.replace
  rw [Ty.subst_rename, Ty.rename_subst]
  refine Ty.subst_congr fun x _ => ?_
  by_cases hv : x = v
  · subst hv
    by_cases hw : x = w
    · simp [hw]
    · simp [π.injective.eq_iff, hw]
  · by_cases hw : x = w
    · subst hw
      simp [hv]
    · simp [π.injective.eq_iff, hv, hw, Equiv.swap_apply_of_ne_of_ne hv hw]

theorem Agrees.mirror_replaceAll {π π' : Perm Int} {v v' : Int} {t t' : Ty}
    (h : Agrees π π' v t v' t') (eqs : List Equation) :
    replaceAll v' t' (mirror π eqs) = mirror π' (replaceAll v t eqs) := by
  rw [replaceAll, mirror, List.map_map, mirror, replaceAll, List.map_map]
  refine List.map_congr_left fun e _ => ?_
  exact Prod.ext (h e.2) (h e.1)

/-- What a step on the mirrored equations does, given what a step on the equations does. -/
inductive MirroredStep (π : Perm Int) (l r : Ty) (rest : List Equation) :
    Except Clash Progress → Except Clash Progress → Prop
  | refused (clash : Clash) :
    MirroredStep π l r rest (.error clash) (.error (clash.rename π).flipped)
  | apart (eqs : List Equation) :
    MirroredStep π l r rest (.ok ⟨none, eqs⟩) (.ok ⟨none, mirror π eqs⟩)
  | solved {π' : Perm Int} {v v' : Int} {t t' : Ty} (agrees : Agrees π π' v t v' t')
      (moved : ∀ x, x ∉ l.leaves → x ∉ r.leaves → π' x = π x) :
    MirroredStep π l r rest (.ok ⟨some (v, t), replaceAll v t rest⟩)
      (.ok ⟨some (v', t'), mirror π' (replaceAll v t rest)⟩)

theorem mirroredStep_bind (π : Perm Int) (l r : Ty) (rest : List Equation) (v : Int) (t : Ty) :
    MirroredStep π l r rest (bind v t rest) (bind (π v) (t.rename π) (mirror π rest)) := by
  unfold bind
  by_cases htv : t = .var v
  · simp only [htv, Ty.rename_var, if_true]
    exact .apart rest
  · rw [if_neg htv, if_neg (mt (Ty.rename_eq_var π.injective).1 htv),
      Ty.occurs_rename π.injective]
    by_cases ho : t.occurs v = true
    · rw [if_pos ho, if_pos ho]
      exact .refused (.infinite v t)
    · rw [if_neg ho, if_neg ho, (agrees_same π v t).mirror_replaceAll]
      exact .solved (agrees_same π v t) fun _ _ _ => rfl

/-- Two variables are bound in opposite directions. -/
theorem mirroredStep_vars (π : Perm Int) (rest : List Equation) (v w : Int) :
    MirroredStep π (.var v) (.var w) rest (bind v (.var w) rest)
      (bind (π w) (.var (π v)) (mirror π rest)) := by
  by_cases hvw : w = v
  · subst hvw
    exact mirroredStep_bind π _ _ rest w (.var w)
  · have hne : (Ty.var w).occurs v = false := by simp [Ty.occurs, Ne.symm hvw]
    have hne' : (Ty.var (π v)).occurs (π w) = false := by
      simp [Ty.occurs, π.injective.eq_iff, hvw]
    have hvar : Ty.var w ≠ .var v := by simp [hvw]
    have hvar' : Ty.var (π v) ≠ .var (π w) := by simp [π.injective.eq_iff, Ne.symm hvw]
    rw [bind, bind, if_neg hvar, if_neg hvar', hne, hne', if_neg Bool.false_ne_true,
      if_neg Bool.false_ne_true, (agrees_swap π v w).mirror_replaceAll]
    refine .solved (agrees_swap π v w) fun x hx hx' => ?_
    simp only [Ty.leaves_var, List.mem_singleton] at hx hx'
    rw [Equiv.trans_apply, Equiv.swap_apply_of_ne_of_ne hx hx']

theorem mirroredStep_step (π : Perm Int) (l r : Ty) (rest : List Equation) :
    MirroredStep π l r rest (step l r rest) (step (r.rename π) (l.rename π) (mirror π rest)) := by
  cases l with
  | var v =>
    cases r with
    | var w => exact mirroredStep_vars π rest v w
    | con d => exact mirroredStep_bind π _ _ rest v (.con d)
    | fn qs q =>
      have h := mirroredStep_bind π (.var v) (.fn qs q) rest v (.fn qs q)
      rw [Ty.rename_fn] at h ⊢
      exact h
  | con c =>
    cases r with
    | var w => exact mirroredStep_bind π _ _ rest w (.con c)
    | con d =>
      by_cases hcd : c = d
      · simp only [step, Ty.rename_con, hcd, if_true]
        exact .apart rest
      · simp only [step, Ty.rename_con, hcd, Ne.symm hcd, if_false]
        exact .refused (.mismatch (.con c) (.con d))
    | fn qs q =>
      have h : MirroredStep π (.con c) (.fn qs q) rest _ _ :=
        .refused (.mismatch (.con c) (.fn qs q))
      simpa [step, Clash.rename, Clash.flipped] using h
  | fn ps p =>
    cases r with
    | var w =>
      have h := mirroredStep_bind π (.fn ps p) (.var w) rest w (.fn ps p)
      rw [Ty.rename_fn] at h ⊢
      exact h
    | con d =>
      have h : MirroredStep π (.fn ps p) (.con d) rest _ _ :=
        .refused (.mismatch (.fn ps p) (.con d))
      simpa [step, Clash.rename, Clash.flipped] using h
    | fn qs q =>
      simp only [step, Ty.rename_fn, List.length_map]
      by_cases hlen : ps.length = qs.length
      · rw [if_pos hlen, if_pos hlen.symm]
        have hparts : (qs.map (Ty.rename π)).zip (ps.map (Ty.rename π)) ++
            (q.rename π, p.rename π) :: mirror π rest =
            mirror π (ps.zip qs ++ (p, q) :: rest) := by
          rw [← mirror_zip]
          simp [mirror]
        rw [hparts]
        exact .apart _
      · rw [if_neg hlen, if_neg (Ne.symm hlen)]
        exact .refused (.arity ps.length qs.length)

/-! ## All steps on both sides -/

/-- Two outcomes of unification are the same up to names, with the sides exchanged. -/
inductive Mirrored (π : Perm Int) : Except Clash Subst → Except Clash Subst → Prop
  | solved {s s' : Subst} : (∀ v, s'.image v = (s.image v).rename π) → Mirrored π (.ok s) (.ok s')
  | refused (clash : Clash) : Mirrored π (.error clash) (.error (clash.rename π).flipped)

/-- The two runs keep in step: what is solved so far is the same up to the names that hold now, and
so are the equations that are left. -/
theorem mirrored_solve (π : Perm Int) (eqs : List Equation) {s s' : Subst}
    (hs : ∀ v, s'.image v = (s.image v).rename π) :
    ∃ π' : Perm Int, (∀ x ∉ leaves eqs, π' x = π x) ∧
      Mirrored π' (solve eqs s) (solve (mirror π eqs) s') := by
  induction eqs, s using solve.induct generalizing π s' with
  | case1 s =>
    rw [mirror, List.map_nil, solve, solve]
    exact ⟨π, fun _ _ => rfl, .solved hs⟩
  | case2 s l r rest clash hstep =>
    have hboth := mirroredStep_step π l r rest
    rw [mirror_cons, solve, solve, hstep]
    rw [hstep] at hboth
    generalize step (r.rename π) (l.rename π) (mirror π rest) = other at hboth ⊢
    cases hboth with
    | refused clash => exact ⟨π, fun _ _ => rfl, .refused clash⟩
  | case3 s l r rest p hstep ih =>
    have hboth := mirroredStep_step π l r rest
    rw [mirror_cons, solve, solve, hstep]
    rw [hstep] at hboth
    generalize step (r.rename π) (l.rename π) (mirror π rest) = other at hboth ⊢
    cases hboth with
    | apart eqs =>
      obtain ⟨π', hmoved, hend⟩ := ih π hs
      exact ⟨π', fun x hx => hmoved x (mt (mem_leaves_of_step hstep) hx), hend⟩
    | @solved π₁ v v' t t' hagrees hmoved =>
      have hs' : ∀ x, (s'.solve v' t').image x = ((s.solve v t).image x).rename π₁ := by
        intro x
        rw [Subst.image_solve, Subst.image_solve, hs, hagrees]
      obtain ⟨π', hmoved', hend⟩ := ih π₁ hs'
      refine ⟨π', fun x hx => ?_, hend⟩
      have hhead : x ∉ l.leaves ∧ x ∉ r.leaves :=
        not_or.1 fun h => hx (mem_leaves_of_mem (e := (l, r)) (by simp) h)
      rw [hmoved' x (mt (mem_leaves_of_step hstep) hx), hmoved x hhead.1 hhead.2]

end Unify

/-- Whether two types have a common instance does not depend on which of them comes first, nor does
what is found, up to one permutation of their variables. Both unifiers do the same to every type.
If there is none, both ways end in the same clash, with what is expected and what was found
exchanged; a variable that would have to stand in itself is the same on both sides. -/
theorem unification_is_symmetric (a b : Ty) :
    ∃ π : Equiv.Perm Int, (∀ v, v ∉ a.leaves → v ∉ b.leaves → π v = v) ∧
      ((∃ s s', unify a b = .ok s ∧ unify b a = .ok s' ∧
          ∀ t, ∃ u, s.expand? t = some u ∧ s'.expand? t = some (u.rename π)) ∨
        ∃ clash, unify a b = .error clash ∧ unify b a = .error (clash.rename π).flipped) := by
  have hmirror : Unify.mirror (Equiv.refl Int) [(a, b)] = [(b, a)] := by
    have hid : ∀ t : Ty, t.rename id = t := fun t => Ty.subst_var_self t
    simp [Unify.mirror, hid]
  obtain ⟨π, hmoved, hend⟩ :=
    @Unify.mirrored_solve (Equiv.refl Int) [(a, b)] Subst.empty Subst.empty fun _ => rfl
  rw [hmirror] at hend
  change Unify.Mirrored π (unify a b) (unify b a) at hend
  refine ⟨π, fun v ha hb => hmoved v (by simp [Unify.leaves, ha, hb]), ?_⟩
  generalize hab : unify a b = outcome at hend ⊢
  generalize hba : unify b a = outcome' at hend ⊢
  cases hend with
  | refused clash => exact .inr ⟨clash, rfl, rfl⟩
  | @solved s s' himage =>
    refine .inl ⟨s, s', rfl, rfl, fun t => ⟨t.subst s.image, ?_, ?_⟩⟩
    · exact (found_of_unify hab).solved.expand? t
    · rw [(found_of_unify hba).solved.expand? t, Ty.rename_subst]
      exact congrArg some (Ty.subst_congr fun v _ => himage v)

end LetPoly
