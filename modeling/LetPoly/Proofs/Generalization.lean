-- Generalizing a type and instantiating a scheme undo each other, up to the numbers of
-- the variables that are bound. Both rest on one fact: an instance is the body under a
-- renaming that draws the next numbers for the bound variables and keeps all others.
import LetPoly.Proofs.Renaming

namespace LetPoly

open Function (Injective)

/-! ## Variables that stand free -/

/-- A variable stands in the body of a scheme that does not bind it. -/
def Scheme.Free (scheme : Scheme) (v : Int) : Prop :=
  v ∈ scheme.body.leaves ∧ v ∉ scheme.quantified

/-- A variable stands free in some scheme of an environment. -/
def Env.Free (env : Env) (v : Int) : Prop := ∃ scheme ∈ env.values, scheme.Free v

theorem Env.mem_freeVars_iff_free {env : Env} {v : Int} : v ∈ env.freeVars ↔ env.Free v := by
  simp only [Env.mem_freeVars, Scheme.mem_freeVars, Env.Free, Scheme.Free]

/-- Two schemes differ at most in the numbers of the variables that they bind. -/
def Scheme.SameUpToBound (scheme other : Scheme) : Prop :=
  ∃ π, Injective π ∧ (∀ v, scheme.Free v → π v = v) ∧ other = scheme.rename π

/-! ## Drawing numbers -/

/-- The renaming that draws the numbers from `n` on for the given variables, in their order, and
makes room for them: the numbers that were drawn are no longer those of other variables. -/
def drawn (vs : List Int) (n v : Int) : Int :=
  if v ∈ vs then n + vs.idxOf v else if v < n then v else v + vs.length

theorem drawn_of_mem {vs : List Int} {n v : Int} (h : v ∈ vs) : drawn vs n v = n + vs.idxOf v :=
  if_pos h

theorem drawn_of_not_mem {vs : List Int} {n v : Int} (h : v ∉ vs) (hn : v < n) :
    drawn vs n v = v := by
  rw [drawn, if_neg h, if_pos hn]

/-- Each of the variables that ascend gets the number of its own place. -/
theorem drawn_getElem? {vs : List Int} (h : vs.Nodup) {n v : Int} {i : Nat}
    (hi : vs[i]? = some v) : drawn vs n v = n + i := by
  obtain ⟨hlt, rfl⟩ := List.getElem?_eq_some_iff.1 hi
  rw [drawn_of_mem (List.getElem_mem hlt), h.idxOf_getElem i hlt]

theorem drawn_injective (vs : List Int) (n : Int) : Injective (drawn vs n) := by
  -- drawn numbers lie between those that are kept and those that are moved up
  have hrange : ∀ v ∈ vs, n ≤ drawn vs n v ∧ drawn vs n v < n + vs.length := by
    intro v hv
    have := List.idxOf_lt_length_of_mem hv
    rw [drawn_of_mem hv]
    omega
  have hother : ∀ v ∉ vs, drawn vs n v < n ∨ n + vs.length ≤ drawn vs n v := by
    intro v hv
    rw [drawn, if_neg hv]
    split <;> omega
  intro v w hvw
  by_cases hv : v ∈ vs
  · by_cases hw : w ∈ vs
    · rw [drawn_of_mem hv, drawn_of_mem hw] at hvw
      exact (List.idxOf_inj hv).1 (by omega)
    · have := hrange v hv
      have := hother w hw
      omega
  · by_cases hw : w ∈ vs
    · have := hrange w hw
      have := hother v hv
      omega
    · rw [drawn, drawn, if_neg hv, if_neg hw] at hvw
      split at hvw <;> split at hvw <;> omega

/-! ## Instances -/

theorem find?_zipIdx (n : Int) {v : Int} {vs : List Int} (h : v ∈ vs) (k : Nat) :
    Table.find? v ((vs.zipIdx k).map fun (w, i) => (w, Ty.var (n + i))) =
      some (.var (n + (k + vs.idxOf v : Nat))) := by
  induction vs generalizing k with
  | nil => cases h
  | cons w vs ih =>
    rw [List.zipIdx_cons, List.map_cons, Table.find?]
    by_cases hwv : w = v
    · simp [hwv]
    · have hmem : v ∈ vs := (List.mem_cons.1 h).resolve_left (Ne.symm hwv)
      rw [if_neg hwv, ih hmem, List.idxOf_cons_ne vs hwv, Nat.succ_add_eq_add_succ]

theorem Scheme.get?_freshen {scheme : Scheme} {n v : Int} (h : v ∈ scheme.quantified) :
    (scheme.freshen n).get? v = some (.var (n + scheme.quantified.idxOf v)) := by
  have hfind := find?_zipIdx n h 0
  rw [Nat.zero_add] at hfind
  exact hfind

/-- An instance is the body with the next numbers drawn for the bound variables. -/
theorem Scheme.instantiate?_eq {scheme : Scheme} {n : Int} (hq : ∀ v ∈ scheme.quantified, v < n)
    (hb : ∀ v ∈ scheme.body.leaves, v < n) :
    scheme.instantiate? n =
      (some (scheme.body.rename (drawn scheme.quantified n)), n + scheme.quantified.length) := by
  have himage : ∀ v ∈ scheme.body.leaves,
      (scheme.freshen n).image v = .var (drawn scheme.quantified n v) := by
    intro v hv
    by_cases hvq : v ∈ scheme.quantified
    · rw [Subst.image, get?_freshen hvq, drawn_of_mem hvq]
      rfl
    · rw [image_freshen_of_not_mem hvq, drawn_of_not_mem hvq (hb v hv)]
  have hexpand := (direct_freshen (Or.inl hq)).expand? scheme.body
  rw [instantiate?, hexpand, Ty.subst_congr himage]
  rfl

/-- A type has a number drawn for each variable that does not stand free in the environment. -/
theorem Env.instantiate?_generalize {env : Env} {t : Ty} {n : Int} (ht : ∀ v ∈ t.leaves, v < n) :
    (env.generalize t).instantiate? n =
      (some (t.rename (drawn (env.generalize t).quantified n)),
        n + (env.generalize t).quantified.length) :=
  Scheme.instantiate?_eq (fun v hv => ht v (mem_quantified_generalize.1 hv).1) ht

theorem Env.mem_quantified_generalize_iff {env : Env} {t : Ty} {v : Int} :
    v ∈ (env.generalize t).quantified ↔ v ∈ t.leaves ∧ ¬ env.Free v := by
  rw [mem_quantified_generalize, mem_freeVars_iff_free]

/-- Numbers drawn in turn are different, so what two instances have in common is kept in both. -/
theorem not_mem_of_drawn_twice {t : Ty} {vs : List Int} {n m : Int} (ht : ∀ v ∈ t.leaves, v < n)
    (hm : n + vs.length ≤ m) {v : Int} (hv : v ∈ (t.rename (drawn vs n)).leaves)
    (hv' : v ∈ (t.rename (drawn vs m)).leaves) : v ∈ t.leaves ∧ v ∉ vs := by
  rw [Ty.leaves_rename] at hv hv'
  obtain ⟨w, hw, rfl⟩ := List.mem_map.1 hv
  obtain ⟨w', hw', heq⟩ := List.mem_map.1 hv'
  have hwn := ht w hw
  have hwn' := ht w' hw'
  by_cases hwvs : w ∈ vs
  · have hlt := List.idxOf_lt_length_of_mem hwvs
    rw [drawn_of_mem hwvs] at heq
    by_cases hwvs' : w' ∈ vs
    · rw [drawn_of_mem hwvs'] at heq
      omega
    · rw [drawn_of_not_mem hwvs' (by omega)] at heq
      omega
  · rw [drawn_of_not_mem hwvs hwn]
    exact ⟨hw, hwvs⟩

/-- Generalizing an instance binds what was drawn for the bound variables, and nothing else. -/
theorem Env.generalize_rename_drawn {env : Env} {scheme : Scheme} {n : Int}
    (henv : ∀ v, env.Free v → v < n) (hfree : ∀ v, scheme.Free v → env.Free v)
    (hq : ∀ v ∈ scheme.quantified, v ∈ scheme.body.leaves)
    (hb : ∀ v ∈ scheme.body.leaves, v < n) :
    env.generalize (scheme.body.rename (drawn scheme.quantified n)) =
      scheme.rename (drawn scheme.quantified n) := by
  have hbound : ∀ v ∈ scheme.body.leaves,
      env.Free (drawn scheme.quantified n v) ↔ v ∉ scheme.quantified := by
    intro v hv
    by_cases hvq : v ∈ scheme.quantified
    · refine iff_of_false (fun h => ?_) (not_not_intro hvq)
      have hlt := henv _ h
      rw [drawn_of_mem hvq] at hlt
      omega
    · rw [drawn_of_not_mem hvq (hb v hv)]
      exact iff_of_true (hfree v ⟨hv, hvq⟩) hvq
  unfold generalize Scheme.quantify Scheme.rename
  rw [Scheme.mk.injEq]
  refine ⟨Ascending.ofList_congr fun w => ?_, rfl⟩
  simp only [List.mem_filter, decide_eq_true_eq, mem_freeVars_iff_free, Ty.leaves_rename,
    List.mem_map]
  constructor
  · rintro ⟨⟨v, hv, rfl⟩, hw⟩
    exact ⟨v, by_contra fun hvq => hw ((hbound v hv).2 hvq), rfl⟩
  · rintro ⟨v, hv, rfl⟩
    exact ⟨⟨v, hq v hv, rfl⟩, fun hw => (hbound v (hq v hv)).1 hw hv⟩

/-! ## There and back -/

/-- Generalizing and instantiating undo each other up to numbers, if the numbers that are drawn are
not in use. Instantiating what a type generalizes to gives the type back, with the next numbers
drawn for the variables that do not stand free in the environment, in ascending order, and all
others kept; a later instance has only variables that stand free in common with it. Generalizing
an instance of a scheme whose free variables stand free in the environment and whose bound
variables all stand in its body gives the scheme back, up to the numbers of its bound variables. -/
theorem generalizing_and_instantiating_undo_each_other (env : Env) (n : Int) :
    (∀ t : Ty, (∀ v ∈ t.leaves, v < n) →
      ∃ (vs : List Int) (π : Int → Int),
        vs.Pairwise (· < ·) ∧ (∀ v, v ∈ vs ↔ v ∈ t.leaves ∧ ¬ env.Free v) ∧
        Injective π ∧ (∀ (i : Nat) v, vs[i]? = some v → π v = n + i) ∧
        (∀ v ∈ t.leaves, env.Free v → π v = v) ∧
        (env.generalize t).instantiate? n = (some (t.rename π), n + vs.length) ∧
        ∀ m, n + vs.length ≤ m →
          ∃ u, (env.generalize t).instantiate? m = (some u, m + vs.length) ∧
            ∀ v ∈ (t.rename π).leaves, v ∈ u.leaves → env.Free v) ∧
    ∀ scheme : Scheme, (∀ v, env.Free v → v < n) → (∀ v, scheme.Free v → env.Free v) →
      (∀ v ∈ scheme.quantified, v ∈ scheme.body.leaves) → (∀ v ∈ scheme.body.leaves, v < n) →
      ∃ u, scheme.instantiate? n = (some u, n + scheme.quantified.length) ∧
        scheme.SameUpToBound (env.generalize u) := by
  refine ⟨fun t ht => ?_, fun scheme henv hfree hq hb => ?_⟩
  · have hascending : (env.generalize t).quantified.Pairwise (· < ·) := Ascending.pairwise_ofList _
    have hmem : ∀ v, v ∈ (env.generalize t).quantified ↔ v ∈ t.leaves ∧ ¬ env.Free v :=
      fun v => Env.mem_quantified_generalize_iff
    refine ⟨(env.generalize t).quantified, drawn (env.generalize t).quantified n, hascending, hmem,
      drawn_injective _ n, fun i v hi => ?_, fun v hv hf => ?_, Env.instantiate?_generalize ht,
      fun m hm => ⟨_, Env.instantiate?_generalize fun v hv => ?_, fun v hv hv' => ?_⟩⟩
    · exact drawn_getElem? (hascending.imp fun h => Int.ne_of_lt h) hi
    · exact drawn_of_not_mem (fun hq => ((hmem v).1 hq).2 hf) (ht v hv)
    · have := ht v hv
      omega
    · obtain ⟨hvt, hvq⟩ := not_mem_of_drawn_twice ht hm hv hv'
      exact by_contra fun hf => hvq ((hmem v).2 ⟨hvt, hf⟩)
  · refine ⟨_, Scheme.instantiate?_eq (fun v hv => hb v (hq v hv)) hb, _,
      drawn_injective scheme.quantified n, fun v hv => ?_,
      Env.generalize_rename_drawn henv hfree hq hb⟩
    exact drawn_of_not_mem hv.2 (hb v hv.1)

/-- With `x : t1` and `y : forall t2. (t2) -> t3` in scope, `(t5, t1) -> (t4) -> t5` and
`forall t0 t2. (t2, t0) -> t3` from the number 6 on. -/
theorem generalizing_and_instantiating_undo_each_other_between_free_variables :
    let env : Env := .ofList [("x", .mono (.var 1)), ("y", .quantify [2] (.fn [.var 2] (.var 3)))]
    let t := Ty.fn [.var 5, .var 1] (.fn [.var 4] (.var 5))
    let scheme : Scheme := .quantify [0, 2] (.fn [.var 2, .var 0] (.var 3))
    (∃ (vs : List Int) (π : Int → Int), (∀ v, v ∈ vs ↔ v ∈ t.leaves ∧ ¬ env.Free v) ∧
      Injective π ∧ (env.generalize t).instantiate? 6 = (some (t.rename π), 8) ∧
      t.rename π = .fn [.var 7, .var 1] (.fn [.var 6] (.var 7))) ∧
    (∀ v, scheme.Free v → env.Free v) ∧
    ∃ u, scheme.instantiate? 6 = (some u, 8) ∧ scheme.SameUpToBound (env.generalize u) := by
  intro env t scheme
  have henv : ∀ v, env.Free v → v < 6 := by
    intro v hv
    rw [← Env.mem_freeVars_iff_free] at hv
    revert v
    decide
  have hfree : ∀ v, scheme.Free v → env.Free v := by
    intro v hv
    rw [← Env.mem_freeVars_iff_free]
    rw [Scheme.Free, ← Scheme.mem_freeVars] at hv
    revert v
    decide
  obtain ⟨hthere, hback⟩ := generalizing_and_instantiating_undo_each_other env 6
  obtain ⟨vs, π, -, hvs, hπ, -, -, hrun, -⟩ := hthere t (by decide)
  have hinstance : (env.generalize t).instantiate? 6 =
      (some (.fn [.var 7, .var 1] (.fn [.var 6] (.var 7))), 8) := by decide
  obtain ⟨hname, -⟩ := Prod.mk.inj (hrun.symm.trans hinstance)
  obtain ⟨u, hu, hsame⟩ := hback scheme henv hfree (by decide) (by decide)
  exact ⟨⟨vs, π, hvs, hπ, by rw [hinstance, hname], Option.some.inj hname⟩, hfree, u, hu, hsame⟩

end LetPoly
