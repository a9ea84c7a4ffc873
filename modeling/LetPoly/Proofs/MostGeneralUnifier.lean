-- The laws of unification. Every step on a list of equations keeps their
-- solutions, and a step that is refused has found an equation without one. So the
-- unifier is found whenever there is one, and every other is an instance of it.
import LetPoly.Proofs.Substitutions

namespace LetPoly

namespace Unify

/-! ## Solutions of equations -/

/-- A replacement of variables solves all equations. -/
def Unifies (f : Int → Ty) (eqs : List Equation) : Prop :=
  ∀ e ∈ eqs, e.1.subst f = e.2.subst f

theorem unifies_nil (f : Int → Ty) : Unifies f [] := by
  intro e he
  cases he

theorem unifies_cons {f : Int → Ty} {l r : Ty} {rest : List Equation} :
    Unifies f ((l, r) :: rest) ↔ l.subst f = r.subst f ∧ Unifies f rest := by
  simp [Unifies]

theorem unifies_append {f : Int → Ty} {front back : List Equation} :
    Unifies f (front ++ back) ↔ Unifies f front ∧ Unifies f back := by
  simp only [Unifies, List.mem_append]
  exact ⟨fun h => ⟨fun e he => h e (Or.inl he), fun e he => h e (Or.inr he)⟩,
    fun h e he => he.elim (h.1 e) (h.2 e)⟩

theorem unifies_zip {f : Int → Ty} : {ps qs : List Ty} → ps.length = qs.length →
    (Unifies f (ps.zip qs) ↔ ps.map (Ty.subst f) = qs.map (Ty.subst f))
  | [], [], _ => by simp [Unifies]
  | p :: ps, q :: qs, h => by
    have ih := @unifies_zip f ps qs (by simpa using h)
    rw [List.zip_cons_cons, unifies_cons, ih]
    simp

theorem unifies_replaceAll {f : Int → Ty} {v : Int} {t : Ty} (h : f v = t.subst f)
    (eqs : List Equation) : Unifies f (replaceAll v t eqs) ↔ Unifies f eqs := by
  constructor
  · intro hu e he
    have := hu _ (List.mem_map_of_mem he)
    simpa [Ty.subst_replace h] using this
  · intro hu _ hmem
    obtain ⟨e, he, rfl⟩ := List.mem_map.1 hmem
    simpa [Ty.subst_replace h] using hu e he

/-! ## One step -/

theorem mem_leaves_tail {l r : Ty} {rest : List Equation} {x : Int} (h : x ∈ leaves rest) :
    x ∈ leaves ((l, r) :: rest) := by
  simp only [leaves, List.flatMap_cons, List.mem_append]
  exact Or.inr h

/-- What a step that is not refused can do: pass a type that is to equal itself, take two functions
apart, or solve the variable on one side. -/
inductive Taken (l r : Ty) (rest : List Equation) : Progress → Prop
  | equal (same : l = r) : Taken l r rest ⟨none, rest⟩
  | split {ps qs : List Ty} {p q : Ty} (left : l = .fn ps p) (right : r = .fn qs q)
      (length : ps.length = qs.length) : Taken l r rest ⟨none, ps.zip qs ++ (p, q) :: rest⟩
  | solved {v : Int} {t : Ty} (sides : (l = .var v ∧ r = t) ∨ (l = t ∧ r = .var v))
      (fresh : v ∉ t.leaves) : Taken l r rest ⟨some (v, t), replaceAll v t rest⟩

theorem taken_of_bind {l r : Ty} {v : Int} {t : Ty} {rest : List Equation} {p : Progress}
    (hs : (l = .var v ∧ r = t) ∨ (l = t ∧ r = .var v)) (h : bind v t rest = .ok p) :
    Taken l r rest p := by
  unfold bind at h
  split at h
  · rename_i ht
    subst ht
    cases h
    exact .equal (by rcases hs with ⟨rfl, rfl⟩ | ⟨rfl, rfl⟩ <;> rfl)
  · split at h
    · cases h
    · rename_i ho
      cases h
      exact .solved hs (by simpa [Ty.occurs] using ho)

theorem taken_of_step {l r : Ty} {rest : List Equation} {p : Progress}
    (h : step l r rest = .ok p) : Taken l r rest p := by
  unfold step at h
  split at h
  · exact taken_of_bind (Or.inl ⟨rfl, rfl⟩) h
  · exact taken_of_bind (Or.inr ⟨rfl, rfl⟩) h
  · split at h
    · rename_i hc
      cases h
      exact .equal (congrArg Ty.con hc)
    · cases h
  · split at h
    · rename_i hl
      cases h
      exact .split rfl rfl hl
    · cases h
  · cases h

/-- What comes of it: equations with the same solutions, or a variable that is solved. -/
inductive Moved (l r : Ty) (rest : List Equation) : Progress → Prop
  | apart {eqs : List Equation} (leaves : ∀ x ∈ leaves eqs, x ∈ Unify.leaves ((l, r) :: rest))
      (unifies : ∀ f, Unifies f ((l, r) :: rest) ↔ Unifies f eqs) : Moved l r rest ⟨none, eqs⟩
  | solved {v : Int} {t : Ty} (sides : (l = .var v ∧ r = t) ∨ (l = t ∧ r = .var v))
      (fresh : v ∉ t.leaves) : Moved l r rest ⟨some (v, t), replaceAll v t rest⟩

theorem moved_of_step {l r : Ty} {rest : List Equation} {p : Progress}
    (h : step l r rest = .ok p) : Moved l r rest p := by
  cases taken_of_step h with
  | equal hlr =>
    subst hlr
    exact .apart (fun x hx => mem_leaves_tail hx) fun f => by simp [unifies_cons]
  | @split ps qs p q hl hr hlen =>
    subst hl hr
    refine .apart (fun x hx => ?_) fun f => ?_
    · simp only [leaves, List.flatMap_append, List.flatMap_cons, List.mem_append] at hx ⊢
      simp only [Ty.leaves, List.mem_append]
      have := mem_leaves_zip x ps qs
      simp only [leaves] at this
      grind
    · rw [unifies_cons, unifies_append, unifies_cons, unifies_zip hlen]
      simp [and_assoc]
  | solved hsides hfresh => exact .solved hsides hfresh

theorem not_unifies_of_bind {v : Int} {t : Ty} {rest : List Equation} {clash : Clash}
    (h : bind v t rest = .error clash) (f : Int → Ty) : f v ≠ t.subst f := by
  unfold bind at h
  split at h
  · cases h
  · rename_i hne
    split at h
    · rename_i ho
      exact Ty.subst_ne_of_occurs f (by simpa [Ty.occurs] using ho) hne
    · cases h

/-- A step is refused only on an equation without a solution. -/
theorem not_unifies_of_step {l r : Ty} {rest : List Equation} {clash : Clash}
    (h : step l r rest = .error clash) (f : Int → Ty) : l.subst f ≠ r.subst f := by
  unfold step at h
  split at h
  · exact not_unifies_of_bind h f
  · exact (not_unifies_of_bind h f).symm
  · split at h
    · cases h
    · rename_i hc
      simpa using hc
  · rename_i ps r qs q
    split at h
    · cases h
    · rename_i hl
      intro he
      simp only [Ty.subst_fn, Ty.fn.injEq] at he
      exact hl (by simpa using congrArg List.length he.1)
  · rename_i hv hw hc hf
    cases l <;> cases r <;> simp_all
    exact absurd rfl (hf _ _ _ _ rfl rfl rfl)

/-! ## All steps -/

/-- What is found by solving equations on top of a substitution. -/
structure Found (eqs : List Equation) (s s' : Subst) : Prop where
  solved : s'.Solved
  keys : ∀ v ∈ s'.keys, v ∈ s.keys ∨ v ∈ leaves eqs
  mentioned : ∀ v ∈ s'.mentioned, v ∈ s.mentioned ∨ v ∈ leaves eqs
  /-- What was solved before stays solved. -/
  keeps : s.Absorbs s'.image
  unifies : Unifies s'.image eqs
  /-- A solution that fits what was solved before fits all that is solved now. -/
  general : ∀ f, Unifies f eqs → s.Absorbs f → s'.Absorbs f

theorem found_nil {s : Subst} (h : s.Solved) : Found [] s s := by
  exact ⟨h, fun v hv => Or.inl hv, fun v hv => Or.inl hv, h.absorbs, unifies_nil _,
    fun f _ hf => hf⟩

theorem found_of_apart {l r : Ty} {rest eqs : List Equation} {s s' : Subst}
    (hl : ∀ x ∈ leaves eqs, x ∈ leaves ((l, r) :: rest))
    (hu : ∀ f, Unifies f ((l, r) :: rest) ↔ Unifies f eqs) (h : Found eqs s s') :
    Found ((l, r) :: rest) s s' :=
  ⟨h.solved, fun v hv => (h.keys v hv).imp_right (hl v),
    fun v hv => (h.mentioned v hv).imp_right (hl v), h.keeps, (hu _).2 h.unifies,
    fun f hf => h.general f ((hu f).1 hf)⟩

theorem leaves_of_sides {l r t : Ty} {v : Int} (rest : List Equation)
    (hs : (l = .var v ∧ r = t) ∨ (l = t ∧ r = .var v)) :
    v ∈ leaves ((l, r) :: rest) ∧ ∀ x ∈ t.leaves, x ∈ leaves ((l, r) :: rest) := by
  constructor
  · exact mem_leaves_of_mem (e := (l, r)) (by simp) (by rcases hs with ⟨rfl, -⟩ | ⟨-, rfl⟩ <;> simp)
  · intro x hx
    refine mem_leaves_of_mem (e := (l, r)) (by simp) ?_
    rcases hs with ⟨-, rfl⟩ | ⟨rfl, -⟩
    · exact Or.inr hx
    · exact Or.inl hx

theorem mem_leaves_of_replaced {l r t : Ty} {v : Int} {rest : List Equation}
    (hs : (l = .var v ∧ r = t) ∨ (l = t ∧ r = .var v)) {x : Int}
    (hx : x ∈ leaves (replaceAll v t rest)) : x ∈ leaves ((l, r) :: rest) := by
  rcases mem_leaves_replaceEquations hx with ⟨h, -⟩ | h
  · exact mem_leaves_tail h
  · exact (leaves_of_sides rest hs).2 x h

theorem mem_leaves_of_step {l r : Ty} {rest : List Equation} {p : Progress}
    (h : step l r rest = .ok p) {x : Int} (hx : x ∈ leaves p.rest) :
    x ∈ leaves ((l, r) :: rest) := by
  cases moved_of_step h with
  | apart hleaves _ => exact hleaves x hx
  | solved hsides _ => exact mem_leaves_of_replaced hsides hx

theorem solved_solve {s : Subst} {v : Int} {t : Ty} (h : s.Solved) (ht : v ∉ t.leaves)
    (hk : ∀ w ∈ s.keys, w ∉ t.leaves) : (s.solve v t).Solved := by
  intro w hw u hu hwu
  rw [Subst.mem_keys_solve] at hw
  rcases Subst.mem_values_solve hu with ⟨u, hmem, rfl⟩ | rfl
  · rcases mem_leaves_replace v t w u hwu with ⟨hwu, hne⟩ | hwt
    · rcases hw with hw | hw
      · exact h w hw u hmem hwu
      · exact hne hw
    · rcases hw with hw | rfl
      · exact hk w hw hwt
      · exact ht hwt
  · rcases hw with hw | rfl
    · exact hk w hw hwu
    · exact ht hwu

/-- A variable that is solved is gone from the equations that are left. -/
theorem not_mem_leaves_solve {l r t : Ty} {v : Int} {rest : List Equation} {s : Subst}
    (hs : (l = .var v ∧ r = t) ∨ (l = t ∧ r = .var v)) (hfresh : v ∉ t.leaves)
    (hk : ∀ w ∈ s.keys, w ∉ leaves ((l, r) :: rest)) :
    ∀ w ∈ (s.solve v t).keys, w ∉ leaves (replaceAll v t rest) := by
  intro w hw hx
  rcases Subst.mem_keys_solve.1 hw with hw | rfl
  · exact hk w hw (mem_leaves_of_replaced hs hx)
  · rcases mem_leaves_replaceEquations hx with ⟨-, hne⟩ | hx
    · exact hne rfl
    · exact hfresh hx

theorem mem_mentioned_solve {s : Subst} {v : Int} {t : Ty} {x : Int}
    (h : x ∈ (s.solve v t).mentioned) : x ∈ s.mentioned ∨ x = v ∨ x ∈ t.leaves := by
  rcases List.mem_append.1 h with h | h
  · exact (Subst.mem_keys_solve.1 h).imp Subst.keys_subset_mentioned Or.inl
  · obtain ⟨u, hu, hx⟩ := List.mem_flatMap.1 h
    rcases Subst.mem_values_solve hu with ⟨u, hmem, rfl⟩ | rfl
    · rcases mem_leaves_replace v t x u hx with ⟨hx, -⟩ | hx
      · exact Or.inl (Subst.mem_mentioned_of_value hmem hx)
      · exact Or.inr (Or.inr hx)
    · exact Or.inr (Or.inr hx)

theorem found_of_solved {l r t : Ty} {v : Int} {rest : List Equation} {s s' : Subst}
    (hs : (l = .var v ∧ r = t) ∨ (l = t ∧ r = .var v)) (hv : v ∉ s.keys)
    (h : Found (replaceAll v t rest) (s.solve v t) s') : Found ((l, r) :: rest) s s' := by
  obtain ⟨hvl, htl⟩ := leaves_of_sides rest hs
  have himage : s'.image v = t.subst s'.image := by
    have := h.keeps v
    rw [Subst.image_solve, Subst.image_of_not_mem hv] at this
    simpa [Ty.replace] using this.symm
  have hunify : ∀ f : Int → Ty, l.subst f = r.subst f ↔ f v = t.subst f := by
    intro f
    rcases hs with ⟨rfl, rfl⟩ | ⟨rfl, rfl⟩
    · exact Iff.rfl
    · exact eq_comm
  refine ⟨h.solved, fun w hw => ?_, fun w hw => ?_, fun w => ?_, ?_, ?_⟩
  · rcases h.keys w hw with hw | hw
    · rcases Subst.mem_keys_solve.1 hw with hw | rfl
      · exact Or.inl hw
      · exact Or.inr hvl
    · exact Or.inr (mem_leaves_of_replaced hs hw)
  · rcases h.mentioned w hw with hw | hw
    · rcases mem_mentioned_solve hw with hw | rfl | hw
      · exact Or.inl hw
      · exact Or.inr hvl
      · exact Or.inr (htl w hw)
    · exact Or.inr (mem_leaves_of_replaced hs hw)
  · have hw := h.keeps w
    rw [Subst.image_solve, Ty.subst_replace himage] at hw
    exact hw
  · exact unifies_cons.2 ⟨(hunify _).2 himage, (unifies_replaceAll himage rest).1 h.unifies⟩
  · intro f hf hsf
    obtain ⟨hlr, hrest⟩ := unifies_cons.1 hf
    have hfv := (hunify f).1 hlr
    apply h.general f ((unifies_replaceAll hfv rest).2 hrest)
    intro w
    rw [Subst.image_solve, Ty.subst_replace hfv]
    exact hsf w

/-- What is solved on top of a substitution, if none of its variables is left in the equations. -/
theorem found_of_solve {eqs : List Equation} {s s' : Subst} (hs : s.Solved)
    (hk : ∀ v ∈ s.keys, v ∉ leaves eqs) (h : solve eqs s = .ok s') : Found eqs s s' := by
  induction eqs, s using solve.induct with
  | case1 s =>
    rw [solve] at h
    cases h
    exact found_nil hs
  | case2 s l r rest clash hstep =>
    rw [solve, hstep] at h
    cases h
  | case3 s l r rest p hstep ih =>
    rw [solve, hstep] at h
    cases moved_of_step hstep with
    | apart hl hu => exact found_of_apart hl hu (ih hs (fun v hv hx => hk v hv (hl v hx)) h)
    | @solved v t hsides hfresh =>
      obtain ⟨hvl, htl⟩ := leaves_of_sides rest hsides
      have hv : v ∉ s.keys := fun hv => hk v hv hvl
      refine found_of_solved hsides hv (ih ?_ (not_mem_leaves_solve hsides hfresh hk) h)
      exact solved_solve hs hfresh fun w hw hwt => hk w hw (htl w hwt)

/-- Equations that have a solution are solved. -/
theorem exists_solve {eqs : List Equation} {f : Int → Ty} (hf : Unifies f eqs) (s : Subst) :
    ∃ s', solve eqs s = .ok s' := by
  induction eqs, s using solve.induct with
  | case1 s => exact ⟨s, by rw [solve]⟩
  | case2 s l r rest clash hstep =>
    exact absurd (unifies_cons.1 hf).1 (not_unifies_of_step hstep f)
  | case3 s l r rest p hstep ih =>
    rw [solve, hstep]
    apply ih
    cases moved_of_step hstep with
    | apart hl hu => exact (hu f).1 hf
    | @solved v t hsides hfresh =>
      obtain ⟨hlr, hrest⟩ := unifies_cons.1 hf
      have hfv : f v = t.subst f := by
        rcases hsides with ⟨rfl, rfl⟩ | ⟨rfl, rfl⟩
        · exact hlr
        · exact hlr.symm
      exact (unifies_replaceAll hfv rest).2 hrest

/-! ## Equations one after the other -/

/-- Equations solved one after the other, each with what is solved so far applied to it, and the
substitutions composed. There is no result if a substitution leads into a cycle. -/
def inTurn : List Equation → Subst → Option (Except Clash Subst)
  | [], s => some (.ok s)
  | (l, r) :: rest, s => do
    let l ← s.expand? l
    let r ← s.expand? r
    match unify l r with
    | .error clash => some (.error clash)
    | .ok u => inTurn rest (← u.compose? s)

/-- Equations with a replacement of variables applied. -/
def substAll (f : Int → Ty) (eqs : List Equation) : List Equation :=
  eqs.map fun e => (e.1.subst f, e.2.subst f)

theorem replaceAll_append (v : Int) (t : Ty) (front back : List Equation) :
    replaceAll v t (front ++ back) = replaceAll v t front ++ replaceAll v t back := by
  simp [replaceAll]

theorem substAll_replaceAll {f : Int → Ty} {v : Int} {t : Ty} (h : f v = t.subst f)
    (eqs : List Equation) : substAll f (replaceAll v t eqs) = substAll f eqs := by
  simp [substAll, replaceAll, Ty.subst_replace h]

/-- More equations after those that a step works on wait for what it solves. -/
theorem step_append (l r : Ty) (rest back : List Equation) :
    step l r (rest ++ back) =
      match step l r rest with
      | .error clash => .error clash
      | .ok p => .ok ⟨p.solved, p.rest ++
          match p.solved with
          | none => back
          | some (v, t) => replaceAll v t back⟩ := by
  have hbind : ∀ v t, bind v t (rest ++ back) =
      match bind v t rest with
      | .error clash => .error clash
      | .ok p => .ok ⟨p.solved, p.rest ++
          match p.solved with
          | none => back
          | some (v, t) => replaceAll v t back⟩ := by
    intro v t
    unfold bind
    split
    · rfl
    · split
      · rfl
      · simp [replaceAll_append]
  unfold step
  split
  · exact hbind _ _
  · exact hbind _ _
  · split <;> rfl
  · split
    · simp
    · rfl
  · rfl

theorem substAll_of_not_mem {s : Subst} {eqs : List Equation}
    (h : ∀ v ∈ s.keys, v ∉ leaves eqs) : substAll s.image eqs = eqs := by
  have he : ∀ e ∈ eqs, (e.1.subst s.image, e.2.subst s.image) = e := by
    intro e he
    rw [Subst.subst_of_not_mem fun v hv hk => h v hk (mem_leaves_of_mem he (Or.inl hv)),
      Subst.subst_of_not_mem fun v hv hk => h v hk (mem_leaves_of_mem he (Or.inr hv))]
  unfold substAll
  rw [List.map_congr_left he]
  exact List.map_id' eqs

theorem mem_leaves_append {front back : List Equation} {x : Int} :
    x ∈ leaves (front ++ back) ↔ x ∈ leaves front ∨ x ∈ leaves back := by
  simp [leaves]

/-- The front of the equations is solved first, and the rest with its solution applied. -/
theorem solve_append {front back : List Equation} {s : Subst} (hs : s.Solved)
    (hk : ∀ v ∈ s.keys, v ∉ leaves (front ++ back)) :
    solve (front ++ back) s =
      match solve front s with
      | .error clash => .error clash
      | .ok s' => solve (substAll s'.image back) s' := by
  induction front, s using solve.induct generalizing back with
  | case1 s =>
    rw [List.nil_append] at hk ⊢
    rw [solve]
    simp only [substAll_of_not_mem hk]
  | case2 s l r rest clash hstep =>
    rw [List.cons_append, solve, solve, step_append, hstep]
  | case3 s l r rest p hstep ih =>
    rw [List.cons_append, solve, solve, step_append, hstep]
    cases moved_of_step hstep with
    | apart hl hu =>
      refine ih hs fun v hv hx => hk v hv ?_
      rcases mem_leaves_append.1 hx with hx | hx
      · exact mem_leaves_append.2 (Or.inl (hl v hx))
      · exact mem_leaves_append.2 (Or.inr hx)
    | @solved v t hsides hfresh =>
      obtain ⟨hvl, htl⟩ := leaves_of_sides (rest ++ back) hsides
      have hv : v ∉ s.keys := fun hv => hk v hv hvl
      have hsolved := solved_solve hs hfresh fun w hw hwt => hk w hw (htl w hwt)
      rw [List.cons_append] at hk
      have hleft := not_mem_leaves_solve hsides hfresh hk
      rw [replaceAll_append] at hleft
      dsimp only
      rw [ih hsolved hleft]
      rcases hrun : solve (replaceAll v t rest) (s.solve v t) with clash | s'
      · rfl
      · have hfound := found_of_solve hsolved
          (fun w hw hx => hleft w hw (mem_leaves_append.2 (Or.inl hx))) hrun
        have himage : s'.image v = t.subst s'.image := by
          have := hfound.keeps v
          rw [Subst.image_solve, Subst.image_of_not_mem hv] at this
          simpa [Ty.replace] using this.symm
        simp only [substAll_replaceAll himage]

theorem replace_subst_image (s : Subst) (v : Int) (t u : Ty) :
    (u.subst s.image).replace v t = u.subst (s.solve v t).image := by
  unfold Ty.replace
  rw [Ty.subst_subst]
  exact Ty.subst_congr fun w _ => (Subst.image_solve s v t w).symm

theorem solve_joined (s base : Subst) (v : Int) (t : Ty) :
    (Subst.joined s base).solve v t = Subst.joined (s.solve v t) base := by
  have hmap : (base.map (Ty.subst s.image)).map (·.replace v t) =
      base.map (Ty.subst (s.solve v t).image) := by
    rw [Table.map_map]
    exact Table.map_congr fun u _ => replace_subst_image s v t u
  unfold Subst.joined
  rw [Subst.solve, Table.map_append, hmap, Table.append_assoc, Subst.solve]

/-- What is solved already has no part in solving more: its images only follow. -/
theorem solve_eq_joined (eqs : List Equation) (s base : Subst) :
    solve eqs (Subst.joined s base) =
      match solve eqs s with
      | .error clash => .error clash
      | .ok u => .ok (Subst.joined u base) := by
  induction eqs, s using solve.induct with
  | case1 s => rw [solve, solve]
  | case2 s l r rest clash hstep => rw [solve, solve, hstep]
  | case3 s l r rest p hstep ih =>
    rw [solve, solve, hstep]
    dsimp only
    rw [← ih]
    rcases p.solved with _ | ⟨v, t⟩
    · rfl
    · dsimp only
      rw [solve_joined]

theorem joined_empty (s : Subst) : Subst.joined Subst.empty s = s := by
  unfold Subst.joined
  rw [Subst.image_empty, Table.map_eq_self fun t _ => Ty.subst_var_self t]
  exact Table.append_empty s

/-- Solving equations one after the other ends, and comes to the same as solving all at once. -/
theorem inTurn_eq_solve (eqs : List Equation) {s : Subst} (hs : s.Solved) :
    inTurn eqs s = some (solve (substAll s.image eqs) s) := by
  induction eqs generalizing s with
  | nil => simp [inTurn, substAll, solve]
  | cons e rest ih =>
    obtain ⟨l, r⟩ := e
    have hkeys : ∀ v ∈ s.keys, ∀ eqs, v ∉ leaves (substAll s.image eqs) := by
      intro v hv eqs hx
      simp only [leaves, substAll, List.flatMap_map, List.mem_flatMap, List.mem_append] at hx
      obtain ⟨e, -, hx⟩ := hx
      rcases hx with hx | hx <;> exact hs.not_mem_subst hx hv
    have hfront : ∀ v ∈ s.keys, v ∉ leaves [(l.subst s.image, r.subst s.image)] :=
      fun v hv => hkeys v hv [(l, r)]
    have happ := @solve_append [(l.subst s.image, r.subst s.image)] (substAll s.image rest) s hs
      fun v hv => hkeys v hv ((l, r) :: rest)
    have hjoin := solve_eq_joined [(l.subst s.image, r.subst s.image)] Subst.empty s
    rw [joined_empty] at hjoin
    have hcons : substAll s.image ((l, r) :: rest) =
        [(l.subst s.image, r.subst s.image)] ++ substAll s.image rest := rfl
    rw [inTurn, hs.expand?, hs.expand?, hcons, happ, hjoin]
    simp only [Option.bind_eq_bind, Option.bind_some, unify]
    rcases hrun : solve [(l.subst s.image, r.subst s.image)] Subst.empty with clash | u
    · rfl
    · have hu := found_of_solve Subst.solved_empty (by simp [Subst.empty]) hrun
      rw [hrun] at hjoin
      have hf := found_of_solve hs hfront hjoin
      have hclear : Subst.LeavesAlone u s := by
        intro v hv hk
        rcases hu.mentioned v hv with hv | hv
        · cases hv
        · exact hfront v hk hv
      have hkeep : substAll (Subst.joined u s).image (substAll s.image rest) =
          substAll (Subst.joined u s).image rest := by
        simp only [substAll, List.map_map]
        apply List.map_congr_left
        intro e _
        simp only [Function.comp_apply, hf.keeps.subst]
      simp only [Subst.compose?_eq_joined hu.solved hclear, Option.bind_some, hkeep]
      exact ih hf.solved

end Unify

/-! ## The unifier of two types -/

/-- What unification of two types finds, if it finds something. -/
theorem found_of_unify {a b : Ty} {s : Subst} (h : unify a b = .ok s) :
    Unify.Found [(a, b)] Subst.empty s :=
  Unify.found_of_solve Subst.solved_empty (by simp [Subst.empty]) h

theorem mem_of_unify {a b : Ty} {s : Subst} (h : unify a b = .ok s) {v : Int}
    (hv : v ∈ s.mentioned) : v ∈ a.leaves ∨ v ∈ b.leaves := by
  rcases (found_of_unify h).mentioned v hv with hv | hv
  · cases hv
  · simpa [Unify.leaves] using hv

theorem unify_unifies {a b : Ty} {s : Subst} (h : unify a b = .ok s) :
    a.subst s.image = b.subst s.image :=
  (Unify.unifies_cons.1 (found_of_unify h).unifies).1

/-- The replacements that make the types equal are those after which the unifier changes nothing. -/
theorem absorbs_unifier {a b : Ty} {s : Subst} (h : unify a b = .ok s) {f : Int → Ty} :
    s.Absorbs f ↔ a.subst f = b.subst f := by
  constructor
  · intro hf
    rw [← hf.subst a, unify_unifies h, hf.subst b]
  · intro hf
    have hu : Unify.Unifies f [(a, b)] := Unify.unifies_cons.2 ⟨hf, Unify.unifies_nil f⟩
    exact (found_of_unify h).general f hu (Subst.absorbs_empty f)

theorem exists_unify {a b : Ty} {f : Int → Ty} (hf : a.subst f = b.subst f) :
    ∃ s, unify a b = .ok s :=
  Unify.exists_solve (Unify.unifies_cons.2 ⟨hf, Unify.unifies_nil f⟩) Subst.empty

theorem inTurn_eq_unify {ps qs : List Ty} (r q : Ty) (h : ps.length = qs.length) :
    Unify.inTurn (ps.zip qs ++ [(r, q)]) Subst.empty = some (unify (.fn ps r) (.fn qs q)) := by
  have hall : Unify.substAll Subst.empty.image (ps.zip qs ++ [(r, q)]) = ps.zip qs ++ [(r, q)] :=
    Unify.substAll_of_not_mem (by simp [Subst.empty])
  have hstep : Unify.step (.fn ps r) (.fn qs q) [] = .ok ⟨none, ps.zip qs ++ [(r, q)]⟩ := by
    simp [Unify.step, h]
  rw [Unify.inTurn_eq_solve _ Subst.solved_empty, hall, unify, Unify.solve, hstep]

/-- Unification always ends: the parts of function types, taken in turn with what is solved so far
applied, are solved as well. It succeeds exactly on types that have a common instance. What it
finds makes them equal, speaks of no other variables than theirs, replaces no variable that it
puts in, and is part of every replacement that makes them equal. -/
theorem unify_finds_a_most_general_unifier (a b : Ty) :
    (∀ ps r qs q, a = .fn ps r → b = .fn qs q → ps.length = qs.length →
      Unify.inTurn (ps.zip qs ++ [(r, q)]) Subst.empty = some (unify a b)) ∧
    ((∃ s, unify a b = .ok s) ↔ ∃ f : Int → Ty, a.subst f = b.subst f) ∧
    ∀ s, unify a b = .ok s →
      (∃ t, s.expand? a = some t ∧ s.expand? b = some t) ∧
      (∀ v ∈ s.keys, v ∈ a.leaves ∨ v ∈ b.leaves) ∧
      (∀ t ∈ s.values, ∀ v ∈ t.leaves, v ∈ a.leaves ∨ v ∈ b.leaves) ∧
      (∀ v ∈ s.keys, ∀ t ∈ s.values, v ∉ t.leaves) ∧
      ∀ f : Int → Ty, a.subst f = b.subst f →
        ∀ t, ∃ u, s.expand? t = some u ∧ u.subst f = t.subst f := by
  refine ⟨?_, ?_, fun s h => ?_⟩
  · rintro ps r qs q rfl rfl hlen
    exact inTurn_eq_unify r q hlen
  · exact ⟨fun ⟨s, h⟩ => ⟨s.image, unify_unifies h⟩, fun ⟨f, hf⟩ => exists_unify hf⟩
  · have hs := (found_of_unify h).solved
    refine ⟨⟨a.subst s.image, hs.expand? a, ?_⟩, fun v hv => ?_, fun t ht v hv => ?_, hs, ?_⟩
    · rw [unify_unifies h]
      exact hs.expand? b
    · exact mem_of_unify h (Subst.keys_subset_mentioned hv)
    · exact mem_of_unify h (Subst.mem_mentioned_of_value ht hv)
    · intro f hf t
      exact ⟨t.subst s.image, hs.expand? t, ((absorbs_unifier h).2 hf).subst t⟩

/-- Two function types with variables shared across their parts. -/
theorem unify_finds_a_most_general_unifier_of_shared_variables :
    let a := Ty.fn [.var 0, .fn [.var 1] .bool] (.var 0)
    let b := Ty.fn [.fn [.var 2] .number, .var 3] (.fn [.var 1] (.var 4))
    let f : Int → Ty := fun v =>
      if v = 0 then .fn [.unit] .number
      else if v = 3 then .fn [.unit] .bool
      else if v = 4 then .number
      else .unit
    a.subst f = b.subst f ∧
      ∃ s, unify a b = .ok s ∧ (∃ t, s.expand? a = some t ∧ s.expand? b = some t) ∧
        ∀ t, ∃ u, s.expand? t = some u ∧ u.subst f = t.subst f := by
  intro a b f
  have hf : a.subst f = b.subst f := by decide
  obtain ⟨-, hiff, hfound⟩ := unify_finds_a_most_general_unifier a b
  obtain ⟨s, hs⟩ := hiff.2 ⟨f, hf⟩
  obtain ⟨hequal, -, -, -, hgeneral⟩ := hfound s hs
  exact ⟨hf, s, hs, hequal, hgeneral f hf⟩

end LetPoly
