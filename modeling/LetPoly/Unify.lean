-- Most general unifiers, found by solving a list of equations from the front.
-- Each step either solves a variable, which then is gone from the equations, or
-- makes the equations smaller.
import LetPoly.Subst

namespace LetPoly

/-- Why two types have no common instance. -/
inductive Clash where
  | mismatch (expected actual : Ty)
  | arity (expected actual : Nat)
  | infinite (var : Int) (type : Ty)
deriving DecidableEq, Repr, Inhabited

/-- Two types that should become equal: what is expected and what was found. -/
abbrev Equation := Ty × Ty

namespace Unify

/-! ## One step -/

/-- What a step on the first equation gives: perhaps a variable solved, and the equations left. -/
structure Progress where
  solved : Option (Int × Ty)
  rest : List Equation
deriving Repr, Inhabited

/-- Equations with one variable replaced. -/
def replaceAll (v : Int) (t : Ty) (eqs : List Equation) : List Equation :=
  eqs.map fun (l, r) => (l.replace v t, r.replace v t)

/-- A variable solved, unless it stands inside the type it should equal. -/
def bind (v : Int) (t : Ty) (rest : List Equation) : Except Clash Progress :=
  if t = .var v then .ok ⟨none, rest⟩
  else if t.occurs v then .error (.infinite v t)
  else .ok ⟨some (v, t), replaceAll v t rest⟩

/-- One step on the equation of `expected` and `actual`, before the equations `rest`. -/
def step (expected actual : Ty) (rest : List Equation) : Except Clash Progress :=
  match expected, actual with
  | .var v, t => bind v t rest
  | t, .var v => bind v t rest
  | .con c, .con d => if c = d then .ok ⟨none, rest⟩ else .error (.mismatch (.con c) (.con d))
  | .fn ps r, .fn qs q =>
    if ps.length = qs.length then .ok ⟨none, ps.zip qs ++ (r, q) :: rest⟩
    else .error (.arity ps.length qs.length)
  | l, r => .error (.mismatch l r)

/-! ## Steps make progress -/

mutual

/-- The number of nodes of a type. -/
def size : Ty → Nat
  | .var _ => 1
  | .con _ => 1
  | .fn params result => 1 + sizeAll params + size result

/-- The number of nodes of types. -/
def sizeAll : List Ty → Nat
  | [] => 0
  | t :: more => size t + sizeAll more

end

/-- The number of nodes of equations. -/
def weight : List Equation → Nat
  | [] => 0
  | (l, r) :: rest => size l + size r + weight rest

/-- The variables of equations. -/
def leaves (eqs : List Equation) : List Int :=
  eqs.flatMap fun (l, r) => l.leaves ++ r.leaves

/-- The number of different variables of equations. -/
def unknowns (eqs : List Equation) : Nat :=
  (Ascending.ofList (leaves eqs)).length

mutual

theorem mem_leaves_replace (v : Int) (t : Ty) (x : Int) :
    (u : Ty) → x ∈ (u.replace v t).leaves → (x ∈ u.leaves ∧ x ≠ v) ∨ x ∈ t.leaves
  | .var w => by
    unfold Ty.replace
    by_cases h : w = v <;> simp [Ty.subst, Ty.leaves, h]
    grind
  | .con c => by simp [Ty.replace, Ty.subst, Ty.leaves]
  | .fn params result => by
    have hp := mem_leaves_replaceAll v t x params
    have hr := mem_leaves_replace v t x result
    simp only [Ty.replace, Ty.subst, Ty.leaves, List.mem_append] at hp hr ⊢
    grind

theorem mem_leaves_replaceAll (v : Int) (t : Ty) (x : Int) :
    (us : List Ty) → x ∈ Ty.leavesAll (Ty.substAll (fun w => if w = v then t else .var w) us) →
      (x ∈ Ty.leavesAll us ∧ x ≠ v) ∨ x ∈ t.leaves
  | [] => by simp [Ty.substAll, Ty.leavesAll]
  | u :: us => by
    have hu := mem_leaves_replace v t x u
    have hs := mem_leaves_replaceAll v t x us
    simp only [Ty.replace, Ty.substAll, Ty.leavesAll, List.mem_append] at hu hs ⊢
    grind

end

theorem mem_leaves_of_mem {e : Equation} {eqs : List Equation} (h : e ∈ eqs) {x : Int}
    (hx : x ∈ e.1.leaves ∨ x ∈ e.2.leaves) : x ∈ leaves eqs := by
  simp only [leaves, List.mem_flatMap]
  exact ⟨e, h, by simpa using hx⟩

theorem mem_leaves_replaceEquations {v : Int} {t : Ty} {eqs : List Equation} {x : Int}
    (hx : x ∈ leaves (replaceAll v t eqs)) : (x ∈ leaves eqs ∧ x ≠ v) ∨ x ∈ t.leaves := by
  simp only [leaves, replaceAll, List.flatMap_map, List.mem_flatMap, List.mem_append] at hx
  obtain ⟨eq, heq, hx⟩ := hx
  rcases hx with hx | hx
  · rcases mem_leaves_replace v t x eq.1 hx with ⟨h1, h2⟩ | h1
    · exact Or.inl ⟨mem_leaves_of_mem heq (Or.inl h1), h2⟩
    · exact Or.inr h1
  · rcases mem_leaves_replace v t x eq.2 hx with ⟨h1, h2⟩ | h1
    · exact Or.inl ⟨mem_leaves_of_mem heq (Or.inr h1), h2⟩
    · exact Or.inr h1

/-- Replacing a variable that its image does not hold removes it from the equations. -/
theorem unknowns_replaceAll {v : Int} {t : Ty} (h : t.occurs v = false) {eqs before : List Equation}
    (hv : v ∈ leaves before) (ht : ∀ x ∈ t.leaves, x ∈ leaves before)
    (hs : ∀ x ∈ leaves eqs, x ∈ leaves before) :
    unknowns (replaceAll v t eqs) < unknowns before := by
  have hvt : v ∉ t.leaves := by simpa [Ty.occurs] using h
  refine Ascending.length_ofList_lt (fun x hx => ?_) hv (fun hc => ?_)
  · rcases mem_leaves_replaceEquations hx with ⟨h1, _⟩ | h1
    · exact hs x h1
    · exact ht x h1
  · rcases mem_leaves_replaceEquations hc with ⟨_, h2⟩ | h1
    · exact h2 rfl
    · exact hvt h1

theorem size_pos (t : Ty) : 0 < size t := by
  cases t <;> simp only [size] <;> omega

theorem weight_zip : (ps qs : List Ty) → ps.length = qs.length →
    weight (ps.zip qs) = sizeAll ps + sizeAll qs
  | [], [], _ => rfl
  | p :: ps, q :: qs, h => by
    have ih := weight_zip ps qs (by simpa using h)
    simp only [List.zip_cons_cons, weight, sizeAll]
    omega

theorem weight_append (front back : List Equation) :
    weight (front ++ back) = weight front + weight back := by
  induction front with
  | nil => simp [weight]
  | cons eq rest ih => simp [weight, ih, Nat.add_assoc]

theorem mem_leaves_zip (x : Int) : (ps qs : List Ty) →
    x ∈ leaves (ps.zip qs) → x ∈ Ty.leavesAll ps ∨ x ∈ Ty.leavesAll qs
  | [], _ => by simp [leaves]
  | _ :: _, [] => by simp [leaves]
  | p :: ps, q :: qs => by
    have ih := mem_leaves_zip x ps qs
    simp only [leaves, List.zip_cons_cons, List.flatMap_cons, List.mem_append, Ty.leavesAll] at ih ⊢
    grind

/-- The order in which equations get simpler: fewer unknowns, or no more unknowns and less
weight. -/
def Simpler (after before : List Equation) : Prop :=
  Prod.Lex (· < ·) (· < ·) (unknowns after, weight after) (unknowns before, weight before)

theorem simpler_of_unknowns_lt {after before : List Equation}
    (h : unknowns after < unknowns before) : Simpler after before :=
  .left _ _ h

theorem simpler_of_weight_lt {after before : List Equation}
    (hs : ∀ x ∈ leaves after, x ∈ leaves before) (hw : weight after < weight before) :
    Simpler after before := by
  have h := Ascending.length_ofList_le hs
  rcases Nat.lt_or_eq_of_le h with h | h
  · exact .left _ _ h
  · have h : unknowns after = unknowns before := h
    unfold Simpler
    rw [h]
    exact .right _ hw

theorem simpler_tail (l r : Ty) (rest : List Equation) : Simpler rest ((l, r) :: rest) := by
  refine simpler_of_weight_lt (fun x hx => ?_) ?_
  · simp only [leaves, List.flatMap_cons, List.mem_append]
    exact Or.inr hx
  · have := size_pos l
    simp only [weight]
    omega

theorem simpler_of_bind {v : Int} {t l r : Ty} {rest : List Equation} {p : Progress}
    (hv : v ∈ l.leaves ∨ v ∈ r.leaves) (ht : ∀ x ∈ t.leaves, x ∈ l.leaves ∨ x ∈ r.leaves)
    (h : bind v t rest = .ok p) : Simpler p.rest ((l, r) :: rest) := by
  unfold bind at h
  split at h
  · cases h
    exact simpler_tail l r rest
  · split at h
    · cases h
    · rename_i ho
      cases h
      refine simpler_of_unknowns_lt (unknowns_replaceAll (by simpa using ho) ?_ ?_ ?_)
      · exact mem_leaves_of_mem (e := (l, r)) (by simp) hv
      · exact fun x hx => mem_leaves_of_mem (e := (l, r)) (by simp) (ht x hx)
      · intro x hx
        simp only [leaves, List.flatMap_cons, List.mem_append]
        exact Or.inr hx

/-- Every step leaves simpler equations. -/
theorem simpler_of_step {l r : Ty} {rest : List Equation} {p : Progress}
    (h : step l r rest = .ok p) : Simpler p.rest ((l, r) :: rest) := by
  unfold step at h
  split at h
  · exact simpler_of_bind (by simp [Ty.leaves]) (by grind) h
  · exact simpler_of_bind (by simp [Ty.leaves]) (by grind) h
  · split at h
    · cases h
      exact simpler_tail _ _ rest
    · cases h
  · rename_i ps r qs q
    split at h
    · rename_i hl
      cases h
      refine simpler_of_weight_lt (fun x hx => ?_) ?_
      · simp only [leaves, List.flatMap_append, List.flatMap_cons, List.mem_append] at hx ⊢
        simp only [Ty.leaves, List.mem_append]
        have := mem_leaves_zip x ps qs
        simp only [leaves] at this
        grind
      · rw [weight_append, weight_zip ps qs hl]
        simp only [weight, size]
        omega
    · cases h
  · cases h

/-! ## All steps -/

/-- The solution of equations, on top of what is solved already. -/
def solve (eqs : List Equation) (s : Subst) : Except Clash Subst :=
  match eqs with
  | [] => .ok s
  | (l, r) :: rest =>
    match _h : step l r rest with
    | .error clash => .error clash
    | .ok p =>
      solve p.rest (match p.solved with
        | some (v, t) => s.solve v t
        | none => s)
termination_by (unknowns eqs, weight eqs)
decreasing_by exact simpler_of_step ‹_›

/-- The equations compared on the way to the solution, in order. -/
def compared (eqs : List Equation) : List Equation :=
  match eqs with
  | [] => []
  | (l, r) :: rest =>
    (l, r) ::
      match _h : step l r rest with
      | .error _ => []
      | .ok p => compared p.rest
termination_by (unknowns eqs, weight eqs)
decreasing_by exact simpler_of_step ‹_›

end Unify

/-- A most general unifier of two types. -/
def unify (expected actual : Ty) : Except Clash Subst :=
  Unify.solve [(expected, actual)] Subst.empty

end LetPoly
