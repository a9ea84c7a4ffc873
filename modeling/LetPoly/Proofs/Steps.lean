-- The laws of steps: computations that keep a state and may end in an error. Each
-- small step of inference gets one law that says what it answers and how far it
-- moves the supply of variables; the record of what happened is left out of it.
import LetPoly.Infer
import LetPoly.Proofs.VariableSupply

namespace LetPoly

/-! ## What a step leads to -/

section

variable {ε σ τ α β : Type} {view : σ → τ} {n n' : τ} {x : EStateM ε σ α} {k : α → EStateM ε σ β}
  {P P' : α → τ → Prop} {Q : β → τ → Prop} {E E' : ε → Prop}

/-- From each state that shows the given value, a step leads to an answer and a state as the first
condition says, or to an error as the second one says. -/
def Leads (view : σ → τ) (x : EStateM ε σ α) (n : τ) (P : α → τ → Prop) (E : ε → Prop) : Prop :=
  ∀ s, view s = n → match x s with
    | .ok a s' => P a (view s')
    | .error e _ => E e

/-- From each state that shows the given value, a step leads to the given answer and to a state
that shows the given value. -/
def Returns (view : σ → τ) (x : EStateM ε σ α) (n : τ) (a : α) (n' : τ) : Prop :=
  ∀ s, view s = n → ∃ s', x s = .ok a s' ∧ view s' = n'

theorem leads_pure {a : α} (h : P a n) : Leads view (pure a : EStateM ε σ α) n P E := by
  rintro s rfl
  exact h

theorem leads_throw {e : ε} (h : E e) : Leads view (throw e : EStateM ε σ α) n P E :=
  fun _ _ => h

theorem bind_of_ok {s s' : σ} {a : α} (h : x s = .ok a s') : (x >>= k) s = k a s' := by
  show EStateM.bind x k s = k a s'
  rw [EStateM.bind, h]

theorem bind_of_error {s s' : σ} {e : ε} (h : x s = .error e s') :
    (x >>= k) s = .error e s' := by
  show EStateM.bind x k s = .error e s'
  rw [EStateM.bind, h]

theorem Leads.bind (hx : Leads view x n P E) (hk : ∀ a n', P a n' → Leads view (k a) n' Q E) :
    Leads view (x >>= k) n Q E := by
  intro s hs
  have h := hx s hs
  rcases hr : x s with ⟨a, s'⟩ | ⟨e, s'⟩
  · rw [hr] at h
    rw [bind_of_ok hr]
    exact hk a _ h s' rfl
  · rw [hr] at h
    rw [bind_of_error hr]
    exact h

theorem Returns.bind {a : α} (hx : Returns view x n a n') (hk : Leads view (k a) n' Q E) :
    Leads view (x >>= k) n Q E := by
  intro s hs
  obtain ⟨s', he, hs'⟩ := hx s hs
  rw [bind_of_ok he]
  exact hk s' hs'

theorem Returns.leads {a : α} (hx : Returns view x n a n') (h : P a n') : Leads view x n P E := by
  intro s hs
  obtain ⟨s', he, rfl⟩ := hx s hs
  rw [he]
  exact h

theorem Leads.imp (hx : Leads view x n P E) (hP : ∀ a n', P a n' → P' a n') :
    Leads view x n P' E := by
  intro s hs
  have h := hx s hs
  rcases hr : x s with ⟨a, s'⟩ | ⟨e, s'⟩
  · rw [hr] at h
    exact hP a _ h
  · rw [hr] at h
    exact h

theorem Leads.imp_error (hx : Leads view x n P E) (hE : ∀ e, E e → E' e) :
    Leads view x n P E' := by
  intro s hs
  have h := hx s hs
  rcases hr : x s with ⟨a, s'⟩ | ⟨e, s'⟩
  · rw [hr] at h
    exact h
  · rw [hr] at h
    exact hE e h

/-- An answer is as the condition says, whatever the errors are. -/
theorem Leads.anyway (hx : Leads view x n P E) : Leads view x n P fun _ => True :=
  hx.imp_error fun _ _ => trivial

theorem Leads.and (hx : Leads view x n P E) (hx' : Leads view x n P' E') :
    Leads view x n (fun a n' => P a n' ∧ P' a n') E := by
  intro s hs
  have h := hx s hs
  have h' := hx' s hs
  rcases hr : x s with ⟨a, s'⟩ | ⟨e, s'⟩
  · rw [hr] at h h'
    exact ⟨h, h'⟩
  · rw [hr] at h
    exact h

/-- A step leads to one answer only, so what holds of the answer for each index holds for all at
once. -/
theorem Leads.forall {ι : Type} {I : ι → Prop} {P : ι → α → τ → Prop} (hI : ∃ i, I i)
    (hx : ∀ i, I i → Leads view x n (P i) E) :
    Leads view x n (fun a n' => ∀ i, I i → P i a n') E := by
  intro s hs
  rcases hr : x s with ⟨a, s'⟩ | ⟨e, s'⟩
  · intro i hi
    have h := hx i hi s hs
    rw [hr] at h
    exact h
  · obtain ⟨i, hi⟩ := hI
    have h := hx i hi s hs
    rw [hr] at h
    exact h

theorem Leads.of_ok (hx : Leads view x n P E) {s s' : σ} {a : α} (hs : view s = n)
    (hrun : x s = .ok a s') : P a (view s') := by
  have h := hx s hs
  rwa [hrun] at h

theorem Leads.exists_ok (hx : Leads view x n P fun _ => False) {s : σ} (hs : view s = n) :
    ∃ a s', x s = .ok a s' ∧ P a (view s') := by
  have h := hx s hs
  rcases hr : x s with ⟨a, s'⟩ | ⟨e, s'⟩
  · rw [hr] at h
    exact ⟨a, s', rfl, h⟩
  · rw [hr] at h
    exact h.elim

/-- The answer of a run, if it came to one. -/
def answer? : EStateM.Result ε σ α → Option α
  | .ok a _ => some a
  | .error _ _ => none

theorem exists_of_answer? {s : σ} {a : α} (h : answer? (x s) = some a) : ∃ s', x s = .ok a s' := by
  rcases hr : x s with ⟨b, s'⟩ | ⟨e, s'⟩
  · rw [hr] at h
    obtain rfl : b = a := Option.some.inj h
    exact ⟨s', rfl⟩
  · rw [hr] at h
    cases h

end

namespace Infer

/-- Each answer that a step gives is as the condition says. -/
abbrev Ensures {α : Type} (x : Infer α) (n : Int) (P : α → Int → Prop) : Prop :=
  Leads InferState.next x n P fun _ => True

/-- Each answer that a step gives is as the condition says, and no substitution leads into a
cycle. -/
abbrev Settles {α : Type} (x : Infer α) (n : Int) (P : α → Int → Prop) : Prop :=
  Leads InferState.next x n P (· ≠ .cyclic)

/-- A step gives an answer, and the answer is as the condition says. -/
abbrev Achieves {α : Type} (x : Infer α) (n : Int) (P : α → Int → Prop) : Prop :=
  Leads InferState.next x n P fun _ => False

/-! ## The small steps of inference -/

variable {n : Int}

theorem returns_noteAll (events : List Event) :
    Returns InferState.next (noteAll events) n () n :=
  fun _ hs => ⟨_, rfl, hs⟩

theorem returns_note (event : Event) : Returns InferState.next (note event) n () n :=
  returns_noteAll [event]

theorem returns_noteParams (position : Position) (slot : Nat) (params : List Param)
    (types : List Ty) : Returns InferState.next (noteParams position slot params types) n () n := by
  induction params generalizing slot types with
  | nil => exact fun s hs => ⟨s, rfl, hs⟩
  | cons p params ih =>
    cases types with
    | nil => exact fun s hs => ⟨s, rfl, hs⟩
    | cons t types =>
      intro s hs
      exact ih (slot + 1) types _ hs

theorem leads_conclude {site : Site} {s : Subst} {t : Ty} {P : Subst × Ty → Int → Prop}
    {E : InferFailure → Prop} (h : P (s, t) n) :
    Leads InferState.next (conclude site s t) n P E :=
  (returns_note _).bind (leads_pure h)

theorem returns_fresh : Returns InferState.next fresh n (.var n) (n + 1) := by
  rintro s rfl
  exact ⟨_, rfl, rfl⟩

/-- The given number of variables, from the given one on. -/
def freshVars (n : Int) : Nat → List Ty
  | 0 => []
  | k + 1 => .var n :: freshVars (n + 1) k

theorem length_freshVars (n : Int) (k : Nat) : (freshVars n k).length = k := by
  induction k generalizing n with
  | zero => rfl
  | succ k ih => simp [freshVars, ih]

theorem leaves_freshVars {n : Int} {k : Nat} {t : Ty} (ht : t ∈ freshVars n k) :
    ∀ v ∈ t.leaves, n ≤ v ∧ v < n + k := by
  induction k generalizing n with
  | zero => cases ht
  | succ k ih =>
    intro v hv
    rcases List.mem_cons.1 ht with rfl | ht
    · obtain rfl : v = n := by simpa using hv
      omega
    · have := ih ht v hv
      omega

theorem leaves_freshFn {n : Int} {k : Nat} {v : Int}
    (hv : v ∈ (Ty.fn (freshVars n k) (.var (n + k))).leaves) : n ≤ v ∧ v < n + k + 1 := by
  rw [Ty.leaves_fn, List.mem_append, List.mem_flatMap] at hv
  rcases hv with ⟨t, ht, hv⟩ | hv
  · have := leaves_freshVars ht v hv
    omega
  · obtain rfl : v = n + k := by simpa using hv
    omega

theorem returns_freshMany (k : Nat) :
    Returns InferState.next (freshMany k) n (freshVars n k) (n + k) := by
  induction k generalizing n with
  | zero => exact fun s hs => ⟨s, rfl, by simpa using hs⟩
  | succ k ih =>
    rintro s rfl
    obtain ⟨s', he, hs'⟩ := ih (n := s.next + 1) { s with next := s.next + 1 } rfl
    refine ⟨s', ?_, by omega⟩
    have hrun : freshMany (k + 1) s = (freshMany k >>= fun ts => pure (.var s.next :: ts))
      { s with next := s.next + 1 } := rfl
    rw [hrun, bind_of_ok he]
    rfl

theorem returns_orCyclic {α : Type} {o : Option α} {a : α} (h : o = some a) :
    Returns InferState.next (orCyclic o) n a n := by
  subst h
  exact fun s hs => ⟨s, rfl, hs⟩

theorem returns_apply {s : Subst} (h : s.Solved) (t : Ty) :
    Returns InferState.next (apply s t) n (t.subst s.image) n :=
  returns_orCyclic (h.expand? t)

theorem returns_applyAll {s : Subst} (h : s.Solved) (ts : List Ty) :
    Returns InferState.next (applyAll s ts) n (ts.map (Ty.subst s.image)) n :=
  returns_orCyclic (h.expandAll? ts)

theorem returns_applyEnv {s : Subst} (h : s.Solved) (env : Env) :
    Returns InferState.next (applyEnv s env) n (env.subst s.image) n :=
  returns_orCyclic (Env.expand?_eq_some h env)

theorem leads_unifyOr {expected actual : Ty} {blame : Clash → InferFailure}
    {E : InferFailure → Prop}
    (herr : ∀ clash, unify expected actual = .error clash → E (blame clash)) :
    Leads InferState.next (unifyOr expected actual blame) n
      (fun s m => m = n ∧ unify expected actual = .ok s) E := by
  refine (returns_noteAll _).bind ?_
  rcases h : unify expected actual with clash | s
  · exact leads_throw (herr clash h)
  · exact leads_pure ⟨rfl, rfl⟩

theorem leads_compose {env : Env} {m n₁ n₂ : Int} {s s₁ : Subst} (h : Tidy env m s n₁)
    (hn : n₁ ≤ n₂) (hs : s₁.Solved) (hm : ∀ v ∈ s₁.mentioned, Open env m s n₂ v)
    {E : InferFailure → Prop} :
    Leads InferState.next (compose s₁ s) n
      (fun both n' => n' = n ∧ Subst.Composed s₁ s both ∧ Tidy env m both n₂) E := by
  obtain ⟨both, he, hc, ht⟩ := h.compose hn hs hm
  exact (returns_orCyclic he).leads ⟨rfl, hc, ht⟩

/-- The unifier of types whose variables are open is composed with the substitution before it. -/
theorem leads_compose_unifier {env : Env} {m : Int} {s s₁ : Subst} (h : Tidy env m s n)
    {a b : Ty} (hu : unify a b = .ok s₁) (ha : ∀ v ∈ a.leaves, Open env m s n v)
    (hb : ∀ v ∈ b.leaves, Open env m s n v) {E : InferFailure → Prop} :
    Leads InferState.next (compose s₁ s) n
      (fun both n' => n' = n ∧ Subst.Composed s₁ s both ∧ Tidy env m both n) E :=
  leads_compose h (Int.le_refl n) (found_of_unify hu).solved fun v hv =>
    (mem_of_unify hu hv).elim (ha v) (hb v)

/-- What is answered in an environment of open variables is composed with the substitution before
it. -/
theorem leads_compose_later {env inner : Env} {m n₁ n₂ : Int} {s s₁ : Subst} (h : Tidy env m s n₁)
    (hb : env.Below m) (hi : ∀ v ∈ inner.freeVars, Open env m s n₁ v) (h₁ : Tidy inner n₁ s₁ n₂)
    {E : InferFailure → Prop} :
    Leads InferState.next (compose s₁ s) n
      (fun both n' => n' = n ∧ Subst.Composed s₁ s both ∧ Tidy env m both n₂) E :=
  leads_compose h h₁.le h₁.solved fun v hv => h.open_of_reach hb hi h₁.le (h₁.reach v hv)

/-! ## Instantiation -/

theorem returns_instantiate_of {scheme : Scheme} {t : Ty}
    (h : (scheme.freshen n).expand? scheme.body = some t) :
    Returns InferState.next (instantiate scheme) n t (n + scheme.quantified.length) := by
  rintro s rfl
  refine ⟨{ s with next := s.next + scheme.quantified.length }, ?_, rfl⟩
  show orCyclic ((scheme.freshen s.next).expand? scheme.body) _ = _
  rw [h]
  rfl

theorem returns_instantiate {scheme : Scheme}
    (h : (∀ v ∈ scheme.quantified, v < n) ∨ ∃ v, scheme.quantified = [v]) :
    Returns InferState.next (instantiate scheme) n (scheme.opened n)
      (n + scheme.quantified.length) :=
  returns_instantiate_of ((Scheme.direct_freshen h).expand? scheme.body)

end Infer

end LetPoly
