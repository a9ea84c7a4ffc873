-- Where applying a substitution comes to an end. A bound variable leads to the variables
-- of its image, and applying follows all of them. It ends unless a cycle of bindings can
-- be reached from the type, and what it gives holds no variable that leads any further.
import Mathlib.Data.List.Chain
import LetPoly.Proofs.Substitutions

namespace LetPoly

open Relation (ReflTransGen TransGen)

namespace Ty

/-! ## Replacements that are missing -/

variable {f : Int → Option Ty}

theorem substAll?_eq_none {ts : List Ty} :
    substAll? f ts = none ↔ ∃ t ∈ ts, t.subst? f = none := by
  induction ts with
  | nil => simp [substAll?]
  | cons t more ih =>
    rw [substAll?]
    rcases ht : t.subst? f with _ | u
    · simp [ht]
    · rcases hmore : substAll? f more with _ | us
      · simpa [ht] using ih.1 hmore
      · simpa [ht, hmore] using ih

/-- A replacement of all variables fails just where it is missing for one of them. -/
theorem subst?_eq_none {t : Ty} : t.subst? f = none ↔ ∃ v ∈ t.leaves, f v = none := by
  induction t with
  | var v => simp [subst?]
  | con c => simp [subst?]
  | fn params result ihp ihr =>
    have hparams : substAll? f params = none ↔ ∃ v ∈ params.flatMap leaves, f v = none := by
      rw [substAll?_eq_none]
      constructor
      · rintro ⟨p, hp, h⟩
        obtain ⟨v, hv, hf⟩ := (ihp p hp).1 h
        exact ⟨v, List.mem_flatMap.2 ⟨p, hp, hv⟩, hf⟩
      · rintro ⟨v, hv, hf⟩
        obtain ⟨p, hp, hv⟩ := List.mem_flatMap.1 hv
        exact ⟨p, hp, (ihp p hp).2 ⟨v, hv, hf⟩⟩
    rw [leaves_fn, subst?]
    simp only [List.mem_append, or_and_right, exists_or, ← hparams, ← ihr]
    rcases substAll? f params with _ | ps
    · simp
    · rcases result.subst? f with _ | r <;> simp

/-- A replacement that goes through is one by a type for each variable. -/
theorem exists_of_subst? {t u : Ty} (h : t.subst? f = some u) :
    ∃ g, (∀ v ∈ t.leaves, f v = some (g v)) ∧ u = t.subst g := by
  have hall : ∀ v ∈ t.leaves, f v = some ((f v).getD (.var v)) := by
    intro v hv
    rcases hf : f v with _ | w
    · have hnone := subst?_eq_none.2 ⟨v, hv, hf⟩
      simp [hnone] at h
    · rfl
  refine ⟨fun v => (f v).getD (.var v), hall, ?_⟩
  rw [subst?_eq_some hall] at h
  exact (Option.some.inj h).symm

end Ty

namespace Subst

variable {s : Subst}

/-! ## Applying, by rules -/

mutual

/-- What becomes of a type. A variable that is unbound or bound to itself stays, and any other
becomes what becomes of its image. There is a derivation just where following the images comes to
an end. -/
inductive Becomes (s : Subst) : Ty → Ty → Prop
  | unbound {v : Int} : s.get? v = none → Becomes s (.var v) (.var v)
  | itself {v : Int} : s.get? v = some (.var v) → Becomes s (.var v) (.var v)
  | followed {v : Int} {t u : Ty} : s.get? v = some t → t ≠ .var v → Becomes s t u →
    Becomes s (.var v) u
  | con {c : String} : Becomes s (.con c) (.con c)
  | fn {params params' : List Ty} {result result' : Ty} : BecomeAll s params params' →
    Becomes s result result' → Becomes s (.fn params result) (.fn params' result')

/-- What becomes of types, one by one. -/
inductive BecomeAll (s : Subst) : List Ty → List Ty → Prop
  | nil : BecomeAll s [] []
  | cons {t u : Ty} {ts us : List Ty} : Becomes s t u → BecomeAll s ts us →
    BecomeAll s (t :: ts) (u :: us)

end

/-! ## Where bindings lead -/

/-- A variable that is bound, and not to itself, leads to every variable of its image. -/
def Leads (s : Subst) (v w : Int) : Prop := ∃ t, s.get? v = some t ∧ t ≠ .var v ∧ w ∈ t.leaves

/-- Some variable of a type leads, in any number of steps, to one that leads back to itself. -/
def ReachesCycle (s : Subst) (t : Ty) : Prop :=
  ∃ v ∈ t.leaves, ∃ w, ReflTransGen s.Leads v w ∧ TransGen s.Leads w w

theorem image?_eq_some {v : Int} {t : Ty} :
    s.image? v = some t ↔ s.get? v = some t ∧ t ≠ .var v := by
  unfold image?
  split
  · rename_i u hu
    by_cases hself : u = .var v
    · simp only [hself, if_true, hu, Option.some.injEq, reduceCtorEq, false_iff]
      rintro ⟨rfl, hne⟩
      exact hne rfl
    · simp only [hself, if_false, hu, Option.some.injEq]
      exact ⟨fun h => ⟨h, h ▸ hself⟩, And.left⟩
  · rename_i hu
    simp [hu]

theorem image?_eq_none {v : Int} :
    s.image? v = none ↔ s.get? v = none ∨ s.get? v = some (.var v) := by
  unfold image?
  split
  · rename_i u hu
    by_cases hself : u = .var v <;> simp [hself, hu]
  · rename_i hu
    simp [hu]

theorem leads_iff {v w : Int} : s.Leads v w ↔ ∃ t, s.image? v = some t ∧ w ∈ t.leaves := by
  simp only [Leads, image?_eq_some, and_assoc]

/-! ## No cycle where applying ends -/

theorem chase_of_image? {v : Int} (h : s.image? v = none) (n : Nat) :
    s.chase n v = some (.var v) := by
  cases n <;> simp [chase, h]

/-- What holds of the variables that stay, and of a bound one whenever it holds of the variables of
its image, holds of every variable and what it stands for. -/
theorem chase_induction {motive : Nat → Int → Ty → Prop}
    (stays : ∀ n v, s.image? v = none → motive n v (.var v))
    (follows : ∀ n v t g, s.image? v = some t → (∀ w ∈ t.leaves, motive n w (g w)) →
      motive (n + 1) v (t.subst g))
    {n : Nat} {v : Int} {u : Ty} (h : s.chase n v = some u) : motive n v u := by
  induction n generalizing v u with
  | zero =>
    rcases hi : s.image? v with _ | t
    · rw [chase_of_image? hi] at h
      cases h
      exact stays 0 v hi
    · simp [chase, hi] at h
  | succ n ih =>
    rcases hi : s.image? v with _ | t
    · rw [chase_of_image? hi] at h
      cases h
      exact stays (n + 1) v hi
    · rw [chase, hi] at h
      obtain ⟨g, hg, rfl⟩ := Ty.exists_of_subst? h
      exact follows n v t g hi fun w hw => ih (hg w hw)

/-- Whatever is led to from a variable comes to an end. -/
def Ends (s : Subst) (v : Int) : Prop := Acc (fun w v => s.Leads v w) v

theorem ends_of_chase {n : Nat} {v : Int} {u : Ty} (h : s.chase n v = some u) : s.Ends v := by
  refine chase_induction (motive := fun _ v _ => s.Ends v) (fun _ v hi => ?_)
    (fun _ v t _ hi ih => ?_) h
  · refine Acc.intro v fun w hw => ?_
    obtain ⟨t, ht, -⟩ := leads_iff.1 hw
    simp [hi] at ht
  · refine Acc.intro v fun w hw => ?_
    obtain ⟨t', ht', hw⟩ := leads_iff.1 hw
    obtain rfl : t' = t := Option.some.inj (ht'.symm.trans hi)
    exact ih w hw

/-- A variable from which everything ends leads to none that leads back to itself. -/
theorem Ends.not_cycle {v w : Int} (h : s.Ends v) (hw : ReflTransGen s.Leads v w) :
    ¬ TransGen s.Leads w w := by
  induction h generalizing w with
  | intro v _ ih =>
    intro hcycle
    rcases hw.cases_head with rfl | ⟨x, hx, hw⟩
    · obtain ⟨x, hx, hback⟩ := TransGen.head'_iff.1 hcycle
      exact ih x hx hback hcycle
    · exact ih x hx hw hcycle

/-! ## An end where there is no cycle -/

/-- If following a number of bindings in a row is not enough, as many can be followed. -/
theorem exists_way_of_chase {n : Nat} {v : Int} (h : s.chase n v = none) :
    ∃ way : List Int, way.length = n ∧ (v :: way).IsChain s.Leads ∧ ∀ w ∈ v :: way, w ∈ s.keys := by
  have hkey : ∀ {v t}, s.image? v = some t → v ∈ s.keys := fun hi =>
    Table.mem_keys.2 ⟨_, (image?_eq_some.1 hi).1⟩
  induction n generalizing v with
  | zero =>
    rcases hi : s.image? v with _ | t
    · simp [chase, hi] at h
    · exact ⟨[], rfl, by simp, by simpa using hkey hi⟩
  | succ n ih =>
    rcases hi : s.image? v with _ | t
    · simp [chase, hi] at h
    · rw [chase, hi] at h
      obtain ⟨w, hw, hnone⟩ := Ty.subst?_eq_none.1 h
      obtain ⟨way, hlength, hchain, hkeys⟩ := ih hnone
      refine ⟨w :: way, by simp [hlength], ?_, List.forall_mem_cons.2 ⟨hkey hi, hkeys⟩⟩
      exact List.isChain_cons_cons.2 ⟨leads_iff.2 ⟨t, hi, hw⟩, hchain⟩

/-- Without a cycle ahead, a way passes each variable once, so it is no longer than the number of
bindings. -/
theorem exists_chase {v : Int} (h : ∀ w, ReflTransGen s.Leads v w → ¬ TransGen s.Leads w w) :
    ∃ u, s.chase s.size v = some u := by
  rw [← Option.ne_none_iff_exists']
  intro hnone
  obtain ⟨way, hlength, hchain, hkeys⟩ := exists_way_of_chase hnone
  have hpairs : (v :: way).Pairwise (TransGen s.Leads) :=
    (hchain.imp fun _ _ => TransGen.single).pairwise
  have hreach : ∀ w ∈ v :: way, ReflTransGen s.Leads v w := by
    intro w hw
    rcases List.mem_cons.1 hw with rfl | hw
    · exact .refl
    · exact ((List.pairwise_cons.1 hpairs).1 w hw).to_reflTransGen
  have hnodup : (v :: way).Nodup := by
    refine hpairs.imp_of_mem ?_
    rintro x y hx - hxy rfl
    exact h x (hreach x hx) hxy
  -- yet the way passes one bound variable more than there are bindings
  have hle := Ascending.length_le_of_subset hnodup hkeys
  simp only [List.length_cons, hlength, Table.keys, List.length_map, Table.size] at hle
  omega

/-- Applying gives a result just where no cycle can be reached. -/
theorem exists_expand?_iff {t : Ty} : (∃ u, s.expand? t = some u) ↔ ¬ s.ReachesCycle t := by
  constructor
  · rintro ⟨u, h⟩ ⟨v, hv, w, hw, hcycle⟩
    obtain ⟨g, hg, -⟩ := Ty.exists_of_subst? h
    exact (ends_of_chase (hg v hv)).not_cycle hw hcycle
  · intro h
    rw [← Option.ne_none_iff_exists']
    intro hnone
    obtain ⟨v, hv, hchase⟩ := Ty.subst?_eq_none.1 hnone
    obtain ⟨u, hu⟩ := exists_chase (s := s) (v := v) fun w hw hcycle => h ⟨v, hv, w, hw, hcycle⟩
    simp [hchase] at hu

/-! ## What is computed is what the rules give -/

theorem chase_succ {n : Nat} {v : Int} {u : Ty} (h : s.chase n v = some u) :
    s.chase (n + 1) v = some u := by
  refine chase_induction (motive := fun n v u => s.chase (n + 1) v = some u)
    (fun n v hi => chase_of_image? hi _) (fun n v t g hi ih => ?_) h
  rw [chase, hi]
  exact Ty.subst?_eq_some ih

/-- To follow more bindings in a row than there are changes nothing. -/
theorem chase_size_succ (v : Int) : s.chase (s.size + 1) v = s.chase s.size v := by
  rcases hmore : s.chase (s.size + 1) v with _ | u
  · rcases h : s.chase s.size v with _ | u
    · rfl
    · rw [chase_succ h] at hmore
      cases hmore
  · obtain ⟨u', h⟩ := exists_chase fun w => (ends_of_chase hmore).not_cycle
    rw [h, ← hmore, chase_succ h]

/-- A bound variable becomes what its image becomes. -/
theorem expand?_followed {v : Int} {t : Ty} (h : s.image? v = some t) :
    s.expand? (.var v) = s.expand? t := by
  calc s.chase s.size v
      _ = s.chase (s.size + 1) v := (chase_size_succ v).symm
      _ = t.subst? (s.chase s.size) := by rw [chase, h]

theorem expand?_fn (params : List Ty) (result : Ty) :
    s.expand? (.fn params result) =
      (s.expandAll? params).bind fun ps => (s.expand? result).bind fun r => some (.fn ps r) := rfl

theorem expandAll?_cons (t : Ty) (more : List Ty) :
    s.expandAll? (t :: more) =
      (s.expand? t).bind fun u => (s.expandAll? more).bind fun us => some (u :: us) := rfl

mutual

/-- What the rules give is computed. -/
theorem Becomes.expand? {t u : Ty} (h : s.Becomes t u) : s.expand? t = some u := by
  match h with
  | .unbound hv => exact chase_of_image? (image?_eq_none.2 (.inl hv)) _
  | .itself hv => exact chase_of_image? (image?_eq_none.2 (.inr hv)) _
  | .followed hv hne ht => exact (expand?_followed (image?_eq_some.2 ⟨hv, hne⟩)).trans ht.expand?
  | .con => rfl
  | .fn hparams hresult =>
    rw [expand?_fn, hparams.expandAll?, hresult.expand?]
    rfl

theorem BecomeAll.expandAll? {ts us : List Ty} (h : s.BecomeAll ts us) :
    s.expandAll? ts = some us := by
  match h with
  | .nil => rfl
  | .cons ht hts =>
    rw [expandAll?_cons, ht.expand?, hts.expandAll?]
    rfl

end

theorem becomeAll_map {g : Ty → Ty} {ts : List Ty} (h : ∀ t ∈ ts, s.Becomes t (g t)) :
    s.BecomeAll ts (ts.map g) := by
  induction ts with
  | nil => exact .nil
  | cons t more ih =>
    obtain ⟨ht, hmore⟩ := List.forall_mem_cons.1 h
    exact .cons ht (ih hmore)

theorem becomes_subst {g : Int → Ty} {t : Ty} (h : ∀ v ∈ t.leaves, s.Becomes (.var v) (g v)) :
    s.Becomes t (t.subst g) := by
  induction t with
  | var v => exact h v (by simp)
  | con c => exact .con
  | fn params result ihp ihr =>
    simp only [Ty.leaves_fn, List.mem_append, List.mem_flatMap] at h
    rw [Ty.subst_fn]
    refine .fn (becomeAll_map fun p hp => ihp p hp fun v hv => h v (.inl ⟨p, hp, hv⟩)) ?_
    exact ihr fun v hv => h v (.inr hv)

theorem becomes_of_chase {n : Nat} {v : Int} {u : Ty} (h : s.chase n v = some u) :
    s.Becomes (.var v) u := by
  refine chase_induction (motive := fun _ v u => s.Becomes (.var v) u) (fun _ v hi => ?_)
    (fun _ v t g hi ih => ?_) h
  · exact (image?_eq_none.1 hi).elim .unbound .itself
  · obtain ⟨hv, hne⟩ := image?_eq_some.1 hi
    exact .followed hv hne (becomes_subst ih)

/-- What is computed is what the rules give. -/
theorem becomes_iff {t u : Ty} : s.Becomes t u ↔ s.expand? t = some u := by
  refine ⟨Becomes.expand?, fun h => ?_⟩
  obtain ⟨g, hg, rfl⟩ := Ty.exists_of_subst? h
  exact becomes_subst fun v hv => becomes_of_chase (hg v hv)

/-! ## Where applying ends, and with what -/

/-- What a variable stands for holds no variable that leads any further. -/
theorem image?_of_chase {n : Nat} {v w : Int} {u : Ty} (h : s.chase n v = some u)
    (hw : w ∈ u.leaves) : s.image? w = none := by
  revert w
  refine chase_induction (motive := fun _ _ u => ∀ {w}, w ∈ u.leaves → s.image? w = none)
    (fun _ v hi w hw => ?_) (fun _ v t g _ ih w hw => ?_) h
  · obtain rfl : w = v := by simpa using hw
    exact hi
  · obtain ⟨x, hx, hw⟩ := Ty.mem_leaves_subst.1 hw
    exact ih x hx hw

theorem image?_of_expand? {t u : Ty} (h : s.expand? t = some u) {w : Int} (hw : w ∈ u.leaves) :
    s.image? w = none := by
  obtain ⟨g, hg, rfl⟩ := Ty.exists_of_subst? h
  obtain ⟨v, hv, hw⟩ := Ty.mem_leaves_subst.1 hw
  exact image?_of_chase (hg v hv) hw

theorem expand?_of_image? {t : Ty} (h : ∀ v ∈ t.leaves, s.image? v = none) :
    s.expand? t = some t := by
  have hvar : s.expand? t = some (t.subst .var) :=
    Ty.subst?_eq_some fun v hv => chase_of_image? (h v hv) _
  rwa [Ty.subst_var_self] at hvar

/-- Applying any substitution, be it chained or cyclic, ends just where no cycle of bindings can be
reached from the variables of the type. Where it ends it leaves no variable but those that are
unbound or bound to themselves, so applying it again changes nothing. -/
theorem applying_ends_unless_it_reaches_a_cycle (s : Subst) (t : Ty) :
    ((∃ u, s.Becomes t u) ↔ ¬ s.ReachesCycle t) ∧
    (∀ u, s.Becomes t u ↔ s.expand? t = some u) ∧
    ∀ u, s.expand? t = some u →
      (∀ w ∈ u.leaves, s.get? w = none ∨ s.get? w = some (.var w)) ∧ s.expand? u = some u := by
  refine ⟨?_, fun u => becomes_iff, fun u h => ⟨fun w hw => ?_, ?_⟩⟩
  · simp only [becomes_iff]
    exact exists_expand?_iff
  · exact image?_eq_none.1 (image?_of_expand? h hw)
  · exact expand?_of_image? fun w hw => image?_of_expand? h hw

/-- `t0` stands for `(t1) -> t2`, `t1` for `t2` and `t2` for itself; `t3` and `t4` stand for each
other inside function types. -/
def knotted : Subst :=
  .ofList [(0, .fn [.var 1] (.var 2)), (1, .var 2), (2, .var 2), (3, .fn [] (.var 4)),
    (4, .fn [.var 3] .number)]

/-- The chain from `t0` is followed to its end, past the cycle that it does not reach, and `t3` has
no end. -/
theorem applying_ends_unless_it_reaches_a_cycle_beside_one :
    knotted.expand? (.fn [.var 0, .var 5] (.var 1)) =
      some (.fn [.fn [.var 2] (.var 2), .var 5] (.var 2)) ∧
    (∀ w ∈ [(2 : Int), 2, 5, 2], knotted.get? w = none ∨ knotted.get? w = some (.var w)) ∧
    knotted.expand? (.fn [.fn [.var 2] (.var 2), .var 5] (.var 2)) =
      some (.fn [.fn [.var 2] (.var 2), .var 5] (.var 2)) ∧
    ¬ knotted.ReachesCycle (.fn [.var 0, .var 5] (.var 1)) ∧
    knotted.ReachesCycle (.var 3) ∧ ¬ ∃ u, knotted.Becomes (.var 3) u := by
  obtain ⟨hends, hcomputed, hresult⟩ :=
    applying_ends_unless_it_reaches_a_cycle knotted (.fn [.var 0, .var 5] (.var 1))
  have hrun : knotted.expand? (.fn [.var 0, .var 5] (.var 1)) =
      some (.fn [.fn [.var 2] (.var 2), .var 5] (.var 2)) := by decide
  obtain ⟨hleft, hagain⟩ := hresult _ hrun
  have hcycle : knotted.ReachesCycle (.var 3) := by
    have hforth : knotted.Leads 3 4 := ⟨.fn [] (.var 4), by decide⟩
    have hback : knotted.Leads 4 3 := ⟨.fn [.var 3] .number, by decide⟩
    exact ⟨3, by decide, 3, .refl, .head hforth (.single hback)⟩
  refine ⟨hrun, hleft, hagain, hends.1 ⟨_, (hcomputed _).2 hrun⟩, hcycle, fun hbecomes => ?_⟩
  exact (applying_ends_unless_it_reaches_a_cycle knotted (.var 3)).1.1 hbecomes hcycle

end Subst

end LetPoly
