-- The laws of renaming type variables. Substitution, unification and printing go by
-- which variables are the same and never by their numbers, so they commute with every
-- renaming that keeps different variables apart. Only the order in which a scheme
-- lists its bound variables goes by number.
import LetPoly.Infer
import LetPoly.Proofs.Environments
import Mathlib.Data.List.Sort
import Mathlib.Logic.Function.Basic

namespace LetPoly

open Function (Injective)

variable {π π' : Int → Int}

/-! ## Ascending lists -/

theorem Ascending.perm_ofList {vs : List Int} (h : vs.Nodup) : (ofList vs).Perm vs :=
  (List.perm_ext_iff_of_nodup (nodup_ofList vs) h).2 fun v => mem_ofList v vs

theorem Ascending.ofList_of_pairwise {vs : List Int} (h : vs.Pairwise (· < ·)) :
    ofList vs = vs := by
  refine (perm_ofList (h.imp fun h => Int.ne_of_lt h)).eq_of_pairwise ?_ (pairwise_ofList vs) h
  intro a b _ _ h1 h2
  omega

theorem Ascending.ofList_congr {vs ws : List Int} (h : ∀ v, v ∈ vs ↔ v ∈ ws) :
    ofList vs = ofList ws := by
  refine List.Perm.eq_of_pairwise ?_ (pairwise_ofList vs) (pairwise_ofList ws) ?_
  · intro a b _ _ h1 h2
    omega
  · refine (List.perm_ext_iff_of_nodup (nodup_ofList vs) (nodup_ofList ws)).2 fun v => ?_
    rw [mem_ofList, mem_ofList, h]

namespace Ty

/-! ## Types -/

/-- A type with its variables renamed. -/
def rename (π : Int → Int) (t : Ty) : Ty := t.subst fun v => .var (π v)

@[simp] theorem rename_var (π : Int → Int) (v : Int) : (var v).rename π = var (π v) := rfl

@[simp] theorem rename_con (π : Int → Int) (c : String) : (con c).rename π = con c := rfl

@[simp] theorem rename_fn (π : Int → Int) (params : List Ty) (result : Ty) :
    (fn params result).rename π = fn (params.map (rename π)) (result.rename π) :=
  subst_fn _ params result

theorem rename_congr {t : Ty} (h : ∀ v ∈ t.leaves, π v = π' v) : t.rename π = t.rename π' :=
  subst_congr fun v hv => by rw [h v hv]

theorem subst_rename (π : Int → Int) (f : Int → Ty) (t : Ty) :
    (t.rename π).subst f = t.subst fun v => f (π v) :=
  subst_subst _ f t

theorem rename_subst (π : Int → Int) (f : Int → Ty) (t : Ty) :
    (t.subst f).rename π = t.subst fun v => (f v).rename π :=
  subst_subst f _ t

@[simp] theorem leaves_rename (π : Int → Int) (t : Ty) :
    (t.rename π).leaves = t.leaves.map π := by
  induction t with
  | var v => rfl
  | con c => rfl
  | fn params result ihp ihr =>
    rw [rename_fn, leaves_fn, leaves_fn, List.map_append, ihr, List.map_flatMap,
      List.flatMap_map]
    congr 1
    exact List.flatMap_congr ihp

theorem rename_injective (h : Injective π) : Injective (rename π) := by
  obtain ⟨g, hg⟩ := h.hasLeftInverse
  intro t u htu
  have hback : ∀ t : Ty, (t.rename π).rename g = t := fun t => by
    rw [rename, subst_rename]
    exact subst_eq_self fun v _ => by rw [hg v]
  rw [← hback t, htu, hback u]

theorem rename_eq_var (h : Injective π) {t : Ty} {v : Int} :
    t.rename π = var (π v) ↔ t = var v :=
  (rename_injective h).eq_iff (b := var v)

theorem occurs_rename (h : Injective π) (v : Int) (t : Ty) :
    (t.rename π).occurs (π v) = t.occurs v := by
  simp [occurs, h.eq_iff]

theorem replace_rename (h : Injective π) (t : Ty) (v : Int) (image : Ty) :
    (t.replace v image).rename π = (t.rename π).replace (π v) (image.rename π) := by
  unfold replace
  rw [rename_subst, subst_rename]
  refine subst_congr fun w _ => ?_
  by_cases hw : w = v
  · simp [hw]
  · simp [hw, h.ne hw]

theorem substAll?_rename_of {f g : Int → Option Ty} {ts : List Ty}
    (h : ∀ t ∈ ts, (t.rename π).subst? g = (t.subst? f).map (rename π)) :
    substAll? g (ts.map (rename π)) = (substAll? f ts).map (List.map (rename π)) := by
  induction ts with
  | nil => rfl
  | cons t ts ih =>
    rw [List.map_cons, substAll?, substAll?, h t (by simp), ih fun u hu => h u (by simp [hu])]
    cases t.subst? f <;> cases substAll? f ts <;> rfl

/-- A replacement that may be missing commutes with a renaming if it does for each variable. -/
theorem subst?_rename {f g : Int → Option Ty} {t : Ty}
    (h : ∀ v ∈ t.leaves, g (π v) = (f v).map (rename π)) :
    (t.rename π).subst? g = (t.subst? f).map (rename π) := by
  induction t with
  | var v => exact h v (by simp)
  | con c => rfl
  | fn params result ihp ihr =>
    simp only [leaves_fn, List.mem_append, List.mem_flatMap] at h
    rw [rename_fn, subst?, subst?,
      substAll?_rename_of fun p hp => ihp p hp fun v hv => h v (.inl ⟨p, hp, hv⟩),
      ihr fun v hv => h v (.inr hv)]
    cases substAll? f params <;> cases result.subst? f <;> simp [bind]

theorem mem_leaves_substAll? {f : Int → Option Ty} {ts us : List Ty} {w : Int}
    (h : ∀ t ∈ ts, ∀ u, t.subst? f = some u → w ∈ u.leaves →
      ∃ v ∈ t.leaves, ∃ image, f v = some image ∧ w ∈ image.leaves)
    (hs : substAll? f ts = some us) :
    ∀ u ∈ us, w ∈ u.leaves →
      ∃ t ∈ ts, ∃ v ∈ t.leaves, ∃ image, f v = some image ∧ w ∈ image.leaves := by
  induction ts generalizing us with
  | nil =>
    cases hs
    simp
  | cons t ts ih =>
    rw [substAll?] at hs
    rcases ht : t.subst? f with _ | u
    · simp [ht] at hs
    · rcases hts : substAll? f ts with _ | more
      · simp [ht, hts] at hs
      · simp only [ht, hts, Option.bind_eq_bind, Option.bind_some, Option.some.injEq] at hs
        subst hs
        intro u' hu' hw
        rcases List.mem_cons.1 hu' with rfl | hu'
        · obtain ⟨v, hv, himage⟩ := h t (by simp) _ ht hw
          exact ⟨t, by simp, v, hv, himage⟩
        · obtain ⟨t', ht', hrest⟩ := ih (fun t ht => h t (by simp [ht])) hts u' hu' hw
          exact ⟨t', by simp [ht'], hrest⟩

theorem mem_leaves_subst? {f : Int → Option Ty} {t u : Ty} (h : t.subst? f = some u) {w : Int}
    (hw : w ∈ u.leaves) : ∃ v ∈ t.leaves, ∃ image, f v = some image ∧ w ∈ image.leaves := by
  induction t generalizing u with
  | var v => exact ⟨v, by simp, u, h, hw⟩
  | con c =>
    cases h
    simp at hw
  | fn params result ihp ihr =>
    rw [subst?] at h
    rcases hps : substAll? f params with _ | params'
    · simp [hps] at h
    · rcases hres : result.subst? f with _ | result'
      · simp [hps, hres] at h
      · simp only [hps, hres, Option.bind_eq_bind, Option.bind_some, Option.some.injEq] at h
        subst h
        rw [leaves_fn, List.mem_append, List.mem_flatMap] at hw
        simp only [leaves_fn, List.mem_append, List.mem_flatMap]
        rcases hw with ⟨u', hu', hw⟩ | hw
        · obtain ⟨t, ht, v, hv, himage⟩ :=
            mem_leaves_substAll? (fun p hp u hu hw => ihp p hp hu hw) hps u' hu' hw
          exact ⟨v, .inl ⟨t, ht, hv⟩, himage⟩
        · obtain ⟨v, hv, himage⟩ := ihr hres hw
          exact ⟨v, .inr hv, himage⟩

end Ty

namespace Subst

/-! ## Substitutions -/

/-- A substitution with all its variables renamed. -/
def rename (π : Int → Int) (s : Subst) : Subst :=
  .ofList (s.entries.map fun (v, t) => (π v, t.rename π))

/-- Where different variables stay apart, each binding has its place. -/
theorem entries_rename (h : Injective π) (s : Subst) :
    (s.rename π).entries = s.entries.map fun (v, t) => (π v, t.rename π) := by
  refine Table.entries_ofList ?_
  have hkeys : (s.entries.map fun (v, t) => (π v, t.rename π)).map (·.1) = s.keys.map π := by
    simp [Table.keys, Function.comp_def]
  rw [hkeys]
  exact s.nodup_keys.map h

theorem size_rename (h : Injective π) (s : Subst) : (s.rename π).size = s.size := by
  rw [Table.size, entries_rename h, List.length_map, Table.size]

theorem keys_rename (h : Injective π) (s : Subst) : (s.rename π).keys = s.keys.map π := by
  rw [Table.keys, entries_rename h]
  simp [Table.keys, Function.comp_def]

theorem rename_congr {s : Subst} (h : ∀ v ∈ s.mentioned, π v = π' v) :
    s.rename π = s.rename π' := by
  refine congrArg Table.ofList (List.map_congr_left fun entry he => ?_)
  refine Prod.ext (h _ ?_) (Ty.rename_congr fun v hv => h v ?_)
  · exact keys_subset_mentioned (List.mem_map_of_mem he)
  · exact mem_mentioned_of_value (List.mem_map_of_mem he) hv

theorem get?_rename (h : Injective π) (s : Subst) (v : Int) :
    (s.rename π).get? (π v) = (s.get? v).map (Ty.rename π) := by
  rw [Table.get?, entries_rename h, Table.get?]
  induction s.entries with
  | nil => rfl
  | cons entry rest ih =>
    by_cases hv : entry.1 = v
    · simp [Table.find?, hv]
    · simpa [Table.find?, hv, h.ne hv] using ih

theorem image?_rename (h : Injective π) (s : Subst) (v : Int) :
    (s.rename π).image? (π v) = (s.image? v).map (Ty.rename π) := by
  unfold image?
  rw [get?_rename h]
  rcases s.get? v with _ | t
  · rfl
  · by_cases ht : t = .var v
    · simp [ht]
    · simp [ht, Ty.rename_eq_var h]

theorem chase_rename (h : Injective π) (s : Subst) (n : Nat) (v : Int) :
    (s.rename π).chase n (π v) = (s.chase n v).map (Ty.rename π) := by
  induction n generalizing v with
  | zero =>
    rw [chase, chase, image?_rename h]
    cases s.image? v <;> rfl
  | succ n ih =>
    rw [chase, chase, image?_rename h]
    rcases s.image? v with _ | t
    · rfl
    · exact Ty.subst?_rename fun w _ => ih w

theorem expand?_rename (h : Injective π) (s : Subst) (t : Ty) :
    (s.rename π).expand? (t.rename π) = (s.expand? t).map (Ty.rename π) := by
  unfold expand?
  rw [size_rename h]
  exact Ty.subst?_rename fun v _ => chase_rename h s _ v

theorem expandAll?_rename (h : Injective π) (s : Subst) (ts : List Ty) :
    (s.rename π).expandAll? (ts.map (Ty.rename π)) =
      (s.expandAll? ts).map (List.map (Ty.rename π)) := by
  unfold expandAll?
  rw [size_rename h]
  exact Ty.substAll?_rename_of fun t _ => Ty.subst?_rename fun v _ => chase_rename h s _ v

theorem mem_keys_rename (h : Injective π) {s : Subst} {v : Int} :
    π v ∈ (s.rename π).keys ↔ v ∈ s.keys := by
  simp [keys_rename h, h.eq_iff]

theorem without_rename (h : Injective π) (s : Subst) {keys keys' : List Int}
    (hk : ∀ v, π v ∈ keys' ↔ v ∈ keys) :
    (s.rename π).without keys' = rename π (s.without keys) := by
  refine Table.ext ?_
  rw [entries_rename h]
  simp only [Table.without, entries_rename h, List.filter_map]
  congr 1
  refine List.filter_congr fun entry _ => ?_
  simp [hk]

theorem append_rename (h : Injective π) (s u : Subst) :
    (s.rename π).append (u.rename π) = rename π (s.append u) := by
  refine Table.ext ?_
  rw [Table.entries_append, without_rename h u fun v => mem_keys_rename h, entries_rename h,
    entries_rename h, entries_rename h, Table.entries_append, List.map_append]

/-- Changes that agree with a renaming leave entries that do. -/
theorem mapEntries?_rename {f g : Ty → Option Ty}
    (hfg : ∀ t, g (t.rename π) = (f t).map (Ty.rename π)) (entries : List (Int × Ty)) :
    (Table.mapEntries? g (entries.map fun (v, t) => (π v, t.rename π))).map Subtype.val =
      (Table.mapEntries? f entries).map fun others =>
        others.1.map fun (v, t) => (π v, t.rename π) := by
  induction entries with
  | nil => rfl
  | cons entry rest ih =>
    rw [List.map_cons, Table.mapEntries?, Table.mapEntries?, hfg]
    rcases f entry.2 with _ | t
    · rfl
    · generalize Table.mapEntries? g (rest.map fun (v, t) => (π v, t.rename π)) = o' at ih ⊢
      generalize Table.mapEntries? f rest = o at ih ⊢
      cases o <;> cases o' <;> simp_all

theorem map?_rename (h : Injective π) (later earlier : Subst) :
    (earlier.rename π).map? (later.rename π).expand? =
      (earlier.map? later.expand?).map (rename π) := by
  have hinj : Injective fun s : Subst => s.entries := fun _ _ => Table.ext
  refine Option.map_injective hinj ?_
  calc ((earlier.rename π).map? (later.rename π).expand?).map Table.entries
      = (Table.mapEntries? (later.rename π).expand? (earlier.rename π).entries).map
          Subtype.val := by
        rw [Table.map?, Option.map_map]
        rfl
    _ = (Table.mapEntries? later.expand? earlier.entries).map fun others =>
          others.1.map fun (v, t) => (π v, t.rename π) := by
        rw [entries_rename h, mapEntries?_rename (expand?_rename h later)]
    _ = ((earlier.map? later.expand?).map (rename π)).map Table.entries := by
        rw [Table.map?, Option.map_map, Option.map_map]
        refine Option.map_congr fun others _ => ?_
        exact (entries_rename h ⟨others.1, by rw [others.2]; exact earlier.nodup⟩).symm

theorem compose?_rename (h : Injective π) (later earlier : Subst) :
    (later.rename π).compose? (earlier.rename π) = (later.compose? earlier).map (rename π) := by
  unfold compose?
  rw [map?_rename h]
  rcases earlier.map? later.expand? with _ | images
  · rfl
  · simp only [Option.map_some, Option.bind_eq_bind, Option.bind_some,
      without_rename h images fun v => mem_keys_rename h, append_rename h]

theorem solve_rename (h : Injective π) (s : Subst) (v : Int) (t : Ty) :
    (s.solve v t).rename π = (s.rename π).solve (π v) (t.rename π) := by
  have hmap : rename π (s.map (·.replace v t)) =
      (s.rename π).map (·.replace (π v) (t.rename π)) := by
    refine Table.ext ?_
    simp only [entries_rename h, Table.map, List.map_map]
    refine List.map_congr_left fun entry _ => ?_
    simp [Ty.replace_rename h]
  rw [solve, ← append_rename h, hmap, solve]
  rfl

/-! ## What the results of substitutions are about -/

theorem mem_mentioned_without {s : Subst} {keys : List Int} {v : Int}
    (h : v ∈ Subst.mentioned (s.without keys)) : v ∈ s.mentioned := by
  rcases List.mem_append.1 h with h | h
  · obtain ⟨entry, he, rfl⟩ := List.mem_map.1 h
    exact keys_subset_mentioned (List.mem_map_of_mem (List.mem_of_mem_filter he))
  · obtain ⟨t, ht, hv⟩ := List.mem_flatMap.1 h
    obtain ⟨entry, he, rfl⟩ := List.mem_map.1 ht
    exact mem_mentioned_of_value (List.mem_map_of_mem (List.mem_of_mem_filter he)) hv

theorem mem_leaves_chase {s : Subst} {n : Nat} {v w : Int} {t : Ty} (h : s.chase n v = some t)
    (hw : w ∈ t.leaves) : w = v ∨ w ∈ s.mentioned := by
  induction n generalizing v t with
  | zero =>
    rw [chase] at h
    rcases himage : s.image? v with _ | u
    · rw [himage] at h
      cases h
      exact Or.inl (by simpa using hw)
    · rw [himage] at h
      cases h
  | succ n ih =>
    rw [chase] at h
    rcases himage : s.image? v with _ | u
    · rw [himage] at h
      cases h
      exact Or.inl (by simpa using hw)
    · rw [himage] at h
      have hget : s.get? v = some u := by
        unfold image? at himage
        split at himage
        · split at himage
          · cases himage
          · rename_i hget _
            rw [hget, himage]
        · cases himage
      obtain ⟨x, hx, t', hchase, hw⟩ := Ty.mem_leaves_subst? h hw
      refine Or.inr ((ih hchase hw).elim (fun hwx => ?_) id)
      exact mem_mentioned_of_value (Table.mem_values_of_get? hget) (hwx ▸ hx)

theorem mem_leaves_expand? {s : Subst} {t u : Ty} (h : s.expand? t = some u) {w : Int}
    (hw : w ∈ u.leaves) : w ∈ t.leaves ∨ w ∈ s.mentioned := by
  obtain ⟨v, hv, t', hchase, hw⟩ := Ty.mem_leaves_subst? h hw
  rcases mem_leaves_chase hchase hw with rfl | hw
  · exact Or.inl hv
  · exact Or.inr hw

theorem mem_leaves_expandAll? {s : Subst} {ts us : List Ty} (h : s.expandAll? ts = some us)
    {u : Ty} (hu : u ∈ us) {w : Int} (hw : w ∈ u.leaves) :
    (∃ t ∈ ts, w ∈ t.leaves) ∨ w ∈ s.mentioned := by
  obtain ⟨t, ht, v, hv, t', hchase, hw⟩ :=
    Ty.mem_leaves_substAll? (fun _ _ _ hu hw => Ty.mem_leaves_subst? hu hw) h u hu hw
  rcases mem_leaves_chase hchase hw with rfl | hw
  · exact Or.inl ⟨t, ht, hv⟩
  · exact Or.inr hw

theorem mem_mentioned_compose? {later earlier both : Subst} (h : later.compose? earlier = some both)
    {v : Int} (hv : v ∈ both.mentioned) : v ∈ earlier.mentioned ∨ v ∈ later.mentioned := by
  obtain ⟨images, himages, hboth⟩ := Option.bind_eq_some_iff.1 h
  obtain rfl := Option.some.inj hboth
  -- each binding is one of the later substitution, or comes from one of the earlier
  have hentry : ∀ w t, (w, t) ∈ ((images.without later.keys).append later).entries →
      ∀ x, x = w ∨ x ∈ t.leaves → x ∈ earlier.mentioned ∨ x ∈ later.mentioned := by
    intro w t hwt x hx
    rcases Table.mem_entries_append hwt with hwt | hwt
    · obtain ⟨u, hu, ht⟩ := Table.mem_map? himages (List.mem_of_mem_filter hwt)
      rcases hx with rfl | hx
      · exact Or.inl (keys_subset_mentioned (List.mem_map_of_mem hu))
      · exact (mem_leaves_expand? ht hx).imp_left
          (mem_mentioned_of_value (List.mem_map_of_mem hu))
    · rcases hx with rfl | hx
      · exact Or.inr (keys_subset_mentioned (List.mem_map_of_mem hwt))
      · exact Or.inr (mem_mentioned_of_value (List.mem_map_of_mem hwt) hx)
  rcases List.mem_append.1 hv with hv | hv
  · obtain ⟨⟨w, t⟩, hwt, rfl⟩ := List.mem_map.1 hv
    exact hentry w t hwt w (Or.inl rfl)
  · obtain ⟨t, ht, hv⟩ := List.mem_flatMap.1 hv
    obtain ⟨⟨w, t⟩, hwt, rfl⟩ := List.mem_map.1 ht
    exact hentry w t hwt v (Or.inr hv)

end Subst

/-! ## Unification -/

/-- A clash with its variables renamed. -/
def Clash.rename (π : Int → Int) : Clash → Clash
  | mismatch expected actual => .mismatch (expected.rename π) (actual.rename π)
  | arity expected actual => .arity expected actual
  | infinite v t => .infinite (π v) (t.rename π)

namespace Unify

/-- Equations with their variables renamed. -/
def renameAll (π : Int → Int) (eqs : List Equation) : List Equation :=
  eqs.map fun (l, r) => (l.rename π, r.rename π)

@[simp] theorem renameAll_cons (π : Int → Int) (l r : Ty) (rest : List Equation) :
    renameAll π ((l, r) :: rest) = (l.rename π, r.rename π) :: renameAll π rest := rfl

/-- The outcome of a step with its variables renamed. -/
def renameStep (π : Int → Int) : Except Clash Progress → Except Clash Progress
  | .ok ⟨solved, rest⟩ => .ok ⟨solved.map fun (v, t) => (π v, t.rename π), renameAll π rest⟩
  | .error clash => .error (clash.rename π)

theorem replaceAll_rename (h : Injective π) (v : Int) (t : Ty) (eqs : List Equation) :
    renameAll π (replaceAll v t eqs) = replaceAll (π v) (t.rename π) (renameAll π eqs) := by
  simp [renameAll, replaceAll, Ty.replace_rename h]

theorem bind_rename (h : Injective π) (v : Int) (t : Ty) (rest : List Equation) :
    bind (π v) (t.rename π) (renameAll π rest) = renameStep π (bind v t rest) := by
  unfold bind
  by_cases htv : t = .var v
  · simp [htv, renameStep]
  · by_cases ho : t.occurs v = true
    · simp [htv, ho, Ty.rename_eq_var h, Ty.occurs_rename h, renameStep, Clash.rename]
    · simp [htv, ho, Ty.rename_eq_var h, Ty.occurs_rename h, renameStep, replaceAll_rename h]

theorem step_rename (h : Injective π) (expected actual : Ty) (rest : List Equation) :
    step (expected.rename π) (actual.rename π) (renameAll π rest) =
      renameStep π (step expected actual rest) := by
  cases expected with
  | var v => exact bind_rename h v actual rest
  | con c =>
    cases actual with
    | var v => exact bind_rename h v (.con c) rest
    | con d =>
      by_cases hcd : c = d
      · simp [step, hcd, renameStep]
      · simp [step, hcd, renameStep, Clash.rename]
    | fn qs q => rfl
  | fn ps r =>
    cases actual with
    | var v => exact bind_rename h v (.fn ps r) rest
    | con d => rfl
    | fn qs q =>
      by_cases hlen : ps.length = qs.length
      · simp [step, hlen, renameStep, renameAll, List.zip_map]
      · simp [step, hlen, renameStep, Clash.rename]

/-- The outcome of unification with its variables renamed. -/
def renameOutcome (π : Int → Int) : Except Clash Subst → Except Clash Subst
  | .ok s => .ok (s.rename π)
  | .error clash => .error (clash.rename π)

theorem solve_rename (h : Injective π) (eqs : List Equation) (s : Subst) :
    solve (renameAll π eqs) (s.rename π) = renameOutcome π (solve eqs s) := by
  induction eqs, s using solve.induct with
  | case1 s =>
    rw [solve, renameAll, List.map_nil, solve]
    rfl
  | case2 s l r rest clash hstep =>
    have hstep' := step_rename h l r rest
    rw [hstep] at hstep'
    rw [renameAll_cons, solve, hstep', solve, hstep]
    rfl
  | case3 s l r rest p hstep ih =>
    obtain ⟨solved, left⟩ := p
    have hstep' := step_rename h l r rest
    rw [hstep] at hstep'
    rw [renameAll_cons, solve, hstep', solve, hstep]
    simp only [renameStep]
    rw [← ih]
    rcases solved with _ | ⟨v, t⟩
    · rfl
    · simp only [Option.map_some, Subst.solve_rename h]

end Unify

theorem unify_rename (h : Injective π) (expected actual : Ty) :
    unify (expected.rename π) (actual.rename π) =
      Unify.renameOutcome π (unify expected actual) :=
  Unify.solve_rename h [(expected, actual)] Subst.empty

/-! ## Errors -/

/-- What is wrong, with the variables renamed. -/
def Reason.rename (π : Int → Int) : Reason → Reason
  | unbound name => .unbound name
  | unknownType name => .unknownType name
  | clash cause => .clash (cause.rename π)
  | branches thenType elseType cause =>
    .branches (thenType.rename π) (elseType.rename π) (cause.rename π)
  | returns declared inferred cause =>
    .returns (declared.rename π) (inferred.rename π) (cause.rename π)

/-- An error with its variables renamed, at the same node. -/
def TypeError.rename (π : Int → Int) (error : TypeError) : TypeError :=
  ⟨error.reason.rename π, error.site⟩

/-! ## Schemes -/

namespace Scheme

/-- A scheme with all its variables renamed, the bound ones too. -/
def rename (π : Int → Int) (scheme : Scheme) : Scheme :=
  .quantify (scheme.quantified.map π) (scheme.body.rename π)

@[simp] theorem body_rename (π : Int → Int) (scheme : Scheme) :
    (scheme.rename π).body = scheme.body.rename π := rfl

theorem mem_quantified_rename (h : Injective π) {scheme : Scheme} {v : Int} :
    π v ∈ (scheme.rename π).quantified ↔ v ∈ scheme.quantified := by
  simp [rename, quantify, Ascending.mem_ofList, h.eq_iff]

theorem rename_congr {scheme : Scheme}
    (h : ∀ v, v ∈ scheme.quantified ∨ v ∈ scheme.body.leaves → π v = π' v) :
    scheme.rename π = scheme.rename π' := by
  have hq : scheme.quantified.map π = scheme.quantified.map π' :=
    List.map_congr_left fun v hv => h v (.inl hv)
  rw [rename, rename, hq, Ty.rename_congr fun v hv => h v (.inr hv)]

theorem mem_freeVars_rename (h : Injective π) {scheme : Scheme} {v : Int} :
    π v ∈ (scheme.rename π).freeVars ↔ v ∈ scheme.freeVars := by
  rw [mem_freeVars, mem_freeVars, mem_quantified_rename h]
  simp [h.eq_iff]

theorem expand?_rename (h : Injective π) (s : Subst) (scheme : Scheme) :
    (scheme.rename π).expand? (s.rename π) = (scheme.expand? s).map (rename π) := by
  unfold expand?
  rw [Subst.without_rename h s fun v => mem_quantified_rename h]
  show ((Subst.rename π _).expand? (scheme.body.rename π)).bind _ = _
  rw [Subst.expand?_rename h]
  cases Subst.expand? (s.without scheme.quantified) scheme.body <;> rfl

theorem rename_mono (π : Int → Int) (t : Ty) : (mono t).rename π = mono (t.rename π) := rfl

end Scheme

/-- Generalization goes by which variables stand free in the environment. -/
theorem Env.generalize_rename {env other : Env} {t : Ty}
    (hfree : ∀ v ∈ t.leaves, π v ∈ other.freeVars ↔ v ∈ env.freeVars) :
    other.generalize (t.rename π) = (env.generalize t).rename π := by
  refine Scheme.ext (Ascending.ofList_congr fun w => ?_) rfl
  simp only [Ty.leaves_rename, generalize, Scheme.quantify]
  simp only [List.mem_filter, List.mem_map, Ascending.mem_ofList, decide_eq_true_eq]
  constructor
  · rintro ⟨⟨v, hv, rfl⟩, hw⟩
    exact ⟨v, ⟨hv, fun hf => hw ((hfree v hv).2 hf)⟩, rfl⟩
  · rintro ⟨v, ⟨hv, hw⟩, rfl⟩
    exact ⟨⟨v, hv, rfl⟩, fun hf => hw ((hfree v hv).1 hf)⟩

/-! ## Printing -/

namespace Ty

theorem distinct_map (h : Injective π) (xs : List Int) :
    distinct (xs.map π) = (distinct xs).map π := by
  have hgen : ∀ seen : List Int, (xs.map π).foldl (fun seen x => if x ∈ seen then seen else
      seen ++ [x]) (seen.map π) = (xs.foldl (fun seen x => if x ∈ seen then seen else
      seen ++ [x]) seen).map π := by
    induction xs with
    | nil => exact fun _ => rfl
    | cons x xs ih =>
      intro seen
      have hmem : π x ∈ seen.map π ↔ x ∈ seen := by simp [h.eq_iff]
      by_cases hx : x ∈ seen
      · simpa [hx, hmem] using ih seen
      · simpa [hx, hmem] using ih (seen ++ [x])
  exact hgen []

theorem vars_rename (h : Injective π) (t : Ty) : (t.rename π).vars = t.vars.map π := by
  rw [vars, leaves_rename, distinct_map h, vars]

theorem mem_distinct {xs : List Int} {x : Int} : x ∈ distinct xs ↔ x ∈ xs := by
  have hgen : ∀ seen : List Int, x ∈ xs.foldl (fun seen x => if x ∈ seen then seen else
      seen ++ [x]) seen ↔ x ∈ seen ∨ x ∈ xs := by
    induction xs with
    | nil => simp
    | cons y ys ih =>
      intro seen
      by_cases hy : y ∈ seen
      · simp only [List.foldl_cons, hy, if_true, ih, List.mem_cons]
        grind
      · simp only [List.foldl_cons, hy, if_false, ih, List.mem_append, List.mem_cons]
        grind
  exact (hgen []).trans (by simp)

theorem quotedName_map (h : Injective π) {vars : List Int} {v : Int} (hv : v ∈ vars) :
    quotedName (vars.map π) (π v) = quotedName vars v := by
  have hfind : (vars.map π).findIdx? (· = π v) = vars.findIdx? (· = v) := by
    rw [List.findIdx?_map]
    congr 1
    funext w
    simp [h.eq_iff]
  unfold quotedName
  rw [hfind]
  rcases hnone : vars.findIdx? (· = v) with _ | index
  · exact absurd (by simpa using List.findIdx?_eq_none_iff.1 hnone v hv) id
  · rfl

theorem renderMore_rename {name name' : Int → String} {ts : List Ty}
    (h : ∀ t ∈ ts, (t.rename π).render name' = t.render name) :
    renderMore name' (ts.map (rename π)) = renderMore name ts := by
  induction ts with
  | nil => rfl
  | cons t ts ih =>
    rw [List.map_cons, renderMore, renderMore, h t (by simp), ih fun u hu => h u (by simp [hu])]

theorem render_rename {name name' : Int → String} {t : Ty}
    (h : ∀ v ∈ t.leaves, name' (π v) = name v) : (t.rename π).render name' = t.render name := by
  induction t with
  | var v => exact h v (by simp)
  | con c => rfl
  | fn params result ihp ihr =>
    simp only [leaves_fn, List.mem_append, List.mem_flatMap] at h
    have hp : ∀ p ∈ params, (p.rename π).render name' = p.render name :=
      fun p hp => ihp p hp fun v hv => h v (.inl ⟨p, hp, hv⟩)
    have hr := ihr fun v hv => h v (.inr hv)
    rw [rename_fn]
    cases params with
    | nil => rw [List.map_nil, render, render, hr]
    | cons p params =>
      rw [List.map_cons, render, render, hp p (by simp), hr,
        renderMore_rename fun q hq => hp q (by simp [hq])]

theorem pretty_rename (h : Injective π) (t : Ty) : (t.rename π).pretty = t.pretty := by
  unfold pretty
  rw [vars_rename h]
  exact render_rename fun v hv => quotedName_map h (mem_distinct.2 hv)

end Ty

theorem Scheme.text_rename (h : Injective π) (scheme : Scheme) :
    (scheme.rename π).text = scheme.text := by
  have hbody : (scheme.body.rename π).render (Ty.quotedName (scheme.body.rename π).vars) =
      scheme.body.render (Ty.quotedName scheme.body.vars) := Ty.pretty_rename h scheme.body
  have hempty : (scheme.rename π).quantified.isEmpty = scheme.quantified.isEmpty := by
    rw [Bool.eq_iff_iff, List.isEmpty_iff, List.isEmpty_iff, List.eq_nil_iff_forall_not_mem,
      List.eq_nil_iff_forall_not_mem]
    simp [rename, quantify, Ascending.mem_ofList]
  have hbound : ((scheme.body.rename π).vars.filter (· ∈ (scheme.rename π).quantified)).map
      (Ty.quotedName (scheme.body.rename π).vars) =
      (scheme.body.vars.filter (· ∈ scheme.quantified)).map (Ty.quotedName scheme.body.vars) := by
    rw [Ty.vars_rename h, List.filter_map, List.map_map]
    have hfilter : scheme.body.vars.filter ((fun v => decide (v ∈ (scheme.rename π).quantified)) ∘
        π) = scheme.body.vars.filter (· ∈ scheme.quantified) :=
      List.filter_congr fun v _ => by simp [mem_quantified_rename h]
    rw [hfilter]
    exact List.map_congr_left fun v hv => Ty.quotedName_map h (List.mem_of_mem_filter hv)
  unfold text
  rw [hempty]
  simp only [body_rename]
  rw [hbody, hbound]

end LetPoly
