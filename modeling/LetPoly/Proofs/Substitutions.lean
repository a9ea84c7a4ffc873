-- The laws of substitutions. A substitution whose images hold no variable that it
-- replaces gives its result in one pass, and two such substitutions, the later of
-- which leaves alone what the earlier replaced, compose to one.
import LetPoly.Proofs.Tables
import LetPoly.Proofs.TypeSubstitution

namespace LetPoly

namespace Subst

/-! ## Substitutions as functions -/

/-- What stands for a variable, with nothing replaced in it any further. -/
def image (s : Subst) (v : Int) : Ty := (s.get? v).getD (.var v)

/-- The variables that a substitution replaces or puts in. -/
def mentioned (s : Subst) : List Int := s.keys ++ s.values.flatMap Ty.leaves

/-- No variable that is replaced stands in an image. -/
def Solved (s : Subst) : Prop := ∀ v ∈ s.keys, ∀ t ∈ s.values, v ∉ t.leaves

theorem image_of_not_mem {s : Subst} {v : Int} (h : v ∉ s.keys) : s.image v = .var v := by
  simp [image, Table.get?_eq_none.2 h]

theorem image_mem_values {s : Subst} {v : Int} (h : v ∈ s.keys) : s.image v ∈ s.values := by
  obtain ⟨t, ht⟩ := Table.mem_keys.1 h
  simpa [image, ht] using Table.mem_values_of_get? ht

@[simp] theorem image_empty : empty.image = Ty.var := rfl

@[simp] theorem mentioned_empty : empty.mentioned = [] := rfl

theorem keys_subset_mentioned {s : Subst} {v : Int} (h : v ∈ s.keys) : v ∈ s.mentioned :=
  List.mem_append_left _ h

theorem mem_mentioned_of_value {s : Subst} {t : Ty} {v : Int} (ht : t ∈ s.values)
    (hv : v ∈ t.leaves) : v ∈ s.mentioned :=
  List.mem_append_right _ (List.mem_flatMap.2 ⟨t, ht, hv⟩)

theorem mem_mentioned_of_image {s : Subst} {v w : Int} (h : w ∈ (s.image v).leaves) :
    w = v ∨ w ∈ s.mentioned := by
  by_cases hv : v ∈ s.keys
  · exact Or.inr (mem_mentioned_of_value (image_mem_values hv) h)
  · rw [image_of_not_mem hv] at h
    exact Or.inl (by simpa using h)

theorem solved_empty : empty.Solved := by
  intro v hv
  cases hv

/-- No variable that is replaced is left in what the substitution gives. -/
theorem Solved.not_mem_image {s : Subst} (h : s.Solved) {v w : Int} (hw : w ∈ (s.image v).leaves) :
    w ∉ s.keys := by
  intro hk
  by_cases hv : v ∈ s.keys
  · exact h w hk _ (image_mem_values hv) hw
  · rw [image_of_not_mem hv] at hw
    obtain rfl : w = v := by simpa using hw
    exact hv hk

theorem Solved.not_mem_subst {s : Subst} (h : s.Solved) {t : Ty} {w : Int}
    (hw : w ∈ (t.subst s.image).leaves) : w ∉ s.keys := by
  obtain ⟨v, -, hw⟩ := Ty.mem_leaves_subst.1 hw
  exact h.not_mem_image hw

theorem subst_of_not_mem {s : Subst} {t : Ty} (h : ∀ v ∈ t.leaves, v ∉ s.keys) :
    t.subst s.image = t :=
  Ty.subst_eq_self fun v hv => image_of_not_mem (h v hv)

/-! ## One pass is enough -/

/-- Every variable that is replaced is bound to itself, or to a type in which none is replaced. -/
def Direct (s : Subst) : Prop :=
  ∀ v ∈ s.keys, s.image v = .var v ∨ ∀ w ∈ (s.image v).leaves, w ∉ s.keys

theorem Solved.direct {s : Subst} (h : s.Solved) : s.Direct :=
  fun _ _ => Or.inr fun _ hw => h.not_mem_image hw

theorem chase_of_not_mem {s : Subst} {v : Int} (h : v ∉ s.keys) (n : Nat) :
    s.chase n v = some (.var v) := by
  have hi : s.image? v = none := by simp [image?, Table.get?_eq_none.2 h]
  cases n <;> simp [chase, hi]

theorem Direct.chase {s : Subst} (h : s.Direct) (v : Int) :
    s.chase s.size v = some (s.image v) := by
  by_cases hv : v ∈ s.keys
  · obtain ⟨t, ht⟩ := Table.mem_keys.1 hv
    have hit : s.image v = t := by simp [image, ht]
    -- there is a binding, so the number of bindings allows at least one step
    have hpos : 0 < s.size := List.length_pos_of_mem (Table.find?_mem ht)
    obtain ⟨n, hn⟩ : ∃ n, s.size = n + 1 := ⟨s.size - 1, by omega⟩
    rw [hn]
    by_cases hself : t = .var v
    · have hi : s.image? v = none := by simp [image?, ht, hself]
      simp [Subst.chase, hi, hit, hself]
    · have hi : s.image? v = some t := by simp [image?, ht, hself]
      have hleft : t.subst? (Subst.chase s n) = some (t.subst Ty.var) := by
        apply Ty.subst?_eq_some
        intro w hw
        rcases h v hv with he | he
        · exact absurd (hit ▸ he) hself
        · exact chase_of_not_mem (he w (hit ▸ hw)) n
      simp [Subst.chase, hi, hleft, hit]
  · rw [chase_of_not_mem hv, image_of_not_mem hv]

theorem Direct.expand? {s : Subst} (h : s.Direct) (t : Ty) :
    s.expand? t = some (t.subst s.image) :=
  Ty.subst?_eq_some fun v _ => h.chase v

theorem Solved.expand? {s : Subst} (h : s.Solved) (t : Ty) :
    s.expand? t = some (t.subst s.image) :=
  h.direct.expand? t

theorem Solved.expandAll? {s : Subst} (h : s.Solved) (ts : List Ty) :
    s.expandAll? ts = some (ts.map (Ty.subst s.image)) :=
  Ty.substAll?_eq_some fun t _ => h.expand? t

/-! ## One variable more -/

theorem mem_keys_solve {s : Subst} {v w : Int} {t : Ty} :
    w ∈ (s.solve v t).keys ↔ w ∈ s.keys ∨ w = v := by
  rw [solve, Table.mem_keys_append, Table.keys_map, Table.keys_single, List.mem_singleton]

theorem mem_values_solve {s : Subst} {v : Int} {t u : Ty} (h : u ∈ (s.solve v t).values) :
    (∃ w ∈ s.values, w.replace v t = u) ∨ u = t := by
  refine (Table.mem_values_append h).imp (fun hu => ?_) fun hu => ?_
  · rw [Table.values_map] at hu
    exact List.mem_map.1 hu
  · rwa [Table.values_single, List.mem_singleton] at hu

theorem image_solve (s : Subst) (v : Int) (t : Ty) (w : Int) :
    (s.solve v t).image w = (s.image w).replace v t := by
  have hget : (s.solve v t).get? w =
      ((s.get? w).map (·.replace v t)).or (if v = w then some t else none) := by
    rw [solve, Table.get?_append, Table.get?_map]
    rfl
  by_cases hw : w ∈ s.keys
  · obtain ⟨u, hu⟩ := Table.mem_keys.1 hw
    simp [image, hget, hu]
  · have hu := Table.get?_eq_none.2 hw
    by_cases hvw : v = w
    · subst hvw
      simp [image, hget, hu, Ty.replace]
    · simp [image, hget, hu, Ty.replace, hvw, Ne.symm hvw]

/-! ## Replacements after which a substitution changes nothing -/

/-- What a substitution puts in for a variable becomes the same as the variable itself. -/
def Absorbs (f : Int → Ty) (s : Subst) : Prop := ∀ v, (s.image v).subst f = f v

theorem Absorbs.subst {f : Int → Ty} {s : Subst} (h : Absorbs f s) (t : Ty) :
    (t.subst s.image).subst f = t.subst f := by
  rw [Ty.subst_subst]
  exact Ty.subst_congr fun v _ => h v

theorem Absorbs.substAll {f : Int → Ty} {s : Subst} (h : Absorbs f s) (ts : List Ty) :
    (ts.map (Ty.subst s.image)).map (Ty.subst f) = ts.map (Ty.subst f) := by
  rw [List.map_map]
  exact List.map_congr_left fun t _ => h.subst t

theorem Absorbs.trans {f : Int → Ty} {s s' : Subst} (h : Absorbs f s) (h' : Absorbs s.image s') :
    Absorbs f s' := by
  intro v
  rw [← h.subst, h' v]
  exact h v

theorem absorbs_empty (f : Int → Ty) : Absorbs f empty := fun _ => rfl

theorem Solved.absorbs {s : Subst} (h : s.Solved) : Absorbs s.image s :=
  fun _ => subst_of_not_mem fun _ hw => h.not_mem_image hw

/-! ## Composition -/

/-- The variables of the later substitution are none that the earlier one replaces. -/
def LeavesAlone (later earlier : Subst) : Prop := ∀ v ∈ later.mentioned, v ∉ earlier.keys

/-- One substitution that does what two do one after the other. -/
structure Composed (later earlier both : Subst) : Prop where
  image : ∀ v, both.image v = (earlier.image v).subst later.image
  keys : ∀ v, v ∈ both.keys ↔ v ∈ earlier.keys ∨ v ∈ later.keys
  solved : both.Solved
  mentioned : ∀ v ∈ both.mentioned, v ∈ earlier.mentioned ∨ v ∈ later.mentioned
  later : Absorbs both.image later
  earlier : Absorbs both.image earlier

theorem Composed.subst {later earlier both : Subst} (h : Composed later earlier both) (t : Ty) :
    t.subst both.image = (t.subst earlier.image).subst later.image := by
  rw [Ty.subst_subst]
  exact Ty.subst_congr fun v _ => h.image v

theorem Composed.absorbs {later earlier both : Subst} (h : Composed later earlier both)
    {f : Int → Ty} (hl : Absorbs f later) (he : Absorbs f earlier) : Absorbs f both := by
  intro v
  rw [h.image, hl.subst]
  exact he v

/-- The bindings of the earlier substitution, with the later one applied to their images, and
those of the later one. -/
def joined (later earlier : Subst) : Subst :=
  (earlier.map (Ty.subst later.image)).append later

theorem mem_keys_joined {later earlier : Subst} {v : Int} :
    v ∈ (joined later earlier).keys ↔ v ∈ earlier.keys ∨ v ∈ later.keys := by
  rw [joined, Table.mem_keys_append, Table.keys_map]

theorem mem_values_joined {later earlier : Subst} {t : Ty} (h : t ∈ (joined later earlier).values) :
    (∃ u ∈ earlier.values, u.subst later.image = t) ∨ t ∈ later.values := by
  refine (Table.mem_values_append h).imp_left fun ht => ?_
  rw [Table.values_map] at ht
  exact List.mem_map.1 ht

theorem image_joined (later earlier : Subst) (v : Int) :
    (joined later earlier).image v = (earlier.image v).subst later.image := by
  have hget : (joined later earlier).get? v =
      ((earlier.get? v).map (Ty.subst later.image)).or (later.get? v) := by
    rw [joined, Table.get?_append, Table.get?_map]
  rcases hv : earlier.get? v with _ | t <;> simp [image, hget, hv]

theorem compose?_eq_joined {later earlier : Subst} (hl : later.Solved)
    (hc : LeavesAlone later earlier) :
    later.compose? earlier = some (joined later earlier) := by
  have hm : earlier.map? later.expand? = some (earlier.map (Ty.subst later.image)) :=
    Table.map?_eq_some fun t _ => hl.expand? t
  have hw : (earlier.map (Ty.subst later.image)).without later.keys =
      earlier.map (Ty.subst later.image) := by
    apply Table.without_eq_self
    intro v hv hk
    rw [Table.keys_map] at hv
    exact hc v (keys_subset_mentioned hk) hv
  rw [compose?, hm]
  simp [hw, joined]

theorem composed_joined {later earlier : Subst} (hl : later.Solved) (he : earlier.Solved)
    (hc : LeavesAlone later earlier) : Composed later earlier (joined later earlier) := by
  refine ⟨image_joined later earlier, fun v => mem_keys_joined, ?_, ?_, ?_, ?_⟩
  · intro v hv t ht hvt
    rcases mem_values_joined ht with ⟨u, hu, rfl⟩ | ht
    · obtain ⟨w, hw, hvw⟩ := Ty.mem_leaves_subst.1 hvt
      rcases mem_keys_joined.1 hv with hv | hv
      · rcases mem_mentioned_of_image hvw with rfl | hm
        · exact he v hv u hu hw
        · exact hc v hm hv
      · exact hl.not_mem_image hvw hv
    · rcases mem_keys_joined.1 hv with hv | hv
      · exact hc v (mem_mentioned_of_value ht hvt) hv
      · exact hl v hv t ht hvt
  · intro v hv
    rcases List.mem_append.1 hv with hv | hv
    · exact (mem_keys_joined.1 hv).imp keys_subset_mentioned keys_subset_mentioned
    · obtain ⟨t, ht, hvt⟩ := List.mem_flatMap.1 hv
      rcases mem_values_joined ht with ⟨u, hu, rfl⟩ | ht
      · obtain ⟨w, hw, hvw⟩ := Ty.mem_leaves_subst.1 hvt
        rcases mem_mentioned_of_image hvw with rfl | hm
        · exact Or.inl (mem_mentioned_of_value hu hw)
        · exact Or.inr hm
      · exact Or.inr (mem_mentioned_of_value ht hvt)
  · intro v
    by_cases hv : v ∈ later.keys
    · rw [image_joined, image_of_not_mem (hc v (keys_subset_mentioned hv)), Ty.subst_var]
      apply subst_of_not_mem
      intro w hw hk
      rcases mem_keys_joined.1 hk with hk | hk
      · exact hc w (mem_mentioned_of_value (image_mem_values hv) hw) hk
      · exact hl.not_mem_image hw hk
    · rw [image_of_not_mem hv, Ty.subst_var]
  · intro v
    rw [image_joined]
    refine Ty.subst_congr fun w hw => ?_
    rw [image_joined, image_of_not_mem (he.not_mem_image hw), Ty.subst_var]

/-- Solved substitutions compose, if the later one leaves alone what the earlier replaced. -/
theorem exists_composed {later earlier : Subst} (hl : later.Solved) (he : earlier.Solved)
    (hc : LeavesAlone later earlier) :
    ∃ both, later.compose? earlier = some both ∧ Composed later earlier both :=
  ⟨_, compose?_eq_joined hl hc, composed_joined hl he hc⟩

end Subst

end LetPoly
