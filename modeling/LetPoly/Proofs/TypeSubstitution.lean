-- The laws of replacing variables in types. What a replacement does to a type
-- depends only on the variables that stand in it, and two replacements one after
-- the other are one.
import LetPoly.Unify

namespace LetPoly

namespace Ty

/-! ## Induction over types -/

/-- What holds of variables and base types, and of a function type whenever it holds of its
parts, holds of every type. -/
@[induction_eliminator]
theorem ind {motive : Ty → Prop} (var : ∀ v, motive (.var v)) (con : ∀ c, motive (.con c))
    (fn : ∀ params result, (∀ p ∈ params, motive p) → motive result → motive (.fn params result))
    (t : Ty) : motive t := by
  refine @Ty.rec motive (fun ts => ∀ p ∈ ts, motive p) var con fn ?_ ?_ t
  · simp
  · intro t more ht hmore p hp
    rcases List.mem_cons.1 hp with rfl | hp
    · exact ht
    · exact hmore p hp

/-! ## Lists of types -/

theorem substAll_eq_map (f : Int → Ty) (ts : List Ty) : substAll f ts = ts.map (subst f) := by
  induction ts with
  | nil => rfl
  | cons t more ih => simp [substAll, ih]

theorem leavesAll_eq_flatMap (ts : List Ty) : leavesAll ts = ts.flatMap leaves := by
  induction ts with
  | nil => rfl
  | cons t more ih => simp [leavesAll, ih]

@[simp] theorem subst_var (f : Int → Ty) (v : Int) : (var v).subst f = f v := rfl

@[simp] theorem subst_con (f : Int → Ty) (c : String) : (con c).subst f = con c := rfl

@[simp] theorem subst_fn (f : Int → Ty) (params : List Ty) (result : Ty) :
    (fn params result).subst f = fn (params.map (subst f)) (result.subst f) := by
  simp [subst, substAll_eq_map]

@[simp] theorem leaves_var (v : Int) : (var v).leaves = [v] := rfl

@[simp] theorem leaves_con (c : String) : (con c).leaves = [] := rfl

@[simp] theorem leaves_fn (params : List Ty) (result : Ty) :
    (fn params result).leaves = params.flatMap leaves ++ result.leaves := by
  simp [leaves, leavesAll_eq_flatMap]

/-! ## What a replacement depends on -/

theorem subst_congr {f g : Int → Ty} {t : Ty} (h : ∀ v ∈ t.leaves, f v = g v) :
    t.subst f = t.subst g := by
  induction t with
  | var v => exact h v (by simp)
  | con c => rfl
  | fn params result ihp ihr =>
    simp only [leaves_fn, List.mem_append, List.mem_flatMap] at h
    have hp : params.map (subst f) = params.map (subst g) :=
      List.map_congr_left fun p hp => ihp p hp fun v hv => h v (Or.inl ⟨p, hp, hv⟩)
    have hr : result.subst f = result.subst g := ihr fun v hv => h v (Or.inr hv)
    rw [subst_fn, subst_fn, hp, hr]

theorem eq_of_subst_eq {f g : Int → Ty} {t : Ty} (h : t.subst f = t.subst g) :
    ∀ v ∈ t.leaves, f v = g v := by
  induction t with
  | var v => simpa using h
  | con c => simp
  | fn params result ihp ihr =>
    rw [subst_fn, subst_fn, fn.injEq] at h
    intro v hv
    simp only [leaves_fn, List.mem_append, List.mem_flatMap] at hv
    rcases hv with ⟨p, hp, hv⟩ | hv
    · exact ihp p hp (List.map_inj_left.1 h.1 p hp) v hv
    · exact ihr h.2 v hv

theorem subst_eq_self {f : Int → Ty} {t : Ty} (h : ∀ v ∈ t.leaves, f v = var v) :
    t.subst f = t := by
  induction t with
  | var v => exact h v (by simp)
  | con c => rfl
  | fn params result ihp ihr =>
    simp only [leaves_fn, List.mem_append, List.mem_flatMap] at h
    have hp : params.map (subst f) = params := by
      rw [List.map_congr_left fun p hp => ihp p hp fun v hv => h v (Or.inl ⟨p, hp, hv⟩)]
      exact List.map_id' params
    rw [subst_fn, hp, ihr fun v hv => h v (Or.inr hv)]

@[simp] theorem subst_var_self (t : Ty) : t.subst var = t :=
  subst_eq_self fun _ _ => rfl

theorem subst_subst (f g : Int → Ty) (t : Ty) :
    (t.subst f).subst g = t.subst fun v => (f v).subst g := by
  induction t with
  | var v => rfl
  | con c => rfl
  | fn params result ihp ihr =>
    have hp : params.map (subst g ∘ subst f) = params.map (subst fun v => (f v).subst g) :=
      List.map_congr_left ihp
    simp [hp, ihr]

theorem mem_leaves_subst {f : Int → Ty} {t : Ty} {w : Int} :
    w ∈ (t.subst f).leaves ↔ ∃ v ∈ t.leaves, w ∈ (f v).leaves := by
  induction t with
  | var v => simp
  | con c => simp
  | fn params result ihp ihr =>
    simp only [subst_fn, leaves_fn, List.mem_append, List.flatMap_map, List.mem_flatMap, ihr]
    constructor
    · rintro (⟨p, hp, hw⟩ | ⟨v, hv, hw⟩)
      · obtain ⟨v, hv, hw⟩ := (ihp p hp).1 hw
        exact ⟨v, Or.inl ⟨p, hp, hv⟩, hw⟩
      · exact ⟨v, Or.inr hv, hw⟩
    · rintro ⟨v, ⟨p, hp, hv⟩ | hv, hw⟩
      · exact Or.inl ⟨p, hp, (ihp p hp).2 ⟨v, hv, hw⟩⟩
      · exact Or.inr ⟨v, hv, hw⟩

/-! ## Replacements that may be missing -/

theorem substAll?_eq_some {f : Int → Option Ty} {g : Int → Ty} {ts : List Ty}
    (h : ∀ t ∈ ts, t.subst? f = some (t.subst g)) :
    substAll? f ts = some (ts.map (subst g)) := by
  induction ts with
  | nil => rfl
  | cons t more ih =>
    rw [substAll?, h t (by simp), ih fun u hu => h u (by simp [hu])]
    rfl

theorem subst?_eq_some {f : Int → Option Ty} {g : Int → Ty} {t : Ty}
    (h : ∀ v ∈ t.leaves, f v = some (g v)) : t.subst? f = some (t.subst g) := by
  induction t with
  | var v => exact h v (by simp)
  | con c => rfl
  | fn params result ihp ihr =>
    simp only [leaves_fn, List.mem_append, List.mem_flatMap] at h
    have hp : substAll? f params = some (params.map (subst g)) :=
      substAll?_eq_some fun p hp => ihp p hp fun v hv => h v (Or.inl ⟨p, hp, hv⟩)
    rw [subst?, hp, ihr fun v hv => h v (Or.inr hv), subst_fn]
    rfl

/-! ## One variable replaced -/

theorem subst_replace {f : Int → Ty} {v : Int} {image : Ty} (h : f v = image.subst f) (t : Ty) :
    (t.replace v image).subst f = t.subst f := by
  unfold replace
  rw [subst_subst]
  apply subst_congr
  intro w _
  by_cases hw : w = v
  · subst hw
    simp [h]
  · simp [hw]

/-! ## The size of a replacement -/

theorem size_le_sizeAll {t : Ty} {ts : List Ty} (h : t ∈ ts) : Unify.size t ≤ Unify.sizeAll ts := by
  induction ts with
  | nil => cases h
  | cons u more ih =>
    simp only [Unify.sizeAll]
    rcases List.mem_cons.1 h with rfl | h
    · omega
    · have := ih h
      omega

/-- What a variable is replaced by is no larger than what becomes of a type that holds it. -/
theorem size_le_size_subst (f : Int → Ty) {v : Int} {t : Ty} (h : v ∈ t.leaves) :
    Unify.size (f v) ≤ Unify.size (t.subst f) := by
  induction t with
  | var w =>
    obtain rfl : v = w := by simpa using h
    exact Nat.le_refl _
  | con c => simp at h
  | fn params result ihp ihr =>
    simp only [leaves_fn, List.mem_append, List.mem_flatMap] at h
    simp only [subst_fn, Unify.size]
    rcases h with ⟨p, hp, h⟩ | h
    · have h1 := ihp p hp h
      have h2 := size_le_sizeAll (List.mem_map_of_mem (f := subst f) hp)
      omega
    · have h1 := ihr h
      omega

/-- A variable never becomes equal to another type that it stands in. -/
theorem subst_ne_of_occurs (f : Int → Ty) {v : Int} {t : Ty} (h : v ∈ t.leaves) (hne : t ≠ var v) :
    f v ≠ t.subst f := by
  intro he
  cases t with
  | var w =>
    obtain rfl : v = w := by simpa using h
    exact hne rfl
  | con c => simp at h
  | fn params result =>
    have hs := congrArg Unify.size he
    simp only [leaves_fn, List.mem_append, List.mem_flatMap] at h
    simp only [subst_fn, Unify.size] at hs
    rcases h with ⟨p, hp, h⟩ | h
    · have h1 := size_le_size_subst f h
      have h2 := size_le_sizeAll (List.mem_map_of_mem (f := subst f) hp)
      omega
    · have h1 := size_le_size_subst f h
      omega

end Ty

/-! ## Replacements that agree -/

/-- Two replacements are the same for all variables before the given one. -/
def Agree (n : Int) (g f : Int → Ty) : Prop := ∀ v < n, g v = f v

theorem Agree.mono {n n' : Int} {g f : Int → Ty} (h : Agree n' g f) (hn : n ≤ n') : Agree n g f :=
  fun v hv => h v (Int.lt_of_lt_of_le hv hn)

theorem Agree.trans {n : Int} {g h f : Int → Ty} (hgh : Agree n g h) (hhf : Agree n h f) :
    Agree n g f :=
  fun v hv => (hgh v hv).trans (hhf v hv)

theorem Agree.subst {n : Int} {g f : Int → Ty} (h : Agree n g f) {t : Ty}
    (ht : ∀ v ∈ t.leaves, v < n) : t.subst g = t.subst f :=
  Ty.subst_congr fun v hv => h v (ht v hv)

theorem Agree.substAll {n : Int} {g f : Int → Ty} (h : Agree n g f) {ts : List Ty}
    (ht : ∀ t ∈ ts, ∀ v ∈ t.leaves, v < n) : ts.map (Ty.subst g) = ts.map (Ty.subst f) :=
  List.map_congr_left fun t hmem => h.subst (ht t hmem)

end LetPoly
