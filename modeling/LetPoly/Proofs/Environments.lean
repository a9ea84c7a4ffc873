-- The laws of type schemes and environments. The instances of a scheme are what
-- its body becomes when the bound variables are replaced in any way. A replacement
-- of the free variables is clean if it puts in no variable that the scheme binds:
-- then the instances of the scheme afterwards are those reached through it.
import LetPoly.Proofs.Substitutions
import LetPoly.Scheme

namespace LetPoly

namespace Scheme

/-! ## Instances of schemes -/

/-- A type is what the body becomes when the bound variables are replaced in any way, and the
others as given. -/
def Reaches (scheme : Scheme) (f : Int → Ty) (t : Ty) : Prop :=
  ∃ g : Int → Ty, (∀ v, v ∉ scheme.quantified → g v = f v) ∧ t = scheme.body.subst g

/-- A type is what the body becomes when the bound variables are replaced in any way. -/
def Instance (scheme : Scheme) (t : Ty) : Prop := scheme.Reaches .var t

/-- A replacement of variables applied to those that stand free. -/
def subst (f : Int → Ty) (scheme : Scheme) : Scheme :=
  { scheme with
    body := scheme.body.subst fun v => if v ∈ scheme.quantified then .var v else f v }

/-- What is put in for the free variables holds none that the scheme binds. -/
def Clean (f : Int → Ty) (scheme : Scheme) : Prop :=
  ∀ v ∈ scheme.freeVars, ∀ w ∈ (f v).leaves, w ∉ scheme.quantified

theorem mem_freeVars {scheme : Scheme} {v : Int} :
    v ∈ scheme.freeVars ↔ v ∈ scheme.body.leaves ∧ v ∉ scheme.quantified := by
  simp [freeVars, Ascending.mem_ofList]

theorem Reaches.congr {scheme : Scheme} {f f' : Int → Ty} {t : Ty}
    (hf : ∀ v ∈ scheme.freeVars, f v = f' v) (h : scheme.Reaches f t) : scheme.Reaches f' t := by
  obtain ⟨g, hg, rfl⟩ := h
  refine ⟨fun v => if v ∈ scheme.quantified then g v else f' v, fun v hv => by simp [hv], ?_⟩
  apply Ty.subst_congr
  intro v hv
  by_cases hq : v ∈ scheme.quantified
  · simp [hq]
  · simp [hq, hg v hq, hf v (mem_freeVars.2 ⟨hv, hq⟩)]

theorem instance_body (scheme : Scheme) : scheme.Instance scheme.body :=
  ⟨.var, fun _ _ => rfl, (Ty.subst_var_self _).symm⟩

/-- After a clean replacement a scheme reaches what it reached through both replacements. -/
theorem reaches_subst {scheme : Scheme} {f g : Int → Ty} (hc : scheme.Clean f) {t : Ty} :
    (scheme.subst f).Reaches g t ↔ scheme.Reaches (fun v => (f v).subst g) t := by
  have hkeep : ∀ h : Int → Ty, (∀ v, v ∉ scheme.quantified → h v = g v) →
      ∀ v ∈ scheme.body.leaves, v ∉ scheme.quantified → (f v).subst h = (f v).subst g :=
    fun h hh v hv hq => Ty.subst_congr fun w hw => hh w (hc v (mem_freeVars.2 ⟨hv, hq⟩) w hw)
  constructor
  · rintro ⟨h, hh, rfl⟩
    refine ⟨fun v => if v ∈ scheme.quantified then h v else (f v).subst g,
      fun v hv => by simp [hv], ?_⟩
    simp only [subst]
    rw [Ty.subst_subst]
    apply Ty.subst_congr
    intro v hv
    by_cases hq : v ∈ scheme.quantified
    · simp [hq]
    · simp [hq, hkeep h hh v hv hq]
  · rintro ⟨h, hh, rfl⟩
    refine ⟨fun v => if v ∈ scheme.quantified then h v else g v, fun v hv => by
      simp [subst] at hv; simp [hv], ?_⟩
    simp only [subst]
    rw [Ty.subst_subst]
    apply Ty.subst_congr
    intro v hv
    by_cases hq : v ∈ scheme.quantified
    · simp [hq]
    · simp only [hq, if_false, hh v hq]
      exact (hkeep _ (fun w hw => by simp [hw]) v hv hq).symm

theorem instance_subst {scheme : Scheme} {f : Int → Ty} (hc : scheme.Clean f) {t : Ty} :
    (scheme.subst f).Instance t ↔ scheme.Reaches f t := by
  unfold Instance
  rw [reaches_subst hc]
  simp

theorem mem_freeVars_of_subst {scheme : Scheme} {f : Int → Ty} {w : Int}
    (h : w ∈ (scheme.subst f).freeVars) : ∃ v ∈ scheme.freeVars, w ∈ (f v).leaves := by
  obtain ⟨hw, hn⟩ := mem_freeVars.1 h
  obtain ⟨v, hv, hw⟩ := Ty.mem_leaves_subst.1 hw
  by_cases hq : v ∈ scheme.quantified
  · obtain rfl : w = v := by simpa [hq] using hw
    exact absurd hq hn
  · exact ⟨v, mem_freeVars.2 ⟨hv, hq⟩, by simpa [hq] using hw⟩

theorem mem_freeVars_subst {scheme : Scheme} {f : Int → Ty} (hc : scheme.Clean f) {v w : Int}
    (hv : v ∈ scheme.freeVars) (hw : w ∈ (f v).leaves) : w ∈ (scheme.subst f).freeVars := by
  obtain ⟨hl, hq⟩ := mem_freeVars.1 hv
  refine mem_freeVars.2 ⟨Ty.mem_leaves_subst.2 ⟨v, hl, ?_⟩, hc v hv w hw⟩
  simpa [hq] using hw

theorem subst_congr {scheme : Scheme} {f g : Int → Ty} (h : ∀ v ∈ scheme.freeVars, f v = g v) :
    scheme.subst f = scheme.subst g := by
  have hb : scheme.body.subst (fun v => if v ∈ scheme.quantified then .var v else f v) =
      scheme.body.subst (fun v => if v ∈ scheme.quantified then .var v else g v) := by
    apply Ty.subst_congr
    intro v hv
    by_cases hq : v ∈ scheme.quantified
    · simp [hq]
    · simp [hq, h v (mem_freeVars.2 ⟨hv, hq⟩)]
  simp only [subst, hb]

theorem subst_eq_self {scheme : Scheme} {f : Int → Ty} (h : ∀ v ∈ scheme.freeVars, f v = .var v) :
    scheme.subst f = scheme := by
  have hb : scheme.body.subst (fun v => if v ∈ scheme.quantified then .var v else f v) =
      scheme.body := by
    apply Ty.subst_eq_self
    intro v hv
    by_cases hq : v ∈ scheme.quantified
    · simp [hq]
    · simp [hq, h v (mem_freeVars.2 ⟨hv, hq⟩)]
  simp only [subst, hb]

theorem subst_subst {scheme : Scheme} {f g : Int → Ty} (hc : scheme.Clean f) :
    (scheme.subst f).subst g = scheme.subst fun v => (f v).subst g := by
  refine Scheme.ext rfl ?_
  simp only [subst]
  rw [Ty.subst_subst]
  apply Ty.subst_congr
  intro v hv
  by_cases hq : v ∈ scheme.quantified
  · simp [hq]
  · simp only [hq, if_false]
    apply Ty.subst_congr
    intro w hw
    simp [hc v (mem_freeVars.2 ⟨hv, hq⟩) w hw]

/-! ## Types as schemes -/

@[simp] theorem freeVars_mono {t : Ty} {v : Int} : v ∈ (mono t).freeVars ↔ v ∈ t.leaves := by
  simp [mem_freeVars, mono]

@[simp] theorem reaches_mono {t u : Ty} {f : Int → Ty} :
    (mono t).Reaches f u ↔ u = t.subst f := by
  constructor
  · rintro ⟨g, hg, rfl⟩
    exact Ty.subst_congr fun v _ => hg v (by simp [mono])
  · intro h
    exact ⟨f, fun v _ => rfl, h⟩

@[simp] theorem instance_mono {t u : Ty} : (mono t).Instance u ↔ u = t := by
  simp [Instance]

/-! ## Substitutions on schemes -/

theorem image_without (s : Subst) (vs : List Int) (v : Int) :
    Subst.image (s.without vs) v = if v ∈ vs then .var v else s.image v := by
  unfold Subst.image
  rw [Table.get?_without]
  by_cases h : v ∈ vs <;> simp [h]

theorem solved_without {s : Subst} (h : s.Solved) (vs : List Int) :
    Subst.Solved (s.without vs) := by
  intro v hv t ht
  obtain ⟨e, he, rfl⟩ := List.mem_map.1 hv
  obtain ⟨e', he', rfl⟩ := List.mem_map.1 ht
  exact h e.1 (List.mem_map_of_mem (List.mem_filter.1 he).1) e'.2
    (List.mem_map_of_mem (List.mem_filter.1 he').1)

theorem expand?_eq_some {s : Subst} (h : s.Solved) (scheme : Scheme) :
    scheme.expand? s = some (scheme.subst s.image) := by
  have hb : Subst.expand? (s.without scheme.quantified) scheme.body =
      some (scheme.subst s.image).body := by
    rw [(solved_without h scheme.quantified).expand?]
    simp only [subst, Option.some.injEq]
    exact Ty.subst_congr fun v _ => image_without s scheme.quantified v
  rw [expand?, hb]
  rfl

/-! ## Fresh variables for bound ones -/

theorem keys_freshen (scheme : Scheme) (next : Int) :
    (scheme.freshen next).keys = scheme.quantified := by
  simp [freshen, Table.keys, Function.comp_def]

theorem image_freshen {scheme : Scheme} {next v : Int} (h : v ∈ scheme.quantified) :
    ∃ i : Nat, scheme.quantified[i]? = some v ∧
      (scheme.freshen next).image v = .var (next + i) := by
  have hk : v ∈ (scheme.freshen next).keys := by rwa [keys_freshen]
  obtain ⟨t, ht⟩ := Table.mem_keys.1 hk
  obtain ⟨⟨w, i⟩, hi, he⟩ := List.mem_map.1 (Table.find?_mem ht)
  obtain ⟨rfl, rfl⟩ := Prod.mk.inj he
  exact ⟨i, by simpa using List.mem_zipIdx_iff_getElem?.1 hi, by simp [Subst.image, ht]⟩

/-- A fresh variable stands for one bound variable only. -/
theorem eq_of_image_freshen {scheme : Scheme} {next v w : Int} (hv : v ∈ scheme.quantified)
    (hw : w ∈ scheme.quantified)
    (h : (scheme.freshen next).image v = (scheme.freshen next).image w) : v = w := by
  obtain ⟨i, hi, he⟩ := @image_freshen scheme next v hv
  obtain ⟨j, hj, he'⟩ := @image_freshen scheme next w hw
  rw [he, he', Ty.var.injEq] at h
  obtain rfl : i = j := by omega
  rw [hi] at hj
  exact Option.some.inj hj

/-- The fresh variables come out as they are if none of them is bound, or if there is only one. -/
theorem direct_freshen {scheme : Scheme} {next : Int}
    (h : (∀ v ∈ scheme.quantified, v < next) ∨ ∃ v, scheme.quantified = [v]) :
    (scheme.freshen next).Direct := by
  intro v hv
  rw [keys_freshen] at hv ⊢
  obtain ⟨i, -, he⟩ := @image_freshen scheme next v hv
  rw [he]
  rcases h with h | ⟨w, hw⟩
  · refine Or.inr fun x hx hq => ?_
    obtain rfl : x = next + i := by simpa using hx
    have := h _ hq
    omega
  · obtain rfl : v = w := by simpa [hw] using hv
    by_cases hvn : next + i = v
    · exact Or.inl (by rw [hvn])
    · refine Or.inr fun x hx hq => ?_
      obtain rfl : x = next + i := by simpa using hx
      exact hvn (by simpa [hw] using hq)

/-- Each bound variable has the fresh variable of its own place. -/
theorem image_freshen_getElem? {scheme : Scheme} {next v : Int} {i : Nat}
    (hi : scheme.quantified[i]? = some v) :
    (scheme.freshen next).image v = .var (next + i) := by
  obtain ⟨j, hj, himage⟩ := @image_freshen scheme next v (List.mem_of_getElem? hi)
  obtain rfl : i = j :=
    (List.getElem?_inj (List.getElem?_eq_some_iff.1 hi).1 scheme.nodup_quantified).1
      (hi.trans hj.symm)
  exact himage

theorem chase_freshen {scheme : Scheme} {next v : Int} {i : Nat}
    (hi : scheme.quantified[i]? = some v) (hne : v ≠ next + i) (m : Nat) :
    (scheme.freshen next).chase (m + 1) v = (scheme.freshen next).chase m (next + i) := by
  have himage := @image_freshen_getElem? scheme next _ i hi
  have hnext : (scheme.freshen next).image? v = some (.var (next + i)) := by
    unfold Subst.image at himage
    unfold Subst.image?
    rcases hget : (scheme.freshen next).get? v with _ | t
    · simp [hget, hne] at himage
    · obtain rfl : t = .var (next + i) := by simpa [hget] using himage
      simp [Ne.symm hne]
  rw [Subst.chase, hnext]
  rfl

theorem chase_freshen_self {scheme : Scheme} {next : Int} {i : Nat}
    (hi : scheme.quantified[i]? = some (next + i)) (m : Nat) :
    (scheme.freshen next).chase m (next + i) = some (.var (next + i)) := by
  have himage := @image_freshen_getElem? scheme next _ i hi
  have hnone : (scheme.freshen next).image? (next + i) = none := by
    unfold Subst.image at himage
    unfold Subst.image?
    rcases hget : (scheme.freshen next).get? (next + i) with _ | t
    · rfl
    · obtain rfl : t = .var (next + i) := by simpa [hget] using himage
      simp
  cases m <;> simp [Subst.chase, hnone]

theorem lt_of_quantified_lt {scheme : Scheme} {v w : Int} {i j : Nat}
    (hi : scheme.quantified[i]? = some v) (hj : scheme.quantified[j]? = some w) (hvw : v < w) :
    i < j := by
  obtain ⟨hi', rfl⟩ := List.getElem?_eq_some_iff.1 hi
  obtain ⟨hj', rfl⟩ := List.getElem?_eq_some_iff.1 hj
  by_contra hle
  rcases Nat.lt_or_eq_of_le (Nat.not_lt.1 hle) with hlt | rfl
  · have := List.pairwise_iff_getElem.1 scheme.ascending j i hj' hi' hlt
    omega
  · omega

/-- From a bound variable that comes before the one drawn for it, the way leads on to bound
variables further up only. -/
theorem chase_upwards {scheme : Scheme} {next v : Int} {i m : Nat}
    (hi : scheme.quantified[i]? = some v) (hle : v ≤ next + i)
    (hm : scheme.quantified.length ≤ m + i) :
    ∃ k < scheme.quantified.length,
      (scheme.freshen next).chase m v = some (.var (next + (k : Nat))) := by
  have hlt := (List.getElem?_eq_some_iff.1 hi).1
  induction m generalizing v i with
  | zero => omega
  | succ m ih =>
    by_cases hself : v = next + i
    · subst hself
      exact ⟨i, hlt, chase_freshen_self hi _⟩
    · rw [chase_freshen hi hself]
      by_cases hq : next + i ∈ scheme.quantified
      · obtain ⟨j, hj⟩ := List.mem_iff_getElem?.1 hq
        have hij := lt_of_quantified_lt hi hj (by omega)
        exact ih hj (by omega) (by omega) (List.getElem?_eq_some_iff.1 hj).1
      · exact ⟨i, hlt, Subst.chase_of_not_mem (by rwa [keys_freshen]) m⟩

/-- From a bound variable that comes after the one drawn for it, the way leads on to bound
variables further down only. -/
theorem chase_downwards {scheme : Scheme} {next v : Int} {i m : Nat}
    (hi : scheme.quantified[i]? = some v) (hle : next + i ≤ v)
    (hm : i < m) :
    ∃ k < scheme.quantified.length,
      (scheme.freshen next).chase m v = some (.var (next + (k : Nat))) := by
  have hlt := (List.getElem?_eq_some_iff.1 hi).1
  induction m generalizing v i with
  | zero => omega
  | succ m ih =>
    by_cases hself : v = next + i
    · subst hself
      exact ⟨i, hlt, chase_freshen_self hi _⟩
    · rw [chase_freshen hi hself]
      by_cases hq : next + i ∈ scheme.quantified
      · obtain ⟨j, hj⟩ := List.mem_iff_getElem?.1 hq
        have hij := lt_of_quantified_lt hj hi (by omega)
        exact ih hj (by omega) (by omega) (List.getElem?_eq_some_iff.1 hj).1
      · exact ⟨i, hlt, Subst.chase_of_not_mem (by rwa [keys_freshen]) m⟩

theorem exists_chase_freshen {scheme : Scheme} {next v : Int}
    (hv : v ∈ scheme.quantified) :
    ∃ k < scheme.quantified.length, (scheme.freshen next).chase (scheme.freshen next).size v =
      some (.var (next + (k : Nat))) := by
  obtain ⟨i, hi⟩ := List.mem_iff_getElem?.1 hv
  have hsize : (scheme.freshen next).size = scheme.quantified.length := by
    rw [← keys_freshen scheme next]
    simp [Table.size, Table.keys]
  rw [hsize]
  rcases Int.le_total v (next + i) with hle | hle
  · exact chase_upwards hi hle (by omega)
  · exact chase_downwards hi hle (List.getElem?_eq_some_iff.1 hi).1

/-- The body with fresh variables for the bound ones, from the given one on. -/
def opened (scheme : Scheme) (n : Int) : Ty := scheme.body.subst (scheme.freshen n).image

theorem image_freshen_of_not_mem {scheme : Scheme} {n v : Int} (h : v ∉ scheme.quantified) :
    (scheme.freshen n).image v = .var v :=
  Subst.image_of_not_mem (by rwa [keys_freshen])

theorem instance_opened (scheme : Scheme) (n : Int) : scheme.Instance (scheme.opened n) :=
  ⟨_, fun _ hv => image_freshen_of_not_mem hv, rfl⟩

theorem leaves_opened {scheme : Scheme} {n v : Int} (h : v ∈ (scheme.opened n).leaves) :
    v ∈ scheme.freeVars ∨ n ≤ v ∧ v < n + scheme.quantified.length := by
  obtain ⟨w, hw, hv⟩ := Ty.mem_leaves_subst.1 h
  by_cases hq : w ∈ scheme.quantified
  · obtain ⟨i, hi, he⟩ := @image_freshen scheme n w hq
    obtain ⟨hlt, -⟩ := List.getElem?_eq_some_iff.1 hi
    obtain rfl : v = n + i := by simpa [he] using hv
    exact Or.inr (by omega)
  · rw [image_freshen_of_not_mem hq] at hv
    obtain rfl : v = w := by simpa using hv
    exact Or.inl (mem_freeVars.2 ⟨hw, hq⟩)

/-- A scheme is instantiated whichever variables it binds: each of them becomes one of the fresh
variables. -/
theorem exists_expand?_freshen (scheme : Scheme) (n : Int) :
    ∃ t, (scheme.freshen n).expand? scheme.body = some t ∧
      ∀ v ∈ t.leaves, v ∈ scheme.freeVars ∨ n ≤ v ∧ v < n + scheme.quantified.length := by
  -- where a variable ends up
  have hend : ∀ v, ∃ w, (scheme.freshen n).chase (scheme.freshen n).size v = some (.var w) ∧
      (v ∈ scheme.quantified → n ≤ w ∧ w < n + scheme.quantified.length) ∧
      (v ∉ scheme.quantified → w = v) := by
    intro v
    by_cases hv : v ∈ scheme.quantified
    · obtain ⟨k, hk, hchase⟩ := exists_chase_freshen hv
      exact ⟨_, hchase, fun _ => by omega, fun hn => absurd hv hn⟩
    · exact ⟨v, Subst.chase_of_not_mem (by rwa [keys_freshen]) _, fun h => absurd h hv,
        fun _ => rfl⟩
  choose f hchase hbound hfree using hend
  refine ⟨scheme.body.subst fun v => .var (f v), Ty.subst?_eq_some fun v _ => hchase v,
    fun w hw => ?_⟩
  obtain ⟨v, hv, hw⟩ := Ty.mem_leaves_subst.1 hw
  obtain rfl : w = f v := by simpa using hw
  by_cases hq : v ∈ scheme.quantified
  · exact .inr (hbound v hq)
  · rw [hfree v hq]
    exact .inl (mem_freeVars.2 ⟨hv, hq⟩)

/-- Whatever a scheme reaches comes from its fresh variables, with nothing changed before them. -/
theorem Reaches.exists_opened {scheme : Scheme} {f : Int → Ty} {t : Ty} (h : scheme.Reaches f t)
    {n : Int} (hn : ∀ v ∈ scheme.freeVars, v < n) :
    ∃ g, Agree n g f ∧ (scheme.opened n).subst g = t := by
  classical
  obtain ⟨r, hr, rfl⟩ := h
  refine ⟨fun w => if h : ∃ v ∈ scheme.quantified, (scheme.freshen n).image v = .var w
    then r h.choose else f w, fun w hw => ?_, ?_⟩
  · refine dif_neg ?_
    rintro ⟨v, hv, he⟩
    obtain ⟨i, -, hi⟩ := @image_freshen scheme n v hv
    rw [hi, Ty.var.injEq] at he
    omega
  · unfold opened
    rw [Ty.subst_subst]
    apply Ty.subst_congr
    intro v hv
    by_cases hq : v ∈ scheme.quantified
    · obtain ⟨i, -, hi⟩ := @image_freshen scheme n v hq
      have hex : ∃ w ∈ scheme.quantified, (scheme.freshen n).image w = .var (n + i) := ⟨v, hq, hi⟩
      rw [hi, Ty.subst_var, dif_pos hex]
      rw [eq_of_image_freshen hex.choose_spec.1 hq (hex.choose_spec.2.trans hi.symm)]
    · have hlt : v < n := hn v (mem_freeVars.2 ⟨hv, hq⟩)
      rw [image_freshen_of_not_mem hq, Ty.subst_var, hr v hq]
      refine dif_neg ?_
      rintro ⟨w, hw, he⟩
      obtain ⟨i, -, hi⟩ := @image_freshen scheme n w hw
      rw [hi, Ty.var.injEq] at he
      omega

end Scheme

namespace Env

/-! ## Environments -/

/-- A replacement of variables applied to those that stand free in each scheme. -/
def subst (f : Int → Ty) (env : Env) : Env := env.map (Scheme.subst f)

/-- What is put in for the free variables of a scheme holds none that it binds. -/
def Clean (f : Int → Ty) (env : Env) : Prop := ∀ scheme ∈ env.values, scheme.Clean f

/-- All variables of an environment, free or bound, come before the given one. -/
def Below (env : Env) (n : Int) : Prop :=
  ∀ scheme ∈ env.values, (∀ v ∈ scheme.freeVars, v < n) ∧ ∀ v ∈ scheme.quantified, v < n

theorem mem_freeVars {env : Env} {v : Int} :
    v ∈ env.freeVars ↔ ∃ scheme ∈ env.values, v ∈ scheme.freeVars := by
  simp [freeVars, Ascending.mem_ofList]

theorem Below.free {env : Env} {n : Int} (h : env.Below n) {v : Int} (hv : v ∈ env.freeVars) :
    v < n := by
  obtain ⟨scheme, hs, hv⟩ := mem_freeVars.1 hv
  exact (h scheme hs).1 v hv

theorem Below.mono {env : Env} {n n' : Int} (h : env.Below n) (hn : n ≤ n') : env.Below n' := by
  intro scheme hs
  obtain ⟨h1, h2⟩ := h scheme hs
  exact ⟨fun v hv => Int.lt_of_lt_of_le (h1 v hv) hn, fun v hv => Int.lt_of_lt_of_le (h2 v hv) hn⟩

theorem expand?_eq_some {s : Subst} (h : s.Solved) (env : Env) :
    Env.expand? s env = some (env.subst s.image) :=
  Table.map?_eq_some fun scheme _ => Scheme.expand?_eq_some h scheme

theorem values_subst {f : Int → Ty} {env : Env} {scheme : Scheme}
    (h : scheme ∈ (env.subst f).values) : ∃ old ∈ env.values, old.subst f = scheme := by
  unfold subst at h
  rw [Table.values_map] at h
  exact List.mem_map.1 h

theorem mem_freeVars_of_subst {f : Int → Ty} {env : Env} {w : Int}
    (h : w ∈ (env.subst f).freeVars) : ∃ v ∈ env.freeVars, w ∈ (f v).leaves := by
  obtain ⟨scheme, hs, hw⟩ := mem_freeVars.1 h
  obtain ⟨old, ho, rfl⟩ := values_subst hs
  obtain ⟨v, hv, hw⟩ := Scheme.mem_freeVars_of_subst hw
  exact ⟨v, mem_freeVars.2 ⟨old, ho, hv⟩, hw⟩

theorem mem_freeVars_subst {f : Int → Ty} {env : Env} (hc : env.Clean f) {v w : Int}
    (hv : v ∈ env.freeVars) (hw : w ∈ (f v).leaves) : w ∈ (env.subst f).freeVars := by
  obtain ⟨scheme, hs, hv⟩ := mem_freeVars.1 hv
  refine mem_freeVars.2 ⟨scheme.subst f, ?_, Scheme.mem_freeVars_subst (hc scheme hs) hv hw⟩
  rw [subst, Table.values_map]
  exact List.mem_map_of_mem hs

theorem subst_congr {f g : Int → Ty} {env : Env} (h : ∀ v ∈ env.freeVars, f v = g v) :
    env.subst f = env.subst g := by
  obtain ⟨entries⟩ := env
  simp only [subst, Table.map, Table.mk.injEq]
  apply List.map_congr_left
  intro entry he
  have hs : entry.2.subst f = entry.2.subst g :=
    Scheme.subst_congr fun v hv => h v (mem_freeVars.2 ⟨_, List.mem_map_of_mem he, hv⟩)
  simp only [hs]

theorem subst_subst {f g : Int → Ty} {env : Env} (hc : env.Clean f) :
    (env.subst f).subst g = env.subst fun v => (f v).subst g := by
  obtain ⟨entries⟩ := env
  simp only [subst, Table.map, Table.mk.injEq, List.map_map]
  apply List.map_congr_left
  intro entry he
  simp only [Function.comp_apply, Scheme.subst_subst (hc _ (List.mem_map_of_mem he))]

theorem subst_eq_self {f : Int → Ty} {env : Env} (h : ∀ v ∈ env.freeVars, f v = .var v) :
    env.subst f = env := by
  obtain ⟨entries⟩ := env
  simp only [subst, Table.map, Table.mk.injEq]
  refine (List.map_congr_left fun entry he => ?_).trans (List.map_id' entries)
  have hs : entry.2.subst f = entry.2 :=
    Scheme.subst_eq_self fun v hv => h v (mem_freeVars.2 ⟨_, List.mem_map_of_mem he, hv⟩)
  simp only [hs]

theorem Clean.absorb {f : Int → Ty} {s : Subst} {env : Env} (h : env.Clean f) (ha : s.Absorbs f) :
    (env.subst s.image).Clean f := by
  intro scheme hs v' hv' w hw
  obtain ⟨old, ho, rfl⟩ := values_subst hs
  obtain ⟨v, hv, hv'⟩ := Scheme.mem_freeVars_of_subst hv'
  refine h old ho v hv w ?_
  rw [← ha v]
  exact Ty.mem_leaves_subst.2 ⟨v', hv', hw⟩

theorem mem_freeVars_insert {env : Env} {x : String} {scheme : Scheme} {v : Int}
    (h : v ∈ Env.freeVars (env.insert x scheme)) : v ∈ scheme.freeVars ∨ v ∈ env.freeVars := by
  obtain ⟨other, ho, hv⟩ := mem_freeVars.1 h
  rcases Table.mem_values_insert ho with rfl | ho
  · exact Or.inl hv
  · exact Or.inr (mem_freeVars.2 ⟨other, ho, hv⟩)

theorem Below.insert {env : Env} {n : Int} (h : env.Below n) (x : String) {scheme : Scheme}
    (hf : ∀ v ∈ scheme.freeVars, v < n) (hq : ∀ v ∈ scheme.quantified, v < n) :
    Below (env.insert x scheme) n := by
  intro other ho
  rcases Table.mem_values_insert ho with rfl | ho
  · exact ⟨hf, hq⟩
  · exact h other ho

/-! ## Generalization -/

theorem mem_quantified_generalize {env : Env} {t : Ty} {v : Int} :
    v ∈ (env.generalize t).quantified ↔ v ∈ t.leaves ∧ v ∉ env.freeVars := by
  simp [generalize, Scheme.quantify, Ascending.mem_ofList]

theorem mem_freeVars_generalize {env : Env} {t : Ty} {v : Int} :
    v ∈ (env.generalize t).freeVars ↔ v ∈ t.leaves ∧ v ∈ env.freeVars := by
  have hbody : (env.generalize t).body = t := rfl
  rw [Scheme.mem_freeVars, hbody, mem_quantified_generalize]
  by_cases h : v ∈ env.freeVars <;> simp [h]

theorem Below.generalize {env : Env} {n : Int} (h : env.Below n) (x : String) {t : Ty}
    (ht : ∀ v ∈ t.leaves, v < n) : Below (env.insert x (env.generalize t)) n :=
  h.insert x (fun v hv => ht v (mem_freeVars_generalize.1 hv).1)
    fun v hv => ht v (mem_quantified_generalize.1 hv).1

end Env

/-! ## More and less general schemes -/

/-- Under a replacement of variables, the second scheme is at least as general as the first: it
has all instances that the first reaches. -/
def Scheme.AtLeast (f : Int → Ty) (scheme other : Scheme) : Prop :=
  ∀ t, scheme.Reaches f t → other.Instance t

/-- Under a replacement of variables, the second scheme is at most as general as the first: it has
no instances but those that the first reaches, and all their free variables. -/
structure Scheme.AtMost (f : Int → Ty) (scheme other : Scheme) : Prop where
  instances : ∀ t, other.Instance t → scheme.Reaches f t
  free : ∀ v ∈ scheme.freeVars, ∀ w ∈ (f v).leaves, w ∈ other.freeVars

/-- The second environment is name by name at least as general as the first. -/
def Env.AtLeast (f : Int → Ty) (env other : Env) : Prop :=
  Table.Rel (Scheme.AtLeast f) env other

/-- The second environment is name by name at most as general as the first. -/
def Env.AtMost (f : Int → Ty) (env other : Env) : Prop :=
  Table.Rel (Scheme.AtMost f) env other

theorem Scheme.atLeast_mono (f : Int → Ty) (t : Ty) :
    Scheme.AtLeast f (.mono t) (.mono (t.subst f)) := by
  intro u hu
  simpa using hu

theorem Scheme.atMost_mono (f : Int → Ty) (t : Ty) :
    Scheme.AtMost f (.mono t) (.mono (t.subst f)) := by
  refine ⟨fun u hu => ?_, fun v hv w hw => ?_⟩
  · simpa using hu
  · exact Scheme.freeVars_mono.2 (Ty.mem_leaves_subst.2 ⟨v, by simpa using hv, hw⟩)

namespace Env

theorem AtMost.free {f : Int → Ty} {env other : Env} (h : AtMost f env other) {v w : Int}
    (hv : v ∈ env.freeVars) (hw : w ∈ (f v).leaves) : w ∈ other.freeVars := by
  obtain ⟨scheme, hs, hv⟩ := mem_freeVars.1 hv
  obtain ⟨scheme', hs', hr⟩ := Table.Rel.exists_right h hs
  exact mem_freeVars.2 ⟨scheme', hs', hr.free v hv w hw⟩

theorem AtLeast.congr {f g : Int → Ty} {env other : Env} (h : AtLeast f env other)
    (hfg : ∀ v ∈ env.freeVars, f v = g v) : AtLeast g env other := by
  refine Table.Rel.imp h fun scheme hs other _ hr => ?_
  intro t ht
  exact hr t (ht.congr fun v hv => (hfg v (mem_freeVars.2 ⟨scheme, hs, hv⟩)).symm)

theorem AtMost.congr {f g : Int → Ty} {env other : Env} (h : AtMost f env other)
    (hfg : ∀ v ∈ env.freeVars, f v = g v) : AtMost g env other := by
  refine Table.Rel.imp h fun scheme hs other _ hr => ?_
  have hv : ∀ v ∈ scheme.freeVars, f v = g v := fun v hv =>
    hfg v (mem_freeVars.2 ⟨scheme, hs, hv⟩)
  exact ⟨fun t ht => (hr.instances t ht).congr hv,
    fun v h w hw => hr.free v h w (hv v h ▸ hw)⟩

theorem atLeast_self {f : Int → Ty} {env : Env} (hf : env.Clean f) :
    AtLeast f env (env.subst f) := by
  refine (Table.rel_eq env).map_right ?_
  rintro scheme hs _ rfl t ht
  exact (Scheme.instance_subst (hf _ hs)).2 ht

/-- A replacement that leaves the free variables as they are changes no environment. -/
theorem atLeast_of_fixed {f : Int → Ty} {env : Env} (hf : ∀ v ∈ env.freeVars, f v = .var v) :
    AtLeast f env env := by
  have hclean : env.Clean f := by
    intro scheme hs v hv w hw
    rw [hf v (mem_freeVars.2 ⟨scheme, hs, hv⟩), Ty.leaves_var, List.mem_singleton] at hw
    exact hw ▸ (Scheme.mem_freeVars.1 hv).2
  simpa [subst_eq_self hf] using atLeast_self hclean

theorem atMost_self {f : Int → Ty} {env : Env} (hf : env.Clean f) : AtMost f env (env.subst f) := by
  refine (Table.rel_eq env).map_right ?_
  rintro scheme hs _ rfl
  exact ⟨fun t ht => (Scheme.instance_subst (hf _ hs)).1 ht,
    fun v hv w hw => Scheme.mem_freeVars_subst (hf _ hs) hv hw⟩

/-- A substitution that changes nothing may be applied first. -/
theorem AtLeast.absorb {f : Int → Ty} {s : Subst} {env other : Env} (h : AtLeast f env other)
    (hc : env.Clean s.image) (ha : s.Absorbs f) : AtLeast f (env.subst s.image) other := by
  refine Table.Rel.map_left h fun scheme hs other hr t ht => ?_
  exact hr t (((Scheme.reaches_subst (hc scheme hs)).1 ht).congr fun v _ => ha v)

theorem AtMost.absorb {f : Int → Ty} {s : Subst} {env other : Env} (h : AtMost f env other)
    (hc : env.Clean s.image) (ha : s.Absorbs f) : AtMost f (env.subst s.image) other := by
  refine Table.Rel.map_left h fun scheme hs other hr => ⟨fun t ht => ?_, fun u hu w hw => ?_⟩
  · exact (Scheme.reaches_subst (hc scheme hs)).2
      ((hr.instances t ht).congr fun v _ => (ha v).symm)
  · obtain ⟨v, hv, hu⟩ := Scheme.mem_freeVars_of_subst hu
    refine hr.free v hv w ?_
    rw [← ha v]
    exact Ty.mem_leaves_subst.2 ⟨u, hu, hw⟩

theorem atMost_generalize {f : Int → Ty} {env other : Env} (h : AtMost f env other) (t : Ty) :
    Scheme.AtMost f (env.generalize t) (other.generalize (t.subst f)) := by
  refine ⟨?_, fun v hv w hw => ?_⟩
  · rintro _ ⟨g, hg, rfl⟩
    refine ⟨fun v => if v ∈ (env.generalize t).quantified then (f v).subst g else f v,
      fun v hv => by simp [hv], ?_⟩
    show (t.subst f).subst g = t.subst _
    rw [Ty.subst_subst]
    apply Ty.subst_congr
    intro v hv
    by_cases hq : v ∈ (env.generalize t).quantified
    · simp [hq]
    · have hfree : v ∈ env.freeVars := by
        by_contra hn
        exact hq (mem_quantified_generalize.2 ⟨hv, hn⟩)
      simp only [hq, if_false]
      apply Ty.subst_eq_self
      intro w hw
      apply hg
      intro hw'
      exact (mem_quantified_generalize.1 hw').2 (h.free hfree hw)
  · obtain ⟨hvt, hve⟩ := mem_freeVars_generalize.1 hv
    exact mem_freeVars_generalize.2 ⟨Ty.mem_leaves_subst.2 ⟨v, hvt, hw⟩, h.free hve hw⟩

theorem exists_lower (xs : List Int) : ∃ low : Int, ∀ x ∈ xs, low ≤ x := by
  induction xs with
  | nil => exact ⟨0, by simp⟩
  | cons x xs ih =>
    obtain ⟨low, hlow⟩ := ih
    refine ⟨min low x, fun y hy => ?_⟩
    rcases List.mem_cons.1 hy with rfl | hy
    · exact Int.min_le_right _ _
    · exact Int.le_trans (Int.min_le_left _ _) (hlow y hy)

theorem exists_upper (xs : List Int) : ∃ high : Int, ∀ x ∈ xs, x < high := by
  obtain ⟨low, hlow⟩ := exists_lower (xs.map (- ·))
  refine ⟨1 - low, fun x hx => ?_⟩
  have := hlow (-x) (List.mem_map_of_mem hx)
  omega

/-- Some numbers can be moved past all of some others. -/
theorem exists_shift (xs ys : List Int) : ∃ k : Int, ∀ x ∈ xs, ∀ y ∈ ys, y < x + k := by
  obtain ⟨low, hlow⟩ := exists_lower xs
  obtain ⟨high, hhigh⟩ := exists_upper ys
  refine ⟨high - low, fun x hx y hy => ?_⟩
  have h1 := hlow x hx
  have h2 := hhigh y hy
  omega

/-- Another environment generalizes an instance of a type to a scheme that is no less general, if
the variables to be bound are first moved out of the way of all others. -/
theorem exists_atLeast_generalize (f : Int → Ty) (env other : Env) (t : Ty) :
    ∃ f', (∀ v ∈ env.freeVars, f' v = f v) ∧
      Scheme.AtLeast f (env.generalize t) (other.generalize (t.subst f')) := by
  obtain ⟨k, hk⟩ := exists_shift t.leaves (other.freeVars ++ t.leaves.flatMap fun v => (f v).leaves)
  have hfree : ∀ v ∈ t.leaves, v + k ∉ other.freeVars := fun v hv hm => by
    have := hk v hv _ (List.mem_append_left _ hm)
    omega
  have himage : ∀ v ∈ t.leaves, ∀ u ∈ t.leaves, v + k ∉ (f u).leaves := fun v hv u hu hm => by
    have := hk v hv _ (List.mem_append_right _ (List.mem_flatMap.2 ⟨u, hu, hm⟩))
    omega
  refine ⟨fun v => if v ∈ env.freeVars then f v else .var (v + k), fun v hv => by simp [hv],
    fun u hu => ?_⟩
  obtain ⟨g, hg, rfl⟩ := hu
  -- the moved variables are replaced as `g` replaces the ones they stand for
  refine ⟨fun w => if w - k ∈ (env.generalize t).quantified then g (w - k) else .var w, ?_, ?_⟩
  · intro w hw
    by_cases hq : w - k ∈ (env.generalize t).quantified
    · obtain ⟨hl, hn⟩ := mem_quantified_generalize.1 hq
      have hwk : w - k + k = w := by omega
      refine absurd (mem_quantified_generalize.2 ⟨Ty.mem_leaves_subst.2 ⟨w - k, hl, ?_⟩, ?_⟩) hw
      · simp [hn]
      · exact hwk ▸ hfree (w - k) hl
    · simp [hq]
  · show t.subst g = (t.subst _).subst _
    rw [Ty.subst_subst]
    apply Ty.subst_congr
    intro v hv
    by_cases hve : v ∈ env.freeVars
    · have hgv : g v = f v := hg v fun hq => (mem_quantified_generalize.1 hq).2 hve
      simp only [hve, if_true, hgv]
      refine (Ty.subst_eq_self fun w hw => ?_).symm
      have hq : w - k ∉ (env.generalize t).quantified := fun hq => by
        have hl := (mem_quantified_generalize.1 hq).1
        exact himage (w - k) hl v hv (by rwa [Int.sub_add_cancel])
      simp [hq]
    · have hq : v ∈ (env.generalize t).quantified := mem_quantified_generalize.2 ⟨hv, hve⟩
      simp [hve, hq]

end Env

end LetPoly
