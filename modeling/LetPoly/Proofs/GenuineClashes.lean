-- Every clash is genuine. Unification goes through both types from left to right, so when
-- it is refused, the two types agree up to a place, once what was solved so far is put in;
-- the clash is between the parts at that place, and what was solved follows from the one
-- equation of the two types.
import LetPoly.Proofs.MostGeneralUnifier
import Mathlib.Data.List.Forall2

namespace LetPoly

namespace Ty

/-! ## Places in types -/

/-- The parts of a type from left to right: the parameters of a function, then its result. -/
def parts : Ty → List Ty
  | fn params result => params ++ [result]
  | _ => []

/-- The part of a type at a place, which tells the number of the part on each level. -/
def part? : Ty → List Nat → Option Ty
  | t, [] => some t
  | t, i :: place => t.parts[i]?.bind fun u => part? u place

theorem parts_fn (params : List Ty) (result : Ty) :
    (fn params result).parts = params ++ [result] := rfl

theorem parts_subst_fn (f : Int → Ty) (params : List Ty) (result : Ty) :
    ((fn params result).subst f).parts = (fn params result).parts.map (subst f) := by
  simp [parts]

theorem eq_of_parts {ps qs : List Ty} {p q : Ty} (h : (fn ps p).parts = (fn qs q).parts) :
    fn ps p = fn qs q := by
  obtain ⟨hps, hp⟩ := List.append_inj' h rfl
  rw [hps, List.singleton_inj.1 hp]

theorem part?_append (t : Ty) (above below : List Nat) :
    t.part? (above ++ below) = (t.part? above).bind fun u => u.part? below := by
  induction above generalizing t with
  | nil => rfl
  | cons i above ih =>
    rw [List.cons_append, part?, part?, Option.bind_assoc]
    exact congrArg (Option.bind _) (funext fun u => ih u)

theorem part?_snoc {t u : Ty} {place : List Nat} (h : t.part? place = some u) (i : Nat) :
    t.part? (place ++ [i]) = u.parts[i]? := by
  rw [part?_append, h, Option.bind_some, part?]
  exact Option.bind_fun_some _

/-- On the way to a place two types have functions with as many parameters, and left of the way
they are equal. -/
structure AgreeBefore (l r : Ty) (place : List Nat) : Prop where
  functions : ∀ above i below, place = above ++ i :: below →
    ∃ ps p qs q, l.part? above = some (fn ps p) ∧ r.part? above = some (fn qs q) ∧
      ps.length = qs.length
  left : ∀ above i below, place = above ++ i :: below →
    ∀ j < i, l.part? (above ++ [j]) = r.part? (above ++ [j])

theorem agreeBefore_nil (l r : Ty) : AgreeBefore l r [] :=
  ⟨by simp, by simp⟩

/-- One level further down. -/
theorem AgreeBefore.snoc {l r : Ty} {place : List Nat} (h : AgreeBefore l r place)
    {ps qs : List Ty} {p q : Ty} (hl : l.part? place = some (fn ps p))
    (hr : r.part? place = some (fn qs q)) (hlen : ps.length = qs.length) {i : Nat}
    (hleft : ∀ j < i, (fn ps p).parts[j]? = (fn qs q).parts[j]?) :
    AgreeBefore l r (place ++ [i]) := by
  -- the new place is split at its end, or above it
  have hsplit : ∀ {above below : List Nat} {k : Nat}, place ++ [i] = above ++ k :: below →
      (above = place ∧ k = i) ∨ ∃ below', place = above ++ k :: below' := by
    intro above below k he
    rcases List.eq_nil_or_concat below with rfl | ⟨below', last, rfl⟩
    · obtain ⟨rfl, hk⟩ := List.append_inj' he rfl
      exact .inl ⟨rfl, by simpa using hk.symm⟩
    · rw [List.concat_eq_append, ← List.cons_append, ← List.append_assoc] at he
      exact .inr ⟨below', (List.append_inj' he rfl).1⟩
  refine ⟨fun above k below he => ?_, fun above k below he j hj => ?_⟩
  · rcases hsplit he with ⟨rfl, -⟩ | ⟨below', he⟩
    · exact ⟨ps, p, qs, q, hl, hr, hlen⟩
    · exact h.functions above k below' he
  · rcases hsplit he with ⟨rfl, rfl⟩ | ⟨below', he⟩
    · rw [part?_snoc hl, part?_snoc hr, hleft j hj]
    · exact h.left above k below' he j hj

end Ty

/-! ## What follows from an equation -/

/-- The equations that follow from the equation of two types, by the laws of equality and because
equal functions with as many parameters have equal parts. -/
inductive Follows (e a : Ty) : Ty → Ty → Prop
  | given : Follows e a e a
  | refl (t : Ty) : Follows e a t t
  | symm {l r : Ty} : Follows e a l r → Follows e a r l
  | trans {l m r : Ty} : Follows e a l m → Follows e a m r → Follows e a l r
  | congr {ps qs : List Ty} {p q : Ty} : ps.length = qs.length →
    (∀ (i : Nat) x y, (Ty.fn ps p).parts[i]? = some x → (Ty.fn qs q).parts[i]? = some y →
      Follows e a x y) →
    Follows e a (.fn ps p) (.fn qs q)
  | part {ps qs : List Ty} {p q x y : Ty} {i : Nat} : Follows e a (.fn ps p) (.fn qs q) →
    ps.length = qs.length → (Ty.fn ps p).parts[i]? = some x → (Ty.fn qs q).parts[i]? = some y →
    Follows e a x y

/-- A variable may be replaced by what it equals. -/
theorem Follows.replace {e a : Ty} {v : Int} {t : Ty} (h : Follows e a (.var v) t) (u : Ty) :
    Follows e a u (u.replace v t) := by
  induction u with
  | var w =>
    by_cases hw : w = v
    · subst hw
      simpa [Ty.replace] using h
    · simpa [Ty.replace, hw] using Follows.refl (.var w)
  | con c => exact .refl _
  | fn ps p ihp ihr =>
    have hparts := Ty.parts_subst_fn (fun w => if w = v then t else .var w) ps p
    unfold Ty.replace
    rw [Ty.subst_fn] at hparts ⊢
    refine .congr (by simp) fun i x y hx hy => ?_
    rw [hparts, List.getElem?_map, hx] at hy
    obtain rfl := Option.some.inj hy
    rcases List.mem_append.1 (List.mem_of_getElem? hx) with hmem | hmem
    · exact ihp x hmem
    · obtain rfl := List.mem_singleton.1 hmem
      exact ihr

namespace Unify

/-! ## The equations that are left -/

/-- The equations between the parts of two types, from left to right. -/
def partEquations (l r : Ty) : List Equation := l.parts.zip r.parts

/-- These are the equations that a step on two functions comes to. -/
theorem partEquations_append {ps qs : List Ty} (p q : Ty) (h : ps.length = qs.length)
    (rest : List Equation) :
    partEquations (.fn ps p) (.fn qs q) ++ rest = ps.zip qs ++ (p, q) :: rest := by
  rw [partEquations, Ty.parts_fn, Ty.parts_fn, List.zip_append h, List.append_assoc]
  rfl

theorem partEquations_subst (f : Int → Ty) (ps qs : List Ty) (p q : Ty) :
    partEquations ((Ty.fn ps p).subst f) ((Ty.fn qs q).subst f) =
      substAll f (partEquations (.fn ps p) (.fn qs q)) := by
  rw [partEquations, Ty.parts_subst_fn, Ty.parts_subst_fn, List.zip_map]
  rfl

theorem parts_of_partEquations {l r : Ty} {i : Nat} {d : Equation}
    (h : (partEquations l r)[i]? = some d) : l.parts[i]? = some d.1 ∧ r.parts[i]? = some d.2 :=
  List.getElem?_zip_eq_some.1 h

/-- Functions with as many parameters whose parts are equal are equal. -/
theorem eq_of_partEquations {ps qs : List Ty} {p q : Ty} (hlen : ps.length = qs.length)
    (h : ∀ d ∈ partEquations (.fn ps p) (.fn qs q), d.1 = d.2) : Ty.fn ps p = .fn qs q := by
  apply Ty.eq_of_parts
  rw [← List.forall₂_eq_eq_eq]
  exact List.forall₂_iff_zip.2 ⟨by simp [Ty.parts, hlen], fun hd => h _ hd⟩

/-- Two types are compared from left to right, and the parts at a place come next: those left of
it are equal, and the equations that remain are of the parts right of it. -/
inductive Reaches (l r : Ty) : List Nat → Ty → Ty → List Equation → Prop
  | here : Reaches l r [] l r []
  | inside {place : List Nat} {ps qs : List Ty} {p q x y : Ty} {rest done more : List Equation} :
    Reaches l r place (.fn ps p) (.fn qs q) rest → ps.length = qs.length →
    partEquations (.fn ps p) (.fn qs q) = done ++ (x, y) :: more → (∀ d ∈ done, d.1 = d.2) →
    Reaches l r (place ++ [done.length]) x y (more ++ rest)

namespace Reaches

variable {l r x y : Ty} {place : List Nat} {rest : List Equation}

theorem part? (h : Reaches l r place x y rest) :
    l.part? place = some x ∧ r.part? place = some y := by
  induction h with
  | here => exact ⟨rfl, rfl⟩
  | @inside place ps qs p q x y rest done more _ _ heqs _ ih =>
    have hnext : (partEquations (.fn ps p) (.fn qs q))[done.length]? = some (x, y) := by
      simp [heqs]
    obtain ⟨hx, hy⟩ := parts_of_partEquations hnext
    exact ⟨(Ty.part?_snoc ih.1 _).trans hx, (Ty.part?_snoc ih.2 _).trans hy⟩

theorem agreeBefore (h : Reaches l r place x y rest) : Ty.AgreeBefore l r place := by
  induction h with
  | here => exact Ty.agreeBefore_nil l r
  | @inside place ps qs p q x y rest done more habove hlen heqs hdone ih =>
    obtain ⟨hl, hr⟩ := habove.part?
    refine ih.snoc hl hr hlen fun j hj => ?_
    have hj' : (partEquations (.fn ps p) (.fn qs q))[j]? = some done[j] := by
      rw [heqs, List.getElem?_append_left hj, List.getElem?_eq_getElem hj]
    obtain ⟨hx, hy⟩ := parts_of_partEquations hj'
    rw [hx, hy, hdone _ (List.getElem_mem hj)]

/-- Whatever is put in for the variables, the same place comes next. -/
theorem subst (h : Reaches l r place x y rest) (f : Int → Ty) :
    Reaches (l.subst f) (r.subst f) place (x.subst f) (y.subst f) (substAll f rest) := by
  induction h with
  | here => exact .here
  | @inside place ps qs p q x y rest done more _ hlen heqs hdone ih =>
    have hsub : substAll f (done ++ (x, y) :: more) =
        substAll f done ++ (x.subst f, y.subst f) :: substAll f more := by simp [substAll]
    have hparts := partEquations_subst f ps qs p q
    rw [heqs, hsub, Ty.subst_fn, Ty.subst_fn] at hparts
    rw [Ty.subst_fn, Ty.subst_fn] at ih
    have hdone' : ∀ d ∈ substAll f done, d.1 = d.2 := by
      intro d hd
      obtain ⟨d', hd', rfl⟩ := List.mem_map.1 hd
      simp only [hdone d' hd']
    have hnext := ih.inside (by simpa using hlen) hparts hdone'
    simpa [substAll] using hnext

/-- After equal parts, the next place follows, unless there is none. -/
theorem next (h : Reaches l r place x y rest) (hxy : x = y) :
    rest = [] ∨ ∃ place' x' y' rest', rest = (x', y') :: rest' ∧
      Reaches l r place' x' y' rest' := by
  induction h with
  | here => exact .inl rfl
  | @inside place ps qs p q x y rest done more habove hlen heqs hdone ih =>
    have hdone' : ∀ d ∈ done ++ [(x, y)], d.1 = d.2 := by
      intro d hd
      rcases List.mem_append.1 hd with hd | hd
      · exact hdone d hd
      · obtain rfl := List.mem_singleton.1 hd
        exact hxy
    cases more with
    | nil =>
      -- all parts of the functions above are equal, so the functions are
      exact ih (eq_of_partEquations hlen (heqs ▸ hdone'))
    | cons d more =>
      obtain ⟨x', y'⟩ := d
      exact .inr ⟨_, x', y', more ++ rest, rfl, habove.inside hlen (by simp [heqs]) hdone'⟩

end Reaches

/-- The first of the equations that are left is between the parts at the place that comes next. -/
def Ahead (l r : Ty) (eqs : List Equation) : Prop :=
  ∀ x y rest, eqs = (x, y) :: rest → ∃ place, Reaches l r place x y rest

namespace Ahead

variable {l r : Ty} {eqs rest : List Equation}

theorem start (l r : Ty) : Ahead l r [(l, r)] := by
  rintro x y rest ⟨⟩
  exact ⟨[], .here⟩

theorem tail {t : Ty} (h : Ahead l r ((t, t) :: rest)) : Ahead l r rest := by
  rintro x y more rfl
  obtain ⟨place, hplace⟩ := h t t _ rfl
  rcases hplace.next rfl with hnil | ⟨place', x', y', rest', heq, hnext⟩
  · cases hnil
  · cases heq
    exact ⟨place', hnext⟩

/-- Taking functions apart leads to their first parts. -/
theorem split {ps qs : List Ty} {p q : Ty} (h : Ahead l r ((.fn ps p, .fn qs q) :: rest))
    (hlen : ps.length = qs.length) : Ahead l r (ps.zip qs ++ (p, q) :: rest) := by
  rw [← partEquations_append p q hlen rest]
  intro x y more hmore
  obtain ⟨place, hplace⟩ := h _ _ _ rfl
  rcases hparts : partEquations (.fn ps p) (.fn qs q) with _ | ⟨d, parts⟩
  · have hnil := partEquations_append p q hlen []
    simp [hparts] at hnil
  · rw [hparts] at hmore
    cases hmore
    have hfirst : partEquations (.fn ps p) (.fn qs q) = [] ++ (x, y) :: parts := hparts
    exact ⟨_, hplace.inside hlen hfirst (by simp)⟩

theorem subst (h : Ahead l r eqs) (f : Int → Ty) :
    Ahead (l.subst f) (r.subst f) (substAll f eqs) := by
  intro x y rest hrest
  rcases eqs with _ | ⟨⟨x', y'⟩, rest'⟩
  · cases hrest
  · obtain ⟨place, hplace⟩ := h x' y' rest' rfl
    cases hrest
    exact ⟨place, hplace.subst f⟩

theorem replace (h : Ahead l r eqs) (v : Int) (t : Ty) :
    Ahead (l.replace v t) (r.replace v t) (replaceAll v t eqs) :=
  h.subst fun w => if w = v then t else .var w

end Ahead

/-- With the variable replaced, the equation that solved it is one of a type with itself. -/
theorem replaceAll_of_sides {l r t : Ty} {v : Int}
    (hs : (l = .var v ∧ r = t) ∨ (l = t ∧ r = .var v)) (hfresh : v ∉ t.leaves)
    (rest : List Equation) : replaceAll v t ((l, r) :: rest) = (t, t) :: replaceAll v t rest := by
  have hself : t.replace v t = t := by
    refine Ty.subst_eq_self fun w hw => if_neg ?_
    rintro rfl
    exact hfresh hw
  have hvar : (Ty.var v).replace v t = t := by simp [Ty.replace]
  rcases hs with ⟨rfl, rfl⟩ | ⟨rfl, rfl⟩ <;> simp [replaceAll, hself, hvar]

/-! ## The run up to the clash -/

/-- What holds on the way: the bindings and the equations follow from the equation at the start,
and the first equation is between the parts at which the two types may differ, once the bindings
are put in. -/
structure Stage (e a : Ty) (s : Subst) (eqs : List Equation) : Prop where
  solved : s.Solved
  clear : ∀ v ∈ s.keys, v ∉ leaves eqs
  bindings : ∀ b ∈ s.entries, Follows e a (.var b.1) b.2
  equations : ∀ d ∈ eqs, Follows e a d.1 d.2
  ahead : Ahead (e.subst s.image) (a.subst s.image) eqs

namespace Stage

variable {e a l r : Ty} {s : Subst} {rest : List Equation}

theorem start (e a : Ty) : Stage e a Subst.empty [(e, a)] where
  solved := Subst.solved_empty
  clear := by simp [Subst.empty]
  bindings := by simp [Subst.empty, Table.empty]
  equations := by simpa using Follows.given
  ahead := by simpa using Ahead.start e a

theorem split {ps qs : List Ty} {p q : Ty} (h : Stage e a s ((.fn ps p, .fn qs q) :: rest))
    (hlen : ps.length = qs.length) : Stage e a s (ps.zip qs ++ (p, q) :: rest) where
  solved := h.solved
  clear := by
    have hstep : step (.fn ps p) (.fn qs q) rest = .ok ⟨none, ps.zip qs ++ (p, q) :: rest⟩ := by
      simp [step, hlen]
    exact fun v hv hx => h.clear v hv (mem_leaves_of_step hstep hx)
  bindings := h.bindings
  equations := by
    rw [← partEquations_append p q hlen rest]
    intro d hd
    rcases List.mem_append.1 hd with hd | hd
    · obtain ⟨i, hi⟩ := List.mem_iff_getElem?.1 hd
      obtain ⟨hx, hy⟩ := parts_of_partEquations hi
      exact .part (h.equations _ List.mem_cons_self) hlen hx hy
    · exact h.equations d (List.mem_cons_of_mem _ hd)
  ahead := h.ahead.split hlen

theorem solve {v : Int} {t : Ty} (h : Stage e a s ((l, r) :: rest))
    (hsides : (l = .var v ∧ r = t) ∨ (l = t ∧ r = .var v)) (hfresh : v ∉ t.leaves) :
    Stage e a (s.solve v t) (replaceAll v t rest) := by
  have hvt : Follows e a (.var v) t := by
    have hlr := h.equations _ List.mem_cons_self
    rcases hsides with ⟨rfl, rfl⟩ | ⟨rfl, rfl⟩
    · exact hlr
    · exact hlr.symm
  refine ⟨?_, not_mem_leaves_solve hsides hfresh h.clear, fun b hb => ?_, fun d hd => ?_, ?_⟩
  · have htl := (leaves_of_sides rest hsides).2
    exact solved_solve h.solved hfresh fun w hw hwt => h.clear w hw (htl w hwt)
  · rcases Table.mem_entries_append hb with hb | hb
    · obtain ⟨b', hb', rfl⟩ := List.mem_map.1 hb
      exact (h.bindings b' hb').trans (hvt.replace b'.2)
    · obtain rfl := List.mem_singleton.1 hb
      exact hvt
  · obtain ⟨d', hd', rfl⟩ := List.mem_map.1 hd
    have hd := h.equations d' (List.mem_cons_of_mem _ hd')
    exact ((hvt.replace d'.1).symm.trans hd).trans (hvt.replace d'.2)
  · have hahead := h.ahead.replace v t
    rw [replace_subst_image, replace_subst_image, replaceAll_of_sides hsides hfresh] at hahead
    exact hahead.tail

/-- What holds before a step holds after it. -/
theorem step {p : Progress} (h : Stage e a s ((l, r) :: rest))
    (hstep : Unify.step l r rest = .ok p) :
    Stage e a (match p.solved with
      | some (v, t) => s.solve v t
      | none => s) p.rest := by
  cases taken_of_step hstep with
  | equal hlr =>
    subst hlr
    exact ⟨h.solved, fun v hv hx => h.clear v hv (mem_leaves_tail hx), h.bindings,
      fun d hd => h.equations d (List.mem_cons_of_mem _ hd), h.ahead.tail⟩
  | split hl hr hlen =>
    subst hl hr
    exact h.split hlen
  | solved hsides hfresh => exact h.solve hsides hfresh

end Stage

end Unify

/-! ## Clashes -/

/-- The clash of two types that cannot be equal, the first of them expected and the second found:
between different names, between a name and a function, between functions that differ in the
number of their parameters, or between a variable and another type in which it stands. -/
inductive Clash.Between : Clash → Ty → Ty → Prop
  | names {c d : String} : c ≠ d → Between (.mismatch (.con c) (.con d)) (.con c) (.con d)
  | nameFn {c : String} {qs : List Ty} {q : Ty} :
    Between (.mismatch (.con c) (.fn qs q)) (.con c) (.fn qs q)
  | fnName {ps : List Ty} {p : Ty} {d : String} :
    Between (.mismatch (.fn ps p) (.con d)) (.fn ps p) (.con d)
  | arity {ps qs : List Ty} {p q : Ty} : ps.length ≠ qs.length →
    Between (.arity ps.length qs.length) (.fn ps p) (.fn qs q)
  | infinite {v : Int} {t : Ty} : t.occurs v = true → t ≠ .var v →
    Between (.infinite v t) (.var v) t
  | infiniteFound {v : Int} {t : Ty} : t.occurs v = true → t ≠ .var v →
    Between (.infinite v t) t (.var v)

namespace Unify

theorem infinite_of_bind {v : Int} {t : Ty} {rest : List Equation} {clash : Clash}
    (h : bind v t rest = .error clash) :
    clash = .infinite v t ∧ t.occurs v = true ∧ t ≠ .var v := by
  unfold bind at h
  split at h
  · cases h
  · rename_i hne
    split at h
    · rename_i ho
      cases h
      exact ⟨rfl, ho, hne⟩
    · cases h

theorem between_of_step {l r : Ty} {rest : List Equation} {clash : Clash}
    (h : step l r rest = .error clash) : clash.Between l r := by
  unfold step at h
  split at h
  · obtain ⟨rfl, ho, hne⟩ := infinite_of_bind h
    exact .infinite ho hne
  · obtain ⟨rfl, ho, hne⟩ := infinite_of_bind h
    exact .infiniteFound ho hne
  · split at h
    · cases h
    · rename_i hc
      cases h
      exact .names hc
  · split at h
    · cases h
    · rename_i hlen
      cases h
      exact .arity hlen
  · rename_i hv hw hc hf
    cases h
    cases l with
    | var v => exact absurd rfl (hv v)
    | con c =>
      cases r with
      | var w => exact absurd rfl (hw w)
      | con d => exact absurd rfl (hc c d rfl)
      | fn qs q => exact .nameFn
    | fn ps p =>
      cases r with
      | var w => exact absurd rfl (hw w)
      | con d => exact .fnName
      | fn qs q => exact absurd rfl (hf ps p qs q rfl)

/-- Where a run is refused, the two sides of the first equation clash. -/
theorem Stage.exists_clash {e a : Ty} {s : Subst} {eqs : List Equation} {clash : Clash}
    (h : Stage e a s eqs) (hrun : Unify.solve eqs s = .error clash) :
    ∃ s' x y rest, Stage e a s' ((x, y) :: rest) ∧ clash.Between x y := by
  induction eqs, s using solve.induct with
  | case1 s =>
    rw [Unify.solve] at hrun
    cases hrun
  | case2 s l r rest clash' hstep =>
    rw [Unify.solve, hstep] at hrun
    cases hrun
    exact ⟨s, l, r, rest, h, between_of_step hstep⟩
  | case3 s l r rest p hstep ih =>
    rw [Unify.solve, hstep] at hrun
    exact ih (h.step hstep) hrun

end Unify

/-- Every clash is genuine and tells the two sides apart. What was solved up to it follows from the
one equation of the two types; with that put in, there is a place to which both types lead through
functions with as many parameters, left of which they are equal, and at which the clash is between
the part of the expected type and the part of the type that was found. -/
theorem a_clash_is_found_where_the_types_first_differ (e a : Ty) (clash : Clash)
    (h : unify e a = .error clash) :
    ∃ (s : Subst) (l r x y : Ty) (place : List Nat),
      (∀ b ∈ s.entries, Follows e a (.var b.1) b.2) ∧
      s.expand? e = some l ∧ s.expand? a = some r ∧
      Ty.AgreeBefore l r place ∧
      l.part? place = some x ∧ r.part? place = some y ∧ clash.Between x y := by
  obtain ⟨s, x, y, rest, hstage, hclash⟩ := (Unify.Stage.start e a).exists_clash h
  obtain ⟨place, hplace⟩ := hstage.ahead x y rest rfl
  exact ⟨s, e.subst s.image, a.subst s.image, x, y, place, hstage.bindings,
    hstage.solved.expand? e, hstage.solved.expand? a, hplace.agreeBefore, hplace.part?.1,
    hplace.part?.2, hclash⟩

/-- Two variables are solved before the results of the second parameters clash: `bool` is expected
there, and `number` was found. -/
theorem a_clash_is_found_where_the_types_first_differ_inside_a_parameter :
    let e := Ty.fn [.var 0, .fn [.var 0] .bool] (.var 0)
    let a := Ty.fn [.number, .fn [.var 1] (.var 1)] (.var 1)
    let clash := Clash.mismatch .bool .number
    unify e a = .error clash ∧
      ∃ (s : Subst) (l r x y : Ty) (place : List Nat),
        (∀ b ∈ s.entries, Follows e a (.var b.1) b.2) ∧
        s.expand? e = some l ∧ s.expand? a = some r ∧
        Ty.AgreeBefore l r place ∧
        l.part? place = some x ∧ r.part? place = some y ∧ clash.Between x y := by
  intro e a clash
  have h : unify e a = .error clash := by cbv
  exact ⟨h, a_clash_is_found_where_the_types_first_differ e a clash h⟩

end LetPoly
