-- The laws of annotations. Reading one draws a variable for each quoted name not met
-- before and for each annotation that is missing, and the type that comes out is what
-- the annotation means; and each meaning comes from that type, if its variables are
-- replaced rightly.
import LetPoly.Proofs.Steps
import LetPoly.Proofs.Typing

namespace LetPoly

namespace Naming

/-! ## Quoted names and their variables -/

/-- The variables of the quoted names were drawn from the given one on. -/
def Within (m : Int) (naming : Naming) : Prop :=
  ∀ v ∈ naming.scope.values, m ≤ v ∧ v < naming.next

/-- More names may have been met, and more variables drawn, but no name changed its variable. -/
structure Grown (m : Int) (before after : Naming) : Prop where
  le : before.next ≤ after.next
  keep : ∀ name v, before.scope.get? name = some v → after.scope.get? name = some v
  within : after.Within m

/-- The types that the quoted names stand for are what their variables become. -/
def Fits (names : String → Ty) (f : Int → Ty) (naming : Naming) : Prop :=
  ∀ name v, naming.scope.get? name = some v → f v = names name

variable {m : Int} {before middle after : Naming} {names : String → Ty} {f g : Int → Ty}

theorem Within.grown (h : before.Within m) : Grown m before before :=
  ⟨Int.le_refl _, fun _ _ hv => hv, h⟩

theorem Grown.trans (h : Grown m before middle) (h' : Grown m middle after) :
    Grown m before after :=
  ⟨Int.le_trans h.le h'.le, fun name v hv => h'.keep name v (h.keep name v hv), h'.within⟩

theorem Fits.mono (h : Fits names f after) (hg : Grown m before after) : Fits names f before :=
  fun name v hv => h name v (hg.keep name v hv)

theorem Fits.congr (h : Fits names f before) (hw : before.Within m)
    (hfg : Agree before.next g f) : Fits names g before := by
  intro name v hv
  rw [hfg v (hw v (Table.mem_values_of_get? hv)).2]
  exact h name v hv

/-- Types were read: their variables were drawn from the given one on, and they are what was
written, whatever else the quoted names stand for. -/
structure Read (m : Int) (before after : Naming) (types : List Ty)
    (meaning : (String → Ty) → Prop) : Prop where
  grown : Grown m before after
  leaves : ∀ t ∈ types, ∀ v ∈ t.leaves, m ≤ v ∧ v < after.next
  means : ∀ names, Fits names .var after → meaning names

/-- A type was read which becomes the given one, with nothing changed for older variables. -/
def Becomes (names : String → Ty) (f : Int → Ty) (before after : Naming) (types targets : List Ty) :
    Prop :=
  ∃ g, Agree before.next g f ∧ Fits names g after ∧ types.map (Ty.subst g) = targets

theorem Read.imp {types types' : List Ty} {meaning meaning' : (String → Ty) → Prop}
    (h : Read m before after types meaning)
    (hl : ∀ t ∈ types', ∀ v ∈ t.leaves, ∃ t' ∈ types, v ∈ t'.leaves)
    (hm : ∀ names, meaning names → meaning' names) : Read m before after types' meaning' := by
  refine ⟨h.grown, fun t ht v hv => ?_, fun names hf => hm names (h.means names hf)⟩
  obtain ⟨t', ht', hv⟩ := hl t ht v hv
  exact h.leaves t' ht' v hv

theorem Read.exists_names {types : List Ty} {meaning : (String → Ty) → Prop}
    (h : Read m before after types meaning) : ∃ names, meaning names := by
  refine ⟨fun name => .var ((after.scope.get? name).getD 0), h.means _ fun name v hv => ?_⟩
  simp [hv]

theorem Read.pair {types types' : List Ty} {meaning meaning' : (String → Ty) → Prop}
    (h : Read m before middle types meaning) (h' : Read m middle after types' meaning') :
    Read m before after (types ++ types') fun names => meaning names ∧ meaning' names := by
  refine ⟨h.grown.trans h'.grown, fun t ht v hv => ?_, fun names hf =>
    ⟨h.means names (hf.mono h'.grown), h'.means names hf⟩⟩
  rcases List.mem_append.1 ht with ht | ht
  · have h1 := h.leaves t ht v hv
    have h2 := h'.grown.le
    omega
  · exact h'.leaves t ht v hv

theorem Becomes.pair {types types' targets targets' : List Ty}
    {meaning : (String → Ty) → Prop} (h : Read m before middle types meaning)
    (hg : Agree before.next g f) (ht : types.map (Ty.subst g) = targets)
    (h' : Becomes names g middle after types' targets') :
    Becomes names f before after (types ++ types') (targets ++ targets') := by
  obtain ⟨g', hg', hfit, ht'⟩ := h'
  refine ⟨g', fun v hv => ?_, hfit, ?_⟩
  · rw [hg' v (Int.lt_of_lt_of_le hv h.grown.le), hg v hv]
  · have hold : types.map (Ty.subst g') = types.map (Ty.subst g) :=
      List.map_congr_left fun t hmem =>
        Ty.subst_congr fun v hv => hg' v (h.leaves t hmem v hv).2
    rw [List.map_append, hold, ht, ht']

theorem leads_fresh (hm : m ≤ before.next) (hw : before.Within m) {E : TypeError → Prop} :
    Leads id fresh before (fun t after => t = .var before.next ∧
      after = ⟨before.next + 1, before.scope⟩ ∧ Grown m before after) E := by
  intro s hs
  obtain rfl : s = before := hs
  refine ⟨rfl, rfl, ⟨?_, fun _ _ hv => hv, fun v hv => ?_⟩⟩
  · show s.next ≤ s.next + 1
    omega
  · have := hw v hv
    exact ⟨this.1, Int.lt_add_one_of_le (Int.le_of_lt this.2)⟩

theorem quoted_eq (name : String) (s : Naming) :
    quoted name s = (match s.scope.get? name with
      | some v => (pure (.var v) : Step Ty)
      | none => do
        set (⟨s.next + 1, s.scope.insert name s.next⟩ : Naming)
        pure (.var s.next)) s :=
  rfl

theorem leads_quoted (name : String) (hm : m ≤ before.next) (hw : before.Within m)
    {E : TypeError → Prop} :
    Leads id (quoted name) before (fun t after => ∃ v, t = .var v ∧
      after.scope.get? name = some v ∧ m ≤ v ∧ v < after.next ∧ Grown m before after ∧
      ∀ names f, Fits names f before →
        ∃ g, Agree before.next g f ∧ Fits names g after) E := by
  intro s hs
  obtain rfl : s = before := hs
  rcases hget : s.scope.get? name with _ | v
  · have hrun : quoted name s = .ok (.var s.next) ⟨s.next + 1, s.scope.insert name s.next⟩ := by
      rw [quoted_eq, hget]
      rfl
    rw [hrun]
    refine ⟨s.next, rfl, by simp [Table.get?_insert], hm, Int.lt_succ _, ⟨?_, ?_, ?_⟩, ?_⟩
    · exact Int.le_of_lt (Int.lt_succ _)
    · intro other w hw'
      have hne : name ≠ other := by
        rintro rfl
        rw [hget] at hw'
        cases hw'
      simpa [Table.get?_insert, hne] using hw'
    · intro w hw'
      show m ≤ w ∧ w < s.next + 1
      rcases Table.mem_values_insert hw' with rfl | hw'
      · omega
      · have := hw w hw'
        omega
    · intro names f hf
      refine ⟨Function.update f s.next (names name), fun w hw' => ?_, fun other w hw' => ?_⟩
      · exact Function.update_of_ne (Int.ne_of_lt hw') _ _
      · by_cases hne : name = other
        · subst hne
          obtain rfl : s.next = w := by simpa [Table.get?_insert] using hw'
          exact Function.update_self ..
        · have hold : s.scope.get? other = some w := by
            simpa [Table.get?_insert, hne] using hw'
          have hlt := (hw w (Table.mem_values_of_get? hold)).2
          rw [Function.update_of_ne (Int.ne_of_lt hlt)]
          exact hf other w hold
  · have hrun : quoted name s = .ok (.var v) s := by
      rw [quoted_eq, hget]
      rfl
    rw [hrun]
    have hv := hw v (Table.mem_values_of_get? hget)
    exact ⟨v, rfl, hget, hv.1, hv.2, hw.grown, fun names f hf => ⟨f, fun _ _ => rfl, hf⟩⟩

end Naming

namespace TypeExpr

open Naming

variable {baseTypes : List String} {m : Int}

/-! ## What is read -/

mutual

theorem leads_resolve {before : Naming} (hm : m ≤ before.next) (hw : before.Within m)
    (written : TypeExpr) (position : Position) :
    Leads id (written.resolve baseTypes position) before
      (fun t after => Read m before after [t] fun names => written.Means baseTypes names t)
      fun _ => True := by
  match written with
  | .named name l =>
    unfold resolve
    by_cases hn : name ∈ baseTypes
    · rw [if_pos hn]
      exact leads_pure ⟨hw.grown, by simp, fun _ _ => .named hn⟩
    · rw [if_neg hn]
      exact leads_throw trivial
  | .quoted name l =>
    unfold resolve
    refine (leads_quoted name hm hw).imp ?_
    rintro t after ⟨v, rfl, hget, h1, h2, hgrown, -⟩
    refine ⟨hgrown, by simp [h1, h2], fun names hf => ?_⟩
    rw [hf name v hget]
    exact .quoted
  | .arrow params result l =>
    unfold resolve
    refine (leads_resolveAll hm hw params position 0).bind fun ts middle h => ?_
    refine (leads_resolve (Int.le_trans hm h.grown.le) h.grown.within result _).bind
      fun t after h' => leads_pure ?_
    refine (h.pair h').imp (fun u hu v hv => ?_) fun names hmean => .arrow hmean.1 hmean.2
    rw [List.mem_singleton] at hu
    subst hu
    simpa [or_comm] using hv

theorem leads_resolveAll {before : Naming} (hm : m ≤ before.next) (hw : before.Within m)
    (written : List TypeExpr) (position : Position) (slot : Nat) :
    Leads id (resolveAll baseTypes written position slot) before
      (fun ts after => Read m before after ts fun names => MeanAll baseTypes names written ts)
      fun _ => True := by
  match written with
  | [] => exact leads_pure ⟨hw.grown, by simp, fun _ _ => .nil⟩
  | first :: more =>
    unfold resolveAll
    refine (leads_resolve hm hw first _).bind fun t middle h => ?_
    refine (leads_resolveAll (Int.le_trans hm h.grown.le) h.grown.within more _ _).bind
      fun ts after h' => leads_pure ?_
    exact (h.pair h').imp (fun u hu v hv => ⟨u, hu, hv⟩) fun names hmean => .cons hmean.1 hmean.2

end

theorem leads_resolveOption {before : Naming} (hm : m ≤ before.next) (hw : before.Within m)
    (ascription : Option TypeExpr) (position : Position) :
    Leads id (resolveOption baseTypes ascription position) before
      (fun t after => Read m before after [t] fun names => Allows baseTypes names ascription t)
      fun _ => True := by
  cases ascription with
  | none =>
    refine (leads_fresh hm hw).imp ?_
    rintro t after ⟨rfl, rfl, hgrown⟩
    refine ⟨hgrown, ?_, fun names _ written hwritten => by cases hwritten⟩
    simp only [List.mem_singleton, forall_eq, Ty.leaves_var]
    omega
  | some written =>
    refine (leads_resolve hm hw written position).imp fun t after h => ?_
    refine h.imp (fun u hu v hv => ⟨u, hu, hv⟩) fun names hmean written' he => ?_
    obtain rfl : written = written' := Option.some.inj he
    exact hmean

/-! ## Every meaning comes from what is read -/

mutual

theorem leads_becomes {before : Naming} (hm : m ≤ before.next) (hw : before.Within m)
    {names : String → Ty} {f : Int → Ty} (hf : Fits names f before) {written : TypeExpr} {t : Ty}
    (h : written.Means baseTypes names t) (position : Position) :
    Leads id (written.resolve baseTypes position) before
      (fun t' after => Becomes names f before after [t'] [t]) fun _ => False := by
  match h with
  | .named hn =>
    unfold resolve
    rw [if_pos hn]
    exact leads_pure ⟨f, fun _ _ => rfl, hf, rfl⟩
  | @Means.quoted _ _ name _ =>
    unfold resolve
    refine (leads_quoted name hm hw).imp ?_
    rintro t' after ⟨v, rfl, hget, -, -, -, hex⟩
    obtain ⟨g, hg, hfit⟩ := hex names f hf
    exact ⟨g, hg, hfit, by simp [hfit name v hget]⟩
  | @Means.arrow _ _ params result _ types t hts ht =>
    unfold resolve
    refine ((leads_becomesAll hm hw hf hts position 0).and
      (leads_resolveAll hm hw params position 0)).bind ?_
    rintro ts middle ⟨⟨g, hg, hfit, hts'⟩, hread⟩
    refine (leads_becomes (Int.le_trans hm hread.grown.le) hread.grown.within hfit ht _).bind
      fun t' after h' => leads_pure ?_
    obtain ⟨g', hg', hfit', heq⟩ := Becomes.pair hread hg hts' h'
    have hparts : ts.map (Ty.subst g') = types ∧ t'.subst g' = t := by simpa using heq
    exact ⟨g', hg', hfit', by simp [hparts]⟩

theorem leads_becomesAll {before : Naming} (hm : m ≤ before.next) (hw : before.Within m)
    {names : String → Ty} {f : Int → Ty} (hf : Fits names f before) {written : List TypeExpr}
    {ts : List Ty} (h : MeanAll baseTypes names written ts) (position : Position) (slot : Nat) :
    Leads id (resolveAll baseTypes written position slot) before
      (fun ts' after => Becomes names f before after ts' ts) fun _ => False := by
  match h with
  | .nil => exact leads_pure ⟨f, fun _ _ => rfl, hf, rfl⟩
  | @MeanAll.cons _ _ first more t ts ht hts =>
    unfold resolveAll
    refine ((leads_becomes hm hw hf ht _).and (leads_resolve hm hw first _)).bind ?_
    rintro t' middle ⟨⟨g, hg, hfit, ht'⟩, hread⟩
    refine (leads_becomesAll (Int.le_trans hm hread.grown.le) hread.grown.within hfit hts _ _).bind
      fun ts' after h' => leads_pure ?_
    exact Becomes.pair hread hg ht' h'

end

theorem leads_becomesOption {before : Naming} (hm : m ≤ before.next) (hw : before.Within m)
    {names : String → Ty} {f : Int → Ty} (hf : Fits names f before)
    {ascription : Option TypeExpr} {t : Ty} (h : Allows baseTypes names ascription t)
    (position : Position) :
    Leads id (resolveOption baseTypes ascription position) before
      (fun t' after => Becomes names f before after [t'] [t]) fun _ => False := by
  cases ascription with
  | none =>
    refine (leads_fresh hm hw).imp ?_
    rintro t' after ⟨rfl, rfl, -⟩
    have hold : Agree before.next (Function.update f before.next t) f :=
      fun v hv => Function.update_of_ne (Int.ne_of_lt hv) _ _
    exact ⟨_, hold, hf.congr hw hold, by simp⟩
  | some written => exact leads_becomes hm hw hf (h written rfl) position

end TypeExpr

/-! ## Signatures -/

namespace Param

open Naming

variable {baseTypes : List String} {m : Int}

theorem leads_resolveAll {before : Naming} (hm : m ≤ before.next) (hw : before.Within m)
    (params : List Param) (position : Position) (slot : Nat) :
    Leads id (resolveAll baseTypes params position slot) before
      (fun ts after => Read m before after ts fun names => Allow baseTypes names params ts)
      fun _ => True := by
  induction params generalizing before slot with
  | nil => exact leads_pure ⟨hw.grown, by simp, fun _ _ => .nil⟩
  | cons p params ih =>
    unfold resolveAll
    refine (TypeExpr.leads_resolveOption hm hw p.ascription _).bind fun t middle h => ?_
    refine (ih (Int.le_trans hm h.grown.le) h.grown.within _).bind fun ts after h' => leads_pure ?_
    exact (h.pair h').imp (fun u hu v hv => ⟨u, hu, hv⟩) fun names hmean => .cons hmean.1 hmean.2

theorem leads_becomesAll {before : Naming} (hm : m ≤ before.next) (hw : before.Within m)
    {names : String → Ty} {f : Int → Ty} (hf : Fits names f before) {params : List Param}
    {ts : List Ty} (h : Allow baseTypes names params ts) (position : Position) (slot : Nat) :
    Leads id (resolveAll baseTypes params position slot) before
      (fun ts' after => Becomes names f before after ts' ts) fun _ => False := by
  induction h generalizing before f slot with
  | nil => exact leads_pure ⟨f, fun _ _ => rfl, hf, rfl⟩
  | @cons p t params ts ht hts ih =>
    unfold resolveAll
    refine ((TypeExpr.leads_becomesOption hm hw hf ht _).and
      (TypeExpr.leads_resolveOption hm hw p.ascription _)).bind ?_
    rintro t' middle ⟨⟨g, hg, hfit, ht'⟩, hread⟩
    refine (ih (Int.le_trans hm hread.grown.le) hread.grown.within hfit _).bind
      fun ts' after h' => leads_pure ?_
    exact Becomes.pair hread hg ht' h'

theorem leads_signature {before : Naming} (hm : m ≤ before.next) (hw : before.Within m)
    (params : List Param) (returns : Option TypeExpr) (position : Position) :
    Leads id (signature baseTypes params returns position) before
      (fun r after => Read m before after (r.1 ++ [r.2]) fun names =>
        Allow baseTypes names params r.1 ∧ TypeExpr.Allows baseTypes names returns r.2)
      fun _ => True := by
  unfold signature
  refine (leads_resolveAll hm hw params position 0).bind fun ts middle h => ?_
  exact (TypeExpr.leads_resolveOption (Int.le_trans hm h.grown.le) h.grown.within returns _).bind
    fun t after h' => leads_pure (h.pair h')

theorem leads_becomesSignature {before : Naming} (hm : m ≤ before.next) (hw : before.Within m)
    {names : String → Ty} {f : Int → Ty} (hf : Fits names f before) {params : List Param}
    {ts : List Ty} (hts : Allow baseTypes names params ts) {returns : Option TypeExpr} {t : Ty}
    (ht : TypeExpr.Allows baseTypes names returns t) (position : Position) :
    Leads id (signature baseTypes params returns position) before
      (fun r after => Becomes names f before after (r.1 ++ [r.2]) (ts ++ [t])) fun _ => False := by
  unfold signature
  refine ((leads_becomesAll hm hw hf hts position 0).and
    (leads_resolveAll hm hw params position 0)).bind ?_
  rintro ts' middle ⟨⟨g, hg, hfit, hts'⟩, hread⟩
  exact (TypeExpr.leads_becomesOption (Int.le_trans hm hread.grown.le) hread.grown.within hfit ht
    _).bind fun t' after h' => leads_pure (Becomes.pair hread hg hts' h')

end Param

/-! ## Reading in the course of inference -/

namespace Infer

open Naming

/-- Variables were drawn, and the types are made of no others. -/
structure Drawn (n n' : Int) (types : List Ty) : Prop where
  le : n ≤ n'
  leaves : ∀ t ∈ types, ∀ v ∈ t.leaves, n ≤ v ∧ v < n'

variable {α : Type} {n : Int} {step : Naming.Step α} {types : α → List Ty}

theorem leads_reading {P : α → Int → Prop} {E : InferFailure → Prop}
    (h : Leads id step ⟨n, Table.empty⟩ (fun a after => P a after.next)
      fun e => E (.typeError e)) : Leads InferState.next (reading step) n P E := by
  rintro s rfl
  have hrun := h ⟨s.next, Table.empty⟩ rfl
  unfold reading
  rcases hr : step ⟨s.next, Table.empty⟩ with ⟨a, after⟩ | ⟨e, after⟩
  · rw [hr] at hrun
    exact hrun
  · rw [hr] at hrun
    exact hrun

theorem within_empty (n : Int) : Within n ⟨n, Table.empty⟩ := by
  intro v hv
  cases hv

/-- What is read from the start has variables of its own, and a meaning. -/
theorem settles_reading {meaning : α → (String → Ty) → Prop}
    (h : ∀ {before : Naming}, n ≤ before.next → before.Within n → Leads id step before
      (fun a after => Read n before after (types a) (meaning a)) fun _ => True) :
    Settles (reading step) n fun a n' => Drawn n n' (types a) ∧ ∃ names, meaning a names := by
  apply leads_reading
  refine ((h (Int.le_refl n) (within_empty n)).imp_error fun _ _ => nofun).imp
    fun a after hread => ?_
  exact ⟨⟨hread.grown.le, hread.leaves⟩, hread.exists_names⟩

/-- What is read from the start becomes any meaning it has. -/
theorem achieves_reading {names : String → Ty} {targets : List Ty}
    (h : ∀ {before : Naming} {f : Int → Ty}, n ≤ before.next → before.Within n →
      Fits names f before → Leads id step before
        (fun a after => Becomes names f before after (types a) targets) fun _ => False)
    (f : Int → Ty) :
    Achieves (reading step) n fun a _ =>
      ∃ g, Agree n g f ∧ (types a).map (Ty.subst g) = targets := by
  apply leads_reading
  refine (h (f := f) (Int.le_refl n) (within_empty n) ?_).imp ?_
  · intro name v hv
    cases hv
  · rintro a after ⟨g, hg, -, ht⟩
    exact ⟨g, hg, ht⟩

end Infer

end LetPoly
