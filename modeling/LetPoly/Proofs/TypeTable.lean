-- The laws of the table of types. When a program is checked without error, the final
-- types of its nodes are a typing derivation. No substitution of a later item touches
-- the types of those before it, since no variable is free between items.
import LetPoly.Proofs.CheckedPrograms
import LetPoly.Proofs.TabledInference

namespace LetPoly

namespace Check

/-! ## Whole programs -/

variable {rules : Rules}

@[simp] theorem types_accept (st : State) (item : Term) (env : Env) (types : List (Site × Ty))
    (after : InferState) :
    (accept st item env types after).checked.types = st.checked.types ++ types := by
  unfold accept
  split <;> rfl

theorem sites_replaced (f : Int → Ty) (types : List (Site × Ty)) :
    (replaced f types).map (·.1) = types.map (·.1) := by
  simp [replaced, Function.comp_def]

theorem holds_replaced {T : Position → Option Ty} {f : Int → Ty} {types : List (Site × Ty)}
    (h : ∀ entry ∈ replaced f types, T entry.1.position = some entry.2) : Holds T f types :=
  fun _ he => h _ (List.mem_map_of_mem he)

/-- After an item without an error: what it put on record, and that it fits together. -/
theorem tabled_of_check (hr : rules.Proper) {item : Term} {slot : Nat} {st : State}
    (hst : Stands st) {s : Subst} {env : Env} {after : InferState}
    (hrun : Infer.check rules item st.env [slot] (.start st.next) = .ok (s, env) after) :
    s.Solved ∧ (after.types.map (·.1)).Perm (typedSites (item.walk [slot])) ∧
    ∀ T binders, st.env.Refers T .var binders → Holds T s.image after.types →
      ∃ binders', ConsistentStatement rules T binders [slot] item binders' ∧
        env.Refers T .var binders' := by
  have hkept := Infer.keptChecked hr item st.env [slot] (st.next, []) (.start st.next) rfl
  have htable := (Infer.tablesStatement hr item).leads hr hst.below
    (Infer.apart_of_closed hst.closed) [slot] [] (.start st.next) rfl
  rw [hrun] at hkept htable
  obtain ⟨news, hnews, hperm⟩ := hkept
  obtain ⟨hpassed, news', hnews', htable⟩ := htable
  obtain rfl : after.types = news := hnews
  obtain rfl : after.types = news' := hnews'
  refine ⟨hpassed.tidy.solved, hperm, fun T binders hrefers hholds => ?_⟩
  obtain ⟨binders', hfits, hrefers'⟩ := htable.fits s.image T binders (hpassed.tidy.spares _)
    (hrefers.congr fun v hv => absurd hv (hst.closed v)) hholds
  have hclosed := (hpassed.of_closed hst.closed).closed hst.closed
  exact ⟨binders', hfits, hrefers'.congr fun v hv => absurd hv (hclosed v)⟩

/-- After a last expression without an error: what it put on record, and that it fits together. -/
theorem tabled_of_infer (hr : rules.Proper) {e : Term} {slot : Nat} {st : State}
    (hst : Stands st) {s : Subst} {t : Ty} {after : InferState}
    (hrun : Infer.infer rules e st.env [slot] (.start st.next) = .ok (s, t) after) :
    s.Solved ∧ (after.types.map (·.1)).Perm (typedSites (e.walk [slot])) ∧
    ∀ T binders, st.env.Refers T .var binders → Holds T s.image after.types →
      Consistent rules T binders [slot] e (t.subst s.image) := by
  have hkept := Infer.kept hr e st.env [slot] (st.next, []) (.start st.next) rfl
  have htable := (Infer.tables hr e).leads hr hst.below (Infer.apart_of_closed hst.closed) [slot] []
    (.start st.next) rfl
  rw [hrun] at hkept htable
  obtain ⟨news, hnews, hperm⟩ := hkept
  obtain ⟨hinferred, news', hnews', htable⟩ := htable
  obtain rfl : after.types = news := hnews
  obtain rfl : after.types = news' := hnews'
  refine ⟨hinferred.tidy.solved, hperm, fun T binders hrefers hholds => ?_⟩
  exact htable s.image T binders (hinferred.tidy.spares _)
    (hrefers.congr fun v hv => absurd hv (hst.closed v)) hholds

/-- Through all items without an error: what they put on record, and that it fits together. -/
theorem tabled_of_items (hr : rules.Proper) {resilient : Bool} {es : List Term} {slot : Nat}
    {st st' : State} {through : Bool} (h : items rules resilient es slot st = .ok (st', through))
    (herr : st'.checked.errors = []) (hst : Stands st) :
    ∃ news, st'.checked.types = st.checked.types ++ news ∧
      (news.map (·.1)).Perm (typedSites (Term.walkAll [] slot es)) ∧
      ∀ T binders, st.env.Refers T .var binders →
        (∀ entry ∈ news, T entry.1.position = some entry.2) →
        ∃ binders', ConsistentStatements rules T binders [] slot es binders' ∧
          st'.env.Refers T .var binders' := by
  induction es generalizing slot st with
  | nil =>
    cases h
    exact ⟨[], by simp, .refl _, fun T binders hrefers _ => ⟨binders, .nil, hrefers⟩⟩
  | cons item es ih =>
    rcases items_cons h with ⟨s, env, after, types, hrun, hfinal, h⟩ |
      ⟨error, after, -, rfl | ⟨env, next, h⟩⟩
    · obtain ⟨hsolved, hperm, hfits⟩ := tabled_of_check hr hst hrun
      rw [finalTypes_eq_ok hsolved, Except.ok.injEq] at hfinal
      subst hfinal
      obtain ⟨news, hnews, hperm', hfits'⟩ := ih h (hst.accept hr hrun _).2
      refine ⟨replaced s.image after.types ++ news, by rw [hnews, types_accept, List.append_assoc],
        ?_, fun T binders hrefers hT => ?_⟩
      · rw [List.map_append, sites_replaced, Term.walkAll, typedSites_append]
        exact hperm.append hperm'
      · obtain ⟨hT, hT'⟩ := List.forall_mem_append.1 hT
        obtain ⟨binders₁, hfirst, hrefers₁⟩ := hfits T binders hrefers (holds_replaced hT)
        obtain ⟨binders₂, hmore, hrefers₂⟩ := hfits' T binders₁ (by rwa [env_accept]) hT'
        exact ⟨binders₂, .cons hfirst hmore, hrefers₂⟩
    · simp [reject] at herr
    · have := errors_of_items h herr
      simp [reject] at this

/-- After the last expression, if there is one. -/
theorem tabled_of_result (hr : rules.Proper) {slot : Nat} {st : State} {last : Option Term}
    {c : Checked} (h : result rules slot st last = .ok c) (herr : c.errors = [])
    (hst : Stands st) :
    ∃ news, c.types = st.checked.types ++ news ∧
      (news.map (·.1)).Perm (typedSites (Term.walkOption [slot] last)) ∧
      ∀ T binders, st.env.Refers T .var binders →
        (∀ entry ∈ news, T entry.1.position = some entry.2) →
        ∀ e, last = some e → ∃ t, Consistent rules T binders [slot] e t := by
  cases last with
  | none =>
    rw [result, Except.ok.injEq] at h
    subst h
    exact ⟨[], by simp, .refl _, fun _ _ _ _ e he => by cases he⟩
  | some e =>
    obtain ⟨-, -, s, t, after, types, hrun, -, hfinal, htypes⟩ := infer_of_result h herr
    obtain ⟨hsolved, hperm, hfits⟩ := tabled_of_infer hr hst hrun
    rw [finalTypes_eq_ok hsolved, Except.ok.injEq] at hfinal
    subst hfinal
    refine ⟨_, htypes, by rwa [sites_replaced], fun T binders hrefers hT e' he => ?_⟩
    cases he
    exact ⟨_, hfits T binders hrefers (holds_replaced hT)⟩

theorem errors_of_result {slot : Nat} {st : State} {last : Option Term} {c : Checked}
    (h : result rules slot st last = .ok c) (herr : c.errors = []) : st.checked.errors = [] := by
  cases last with
  | none =>
    rw [result, Except.ok.injEq] at h
    subst h
    exact herr
  | some e => exact (infer_of_result h herr).1

end Check

theorem Checked.typeAt?_of_mem {c : Checked} (h : (c.types.map (·.1.position)).Nodup)
    {entry : Site × Ty} (he : entry ∈ c.types) : c.typeAt? entry.1.position = some entry.2 := by
  unfold Checked.typeAt?
  generalize c.types = types at h he
  induction types with
  | nil => cases he
  | cons first more ih =>
    obtain ⟨hfirst, hmore⟩ := List.nodup_cons.1 h
    rcases List.mem_cons.1 he with rfl | he
    · simp
    · have hne : first.1.position ≠ entry.1.position := fun heq =>
        hfirst (List.mem_map.2 ⟨entry, he, heq.symm⟩)
      rw [List.find?_cons_of_neg (by simpa using hne)]
      exact ih hmore he

/-- When a program is checked without error, the final types of its nodes fit together by the
typing rules: literals have their types, operators, calls, functions, conditionals and blocks have
the types that follow from those of their parts, and a name has the type of the parameter or the
enclosing definition that binds it, or an instance of the type of the earlier binding. -/
theorem checked_types_fit_together (p : Program) (options : CheckOptions) (c : Checked)
    (hp : options.prelude = Table.empty) (h : p.check options = .ok c) (hok : c.ok = true) :
    p.Consistent (.standard options.extraTypes) c.typeAt? := by
  have hr := Rules.proper_standard options.extraTypes
  have herr : c.errors = [] := by simpa [Checked.ok] using hok
  have hstart := Check.stands_start options hp
  have hempty : ∀ T, Env.Refers T .var options.prelude Table.empty := fun T => by
    rw [hp]
    exact Table.rel_empty
  obtain ⟨st, hitems, hresult⟩ := Program.check_parts hp h herr
  have herr' := Check.errors_of_result hresult herr
  obtain ⟨-, -, hst⟩ := Check.bindAll_of_items hr hitems herr' hstart
  obtain ⟨news, hnews, hperm, hfits⟩ := Check.tabled_of_items hr hitems herr' hstart
  obtain ⟨news', hnews', hperm', hfits'⟩ := Check.tabled_of_result hr hresult herr hst
  have htypes : c.types = news ++ news' := by rw [hnews', hnews]; rfl
  -- no two entries are about one position
  have hnodup : (c.types.map (·.1.position)).Nodup := by
    have hwalk := ((Term.branches_walkAll [] p.statements (Nat.zero_add _)).append
      (Term.branches_walkOption [] _ p.result) (by omega) (by omega)).nodup
    rw [← positions_append] at hwalk
    have hsites : (c.types.map (·.1)).Perm (typedSites (Term.walkAll [] 0 p.statements ++
        Term.walkOption [p.statements.length] p.result)) := by
      rw [htypes, List.map_append, typedSites_append]
      exact hperm.append hperm'
    have hpos := (hsites.map (·.position)).nodup_iff.2 (nodup_typedSites hwalk)
    rwa [List.map_map] at hpos
  have hT : ∀ entry ∈ news ++ news', c.typeAt? entry.1.position = some entry.2 := fun entry hm =>
    Checked.typeAt?_of_mem hnodup (htypes ▸ hm)
  obtain ⟨hT, hT'⟩ := List.forall_mem_append.1 hT
  obtain ⟨binders, hstatements, hrefers⟩ := hfits _ _ (hempty _) hT
  exact ⟨binders, hstatements, hfits' _ binders hrefers hT'⟩

/-- A definition that is used at two types within one call. -/
theorem checked_types_fit_together_of_two_instances :
    ∃ c, firstProgram.check ⟨[], false, 0, Table.empty⟩ = .ok c ∧ c.ok = true ∧
      c.typeAt? [1] = some (.fn [.var 1, .var 2] (.var 1)) ∧
      c.typeAt? [0, 1, 2] = some (.fn [.number, .bool] .number) ∧
      c.typeAt? [0, 2] = some (.fn [.number, .fn [.var 16, .var 17] (.var 16)] .number) ∧
      firstProgram.Consistent (.standard []) c.typeAt? := by
  have hrun : (firstProgram.check ⟨[], false, 0, Table.empty⟩).toOption.map (fun c =>
      (c.ok, c.typeAt? [1], c.typeAt? [0, 1, 2], c.typeAt? [0, 2])) =
      some (true, some (.fn [.var 1, .var 2] (.var 1)), some (.fn [.number, .bool] .number),
        some (.fn [.number, .fn [.var 16, .var 17] (.var 16)] .number)) := by
    cbv
  rcases hcheck : firstProgram.check ⟨[], false, 0, Table.empty⟩ with failure | c
  · rw [hcheck] at hrun
    cases hrun
  · rw [hcheck] at hrun
    simp only [Except.toOption, Option.map_some, Option.some.injEq, Prod.mk.injEq] at hrun
    obtain ⟨hok, hdef, hfirst, hsecond⟩ := hrun
    exact ⟨c, rfl, hok, hdef, hfirst, hsecond,
      checked_types_fit_together firstProgram _ c rfl hcheck hok⟩

end LetPoly
