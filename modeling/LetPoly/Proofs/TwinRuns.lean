-- The laws of two runs side by side. Inference goes by which type variables are the
-- same and never by their numbers, by the place of a node in its item and not by the
-- item's place, and by the names that an item refers to: two runs that start alike,
-- up to that, stay alike step by step, and end in answers or in errors that are alike.
import LetPoly.Proofs.Pairings
import LetPoly.Proofs.RecordedNodes

namespace LetPoly

/-! ## Steps in two runs -/

section

variable {ε σ α β γ δ : Type} {R : Pairing → σ → σ → Prop} {F : Pairing → ε → ε → Prop}
  {x : EStateM ε σ α} {y : EStateM ε σ β} {k : α → EStateM ε σ γ} {l : β → EStateM ε σ δ}
  {p : Pairing} {P : Pairing → α → β → Prop} {Q : Pairing → γ → δ → Prop}

/-- Two runs end alike: both in an answer or both in an error, and the answers or the errors go
together, as do the states. -/
inductive EndAlike (R : Pairing → σ → σ → Prop) (F : Pairing → ε → ε → Prop) (p : Pairing)
    (P : Pairing → α → β → Prop) : EStateM.Result ε σ α → EStateM.Result ε σ β → Prop
  | ok {q : Pairing} {a : α} {b : β} {s s' : σ} : p.Extends q → R q s s' → P q a b →
    EndAlike R F p P (.ok a s) (.ok b s')
  | error {q : Pairing} {e e' : ε} {s s' : σ} : p.Extends q → R q s s' → F q e e' →
    EndAlike R F p P (.error e s) (.error e' s')

/-- From states that go together, two steps end alike. -/
def Tracks (R : Pairing → σ → σ → Prop) (F : Pairing → ε → ε → Prop) (x : EStateM ε σ α)
    (y : EStateM ε σ β) (p : Pairing) (P : Pairing → α → β → Prop) : Prop :=
  ∀ s s', R p s s' → EndAlike R F p P (x s) (y s')

theorem EndAlike.since {q : Pairing} {r : EStateM.Result ε σ α} {r' : EStateM.Result ε σ β}
    (h : EndAlike R F q P r r') (hq : p.Extends q) : EndAlike R F p P r r' := by
  cases h with
  | ok hr hs hab => exact .ok (hq.trans hr) hs hab
  | error hr hs he => exact .error (hq.trans hr) hs he

theorem tracks_pure {a : α} {b : β} (h : P p a b) :
    Tracks R F (pure a : EStateM ε σ α) (pure b : EStateM ε σ β) p P :=
  fun _ _ hs => .ok (.refl p) hs h

theorem tracks_throw {e e' : ε} (h : F p e e') :
    Tracks R F (throw e : EStateM ε σ α) (throw e' : EStateM ε σ β) p P :=
  fun _ _ hs => .error (.refl p) hs h

theorem Tracks.bind (hx : Tracks R F x y p P)
    (hk : ∀ q a b, p.Extends q → P q a b → Tracks R F (k a) (l b) q Q) :
    Tracks R F (x >>= k) (y >>= l) p Q := by
  intro s s' hs
  have h := hx s s' hs
  generalize hr : x s = r at h
  generalize hr' : y s' = r' at h
  cases h with
  | ok hq ht hab =>
    rw [bind_of_ok hr, bind_of_ok hr']
    exact (hk _ _ _ hq hab _ _ ht).since hq
  | error hq ht he =>
    rw [bind_of_error hr, bind_of_error hr']
    exact .error hq ht he

end

/-! ## Places -/

section

variable {root root' : Position} {π : Int → Int}

/-- Two nodes are alike and stand at the same place below two roots. -/
structure Site.Moved (root root' : Position) (site site' : Site) : Prop where
  tag : site'.toTag = site.toTag
  position : ∃ inner, site.position = inner ++ root ∧ site'.position = inner ++ root'

theorem Site.moved (tag : Tag) (inner : Position) :
    Site.Moved root root' ⟨tag, inner ++ root⟩ ⟨tag, inner ++ root'⟩ :=
  ⟨rfl, inner, rfl, rfl⟩

theorem Site.Moved.eq {site site' : Site} (h : site.Moved root root site') : site' = site := by
  obtain ⟨tag, position⟩ := site
  obtain ⟨tag', position'⟩ := site'
  obtain ⟨rfl, inner, rfl, rfl⟩ := h
  rfl

/-- Two errors are put down to the same place below two roots and differ in the numbers of
variables. -/
inductive TypeError.Alike (root root' : Position) (π : Int → Int) : TypeError → TypeError → Prop
  | placed (reason : Reason) {site site' : Site} : site.Moved root root' site' →
    Alike root root' π (.placed reason site) (.placed (reason.rename π) site')

theorem TypeError.Alike.eq {e e' : TypeError} (h : TypeError.Alike root root π e e') :
    e' = e.rename π := by
  cases h with
  | placed reason hs => exact congrArg (TypeError.placed (reason.rename π)) hs.eq

/-- Two failures are the same, or errors that are alike. -/
inductive InferFailure.Alike (root root' : Position) (π : Int → Int) :
    InferFailure → InferFailure → Prop
  | typeError {e e' : TypeError} : e.Alike root root' π e' →
    Alike root root' π (.typeError e) (.typeError e')
  | cyclic : Alike root root' π .cyclic .cyclic
  | notExpression (kind : Kind) : Alike root root' π (.notExpression kind) (.notExpression kind)
  | notStatement (kind : Kind) : Alike root root' π (.notStatement kind) (.notStatement kind)
  | malformed (holder part : String) :
    Alike root root' π (.malformed holder part) (.malformed holder part)

theorem InferFailure.alike_placed (reason : Reason) {site site' : Site}
    (h : site.Moved root root' site') :
    InferFailure.Alike root root' π (.typeError (.placed reason site))
      (.typeError (.placed (reason.rename π) site')) :=
  .typeError (.placed reason h)

theorem Infer.resultSite?_moved {definition definition' : Site}
    (h : definition.Moved root root' definition') (body : Term) (inner : Position) :
    Option.Rel (Site.Moved root root') (resultSite? definition body (inner ++ root))
      (resultSite? definition' body (inner ++ root')) := by
  unfold resultSite?
  split
  · exact .some (Site.moved _ (_ :: inner))
  · exact .some h
  · exact .none

end

/-! ## Names -/

namespace Term

mutual

/-- The names that a term refers to. -/
def identifiers : Term → List String
  | number .. | boolean .. | strayParam _ | strayType _ => []
  | name x _ => [x]
  | binary left _ right _ => left.identifiers ++ right.identifiers
  | call callee arguments _ => callee.identifiers ++ identifiersAll arguments
  | lambda _ body _ => body.identifiers
  | block statements none _ | strayProgram statements none _ => identifiersAll statements
  | block statements (some result) _ | strayProgram statements (some result) _ =>
    identifiersAll statements ++ result.identifiers
  | conditional condition thenBranch elseBranch _ =>
    condition.identifiers ++ thenBranch.identifiers ++ elseBranch.identifiers
  | letBinding _ value _ _ => value.identifiers
  | definition _ _ _ body _ => body.identifiers
  | discard value _ => value.identifiers

/-- The names that terms refer to. -/
def identifiersAll : List Term → List String
  | [] => []
  | e :: es => e.identifiers ++ identifiersAll es

end

theorem identifiersAll_append (first second : List Term) :
    identifiersAll (first ++ second) = identifiersAll first ++ identifiersAll second := by
  induction first with
  | nil => rfl
  | cons e es ih => rw [List.cons_append, identifiersAll, identifiersAll, ih, List.append_assoc]

end Term

/-! ## Annotations -/

instance : Named Int := ⟨fun v => [v], fun π v => π v, fun h => h _ (by simp)⟩

instance {α : Type} [Named α] : Named (Table String α) where
  vars t := Named.vars t.values
  rename π t := t.map (Named.rename π)
  rename_congr h := Table.map_congr fun a ha =>
    Named.rename_congr fun v hv => h v (List.mem_flatMap.2 ⟨a, ha, hv⟩)

theorem Pairing.Matches.insert {α : Type} [Named α] {p : Pairing} {t t' : Table String α}
    (h : p.Matches t t') (key : String) {a b : α} (hab : p.Matches a b) :
    p.Matches (t.insert key a) (t'.insert key b) := by
  refine ⟨?_, fun v hv => ?_⟩
  · rw [h.eq, hab.eq]
    exact (Table.map_insert _ t key a).symm
  · obtain ⟨c, hc, hv⟩ := List.mem_flatMap.1 hv
    rcases Table.mem_values_insert hc with hc | hc
    · exact hab.drawn v (hc ▸ hv)
    · exact h.drawn v (List.mem_flatMap.2 ⟨c, hc, hv⟩)

namespace Naming

/-- Where two readings of annotations stand: what was drawn for the quoted names goes together. -/
structure Alike (w : Twinning) (p : Pairing) (s s' : Naming) : Prop where
  first : s.next = p.first
  second : s'.next = p.second
  admits : w.Admits p
  scope : p.Matches s.scope s'.scope

/-- Two readings of annotations side by side. -/
abbrev Tracks {α β : Type} (w : Twinning) (root root' : Position) (x : Step α) (y : Step β)
    (p : Pairing) (P : Pairing → α → β → Prop) : Prop :=
  LetPoly.Tracks (Alike w) (fun q => TypeError.Alike root root' q.map) x y p P

variable {w : Twinning} {root root' : Position} {p : Pairing}

theorem tracks_fresh : Tracks w root root' fresh fresh p Pairing.Matches := by
  intro s s' hs
  refine .ok p.extends_next ⟨?_, ?_, hs.admits.next, hs.scope.mono p.extends_next⟩ ?_
  · exact congrArg (· + 1) hs.first
  · exact congrArg (· + 1) hs.second
  · rw [hs.first, hs.second]
    exact p.matches_next

theorem tracks_quoted (name : String) :
    Tracks w root root' (quoted name) (quoted name) p Pairing.Matches := by
  intro s s' hs
  have hget : s'.scope.get? name = (s.scope.get? name).map p.map := by
    rw [hs.scope.eq]
    exact Table.get?_map _ _ _
  rw [quoted_eq, quoted_eq, hget]
  rcases hv : s.scope.get? name with _ | v
  · have hnext := p.matches_next
    rw [← hs.first, ← hs.second] at hnext
    refine .ok p.extends_next ⟨?_, ?_, hs.admits.next, ?_⟩ hnext
    · exact congrArg (· + 1) hs.first
    · exact congrArg (· + 1) hs.second
    · exact (hs.scope.mono p.extends_next).insert name ⟨Ty.var.inj hnext.eq, hnext.drawn⟩
  · refine .ok (.refl p) hs ⟨rfl, fun w hw => ?_⟩
    obtain rfl : w = v := by simpa [Named.vars] using hw
    exact hs.scope.drawn w (List.mem_flatMap.2
      ⟨w, Table.mem_values_of_get? hv, by simp [Named.vars]⟩)

end Naming

namespace TypeExpr

variable {w : Twinning} {root root' : Position} {baseTypes : List String}

mutual

theorem tracks_resolve (written : TypeExpr) (inner : Position) (p : Pairing) :
    Naming.Tracks w root root' (written.resolve baseTypes (inner ++ root))
      (written.resolve baseTypes (inner ++ root')) p Pairing.Matches := by
  match written with
  | .named name l =>
    unfold resolve
    by_cases hn : name ∈ baseTypes
    · rw [if_pos hn, if_pos hn]
      exact tracks_pure (Pairing.matches_con name)
    · rw [if_neg hn, if_neg hn]
      exact tracks_throw (.placed (.unknownType name) (Site.moved _ inner))
  | .quoted name l =>
    unfold resolve
    exact Naming.tracks_quoted name
  | .arrow params result l =>
    unfold resolve
    refine (tracks_resolveAll params inner 0 p).bind fun q ts ts' _ hts => ?_
    refine (tracks_resolve result (_ :: inner) q).bind fun r t t' hr ht => ?_
    exact tracks_pure ((hts.mono hr).fn ht)

theorem tracks_resolveAll (written : List TypeExpr) (inner : Position) (slot : Nat)
    (p : Pairing) :
    Naming.Tracks w root root' (resolveAll baseTypes written (inner ++ root) slot)
      (resolveAll baseTypes written (inner ++ root') slot) p Pairing.Matches := by
  match written with
  | [] =>
    unfold resolveAll
    exact tracks_pure Pairing.matches_nil
  | t :: more =>
    unfold resolveAll
    refine (tracks_resolve t (slot :: inner) p).bind fun q t t' _ ht => ?_
    refine (tracks_resolveAll more inner (slot + 1) q).bind fun r ts ts' hr hts => ?_
    exact tracks_pure ((ht.mono hr).cons hts)

end

theorem tracks_resolveOption (written : Option TypeExpr) (inner : Position) (p : Pairing) :
    Naming.Tracks w root root' (resolveOption baseTypes written (inner ++ root))
      (resolveOption baseTypes written (inner ++ root')) p Pairing.Matches := by
  cases written with
  | none => exact Naming.tracks_fresh
  | some t => exact tracks_resolve t inner p

end TypeExpr

section

variable {w : Twinning} {root root' : Position} {baseTypes : List String}

theorem Param.tracks_resolveAll (params : List Param) (inner : Position) (slot : Nat)
    (p : Pairing) :
    Naming.Tracks w root root' (resolveAll baseTypes params (inner ++ root) slot)
      (resolveAll baseTypes params (inner ++ root') slot) p Pairing.Matches := by
  induction params generalizing slot p with
  | nil => exact tracks_pure Pairing.matches_nil
  | cons param more ih =>
    unfold resolveAll
    refine (TypeExpr.tracks_resolveOption _ (0 :: slot :: inner) p).bind fun q t t' _ ht => ?_
    refine (ih (slot + 1) q).bind fun r ts ts' hr hts => ?_
    exact tracks_pure ((ht.mono hr).cons hts)

theorem tracks_signature (params : List Param) (returns : Option TypeExpr) (inner : Position)
    (p : Pairing) :
    Naming.Tracks w root root' (signature baseTypes params returns (inner ++ root))
      (signature baseTypes params returns (inner ++ root')) p Pairing.Matches := by
  refine (Param.tracks_resolveAll params inner 0 p).bind fun q ts ts' _ hts => ?_
  refine (TypeExpr.tracks_resolveOption returns (_ :: inner) q).bind fun r t t' hr ht => ?_
  exact tracks_pure ((hts.mono hr).pair ht)

end

/-! ## The small steps of inference -/

/-- Two entries of the records of types: for nodes at the same place, types that go together. -/
def Pairing.Entries (root root' : Position) (p : Pairing) (a b : Site × Ty) : Prop :=
  a.1.Moved root root' b.1 ∧ p.Matches a.2 b.2

/-- Where two runs of inference stand: the types on record go together. -/
structure InferState.Alike (w : Twinning) (root root' : Position) (p : Pairing)
    (s s' : InferState) : Prop where
  first : s.next = p.first
  second : s'.next = p.second
  admits : w.Admits p
  types : List.Forall₂ (p.Entries root root') s.types s'.types

theorem Pairing.Extends.entries {root root' : Position} {p q : Pairing} (h : p.Extends q)
    {types types' : List (Site × Ty)} (ht : List.Forall₂ (p.Entries root root') types types') :
    List.Forall₂ (q.Entries root root') types types' :=
  ht.imp fun _ _ hab => ⟨hab.1, hab.2.mono h⟩

namespace Infer

/-- Two runs of inference side by side. -/
abbrev Tracks {α β : Type} (w : Twinning) (root root' : Position) (x : Infer α) (y : Infer β)
    (p : Pairing) (P : Pairing → α → β → Prop) : Prop :=
  LetPoly.Tracks (InferState.Alike w root root') (fun q => InferFailure.Alike root root' q.map)
    x y p P

variable {α β γ δ : Type} {w : Twinning} {root root' : Position} {p : Pairing} {k : α → Infer γ}
  {l : β → Infer δ} {Q : Pairing → γ → δ → Prop}

theorem tracks_fail (reason : Reason) {site site' : Site} (h : site.Moved root root' site')
    {P : Pairing → α → β → Prop} :
    Tracks w root root' (fail reason site) (fail (reason.rename p.map) site') p P :=
  tracks_throw (InferFailure.alike_placed reason h)

theorem tracks_orCyclic_bind {o : Option α} {o' : Option β} {S : α → β → Prop}
    (h : Option.Rel S o o') (hk : ∀ a b, S a b → Tracks w root root' (k a) (l b) p Q) :
    Tracks w root root' (orCyclic o >>= k) (orCyclic o' >>= l) p Q := by
  cases h with
  | none => exact tracks_throw .cyclic
  | some hr => exact hk _ _ hr

theorem tracks_orCyclic {o : Option α} {o' : Option β} {P : Pairing → α → β → Prop}
    (h : Option.Rel (P p) o o') : Tracks w root root' (orCyclic o) (orCyclic o') p P := by
  cases h with
  | none => exact tracks_throw .cyclic
  | some hr => exact tracks_pure hr

theorem tracks_noteAll_bind {events events' : List Event}
    (h : List.Forall₂ (p.Entries root root') (events.filterMap Event.typed?)
      (events'.filterMap Event.typed?))
    {k : Unit → Infer γ} {l : Unit → Infer δ} (hk : Tracks w root root' (k ()) (l ()) p Q) :
    Tracks w root root' (noteAll events >>= k) (noteAll events' >>= l) p Q := by
  intro s s' hs
  refine hk _ _ ⟨hs.first, hs.second, hs.admits, ?_⟩
  rw [types_noteAll, types_noteAll]
  exact List.rel_append hs.types h

theorem tracks_note_bind {site site' : Site} (hsite : site.Moved root root' site') {t t' : Ty}
    (h : p.Matches t t') {k : Unit → Infer γ} {l : Unit → Infer δ}
    (hk : Tracks w root root' (k ()) (l ()) p Q) :
    Tracks w root root' (note (.typed site t) >>= k) (note (.typed site' t') >>= l) p Q :=
  tracks_noteAll_bind (.cons ⟨hsite, h⟩ .nil) hk

theorem tracks_noteParams_bind (inner : Position) (slot : Nat) (params : List Param)
    {types types' : List Ty} (h : p.Matches types types') {k : Unit → Infer γ}
    {l : Unit → Infer δ} (hk : Tracks w root root' (k ()) (l ()) p Q) :
    Tracks w root root' (noteParams (inner ++ root) slot params types >>= k)
      (noteParams (inner ++ root') slot params types' >>= l) p Q := by
  induction params generalizing slot types types' with
  | nil => exact hk
  | cons param params ih =>
    cases types with
    | nil =>
      obtain rfl := h.of_nil
      exact hk
    | cons t types =>
      obtain ⟨t', types', rfl, ht, hts⟩ := h.of_cons
      rw [noteParams, noteParams, bind_assoc, bind_assoc]
      exact tracks_note_bind (Site.moved _ (slot :: inner)) ht (ih (slot + 1) hts)

theorem tracks_conclude {site site' : Site} (hsite : site.Moved root root' site') {s s' : Subst}
    {t t' : Ty} (hs : p.Matches s s') (ht : p.Matches t t') :
    Tracks w root root' (conclude site s t) (conclude site' s' t') p Pairing.Matches :=
  tracks_note_bind hsite ht (tracks_pure (hs.pair ht))

theorem tracks_unifyOr_bind {expected expected' actual actual' : Ty}
    {blame blame' : Clash → InferFailure} (he : p.Matches expected expected')
    (ha : p.Matches actual actual')
    (hb : ∀ clash, InferFailure.Alike root root' p.map (blame clash) (blame' (clash.rename p.map)))
    {k : Subst → Infer γ} {l : Subst → Infer δ}
    (hk : ∀ s s', p.Matches s s' → Tracks w root root' (k s) (l s') p Q) :
    Tracks w root root' (unifyOr expected actual blame >>= k)
      (unifyOr expected' actual' blame' >>= l) p Q := by
  have hunify : unify expected' actual' = Unify.renameOutcome p.map (unify expected actual) := by
    rw [he.eq, ha.eq]
    exact unify_rename p.injective expected actual
  have hnone : ∀ eqs : List Equation, (eqs.map Event.compared).filterMap Event.typed? = [] := by
    simp [Event.typed?]
  unfold unifyOr
  rw [bind_assoc, bind_assoc]
  refine tracks_noteAll_bind ?_ ?_
  · rw [hnone, hnone]
    exact .nil
  · rw [hunify]
    rcases hu : unify expected actual with clash | s
    · exact tracks_throw (hb clash)
    · refine hk _ _ ⟨rfl, fun v hv => ?_⟩
      exact (mem_of_unify hu hv).elim (he.drawn v) (ha.drawn v)

theorem tracks_unifyAt_bind {expected expected' actual actual' : Ty} {site site' : Site}
    (hsite : site.Moved root root' site') (he : p.Matches expected expected')
    (ha : p.Matches actual actual') {k : Subst → Infer γ} {l : Subst → Infer δ}
    (hk : ∀ s s', p.Matches s s' → Tracks w root root' (k s) (l s') p Q) :
    Tracks w root root' (unifyAt expected actual site >>= k)
      (unifyAt expected' actual' site' >>= l) p Q :=
  tracks_unifyOr_bind he ha (fun clash => InferFailure.alike_placed (.clash clash) hsite) hk

theorem tracks_fresh : Tracks w root root' fresh fresh p Pairing.Matches := by
  intro s s' hs
  refine .ok p.extends_next ⟨?_, ?_, hs.admits.next, p.extends_next.entries hs.types⟩ ?_
  · exact congrArg (· + 1) hs.first
  · exact congrArg (· + 1) hs.second
  · rw [hs.first, hs.second]
    exact p.matches_next

theorem tracks_freshMany (n : Nat) (p : Pairing) :
    Tracks w root root' (freshMany n) (freshMany n) p Pairing.Matches := by
  induction n generalizing p with
  | zero => exact tracks_pure Pairing.matches_nil
  | succ n ih =>
    refine tracks_fresh.bind fun q t t' _ ht => (ih q).bind fun r ts ts' hr hts => ?_
    exact tracks_pure ((ht.mono hr).cons hts)

theorem tracks_instantiate {scheme scheme' : Scheme}
    (h : w.Admits p → Scheme.Opens w p scheme scheme') :
    Tracks w root root' (instantiate scheme) (instantiate scheme') p Pairing.Matches := by
  intro s s' hs
  have ho := h hs.admits
  obtain ⟨q, hq, hadmits, hfirst, hsecond, hopened⟩ := ho.opened
  have hquiet := (quiet_instantiate scheme).returns (returns_instantiate ho.first)
  have hquiet' := (quiet_instantiate scheme').returns (returns_instantiate ho.second)
  obtain ⟨t, ht, htrace⟩ := hquiet s.types s (Prod.ext hs.first rfl)
  obtain ⟨t', ht', htrace'⟩ := hquiet' s'.types s' (Prod.ext hs.second rfl)
  obtain ⟨hnext, htypes⟩ := Prod.mk.inj htrace
  obtain ⟨hnext', htypes'⟩ := Prod.mk.inj htrace'
  rw [ht, ht']
  refine .ok hq ⟨hnext.trans hfirst.symm, hnext'.trans hsecond.symm, hadmits, ?_⟩ hopened
  rw [htypes, htypes']
  exact hq.entries hs.types

theorem tracks_reading {step : Naming.Step α} {step' : Naming.Step β}
    {P : Pairing → α → β → Prop} (h : Naming.Tracks w root root' step step' p P) :
    Tracks w root root' (reading step) (reading step') p P := by
  intro s s' hs
  have hstart : Naming.Alike w p ⟨s.next, Table.empty⟩ ⟨s'.next, Table.empty⟩ :=
    ⟨hs.first, hs.second, hs.admits, rfl, fun v hv => absurd hv List.not_mem_nil⟩
  have hend := h _ _ hstart
  unfold reading
  generalize step ⟨s.next, Table.empty⟩ = r at hend ⊢
  generalize step' ⟨s'.next, Table.empty⟩ = r' at hend ⊢
  cases hend with
  | ok hq hn hab => exact .ok hq ⟨hn.first, hn.second, hn.admits, hq.entries hs.types⟩ hab
  | error hq hn he =>
    exact .error hq ⟨hn.first, hn.second, hn.admits, hq.entries hs.types⟩ (.typeError he)

/-! ## Trees -/

variable {rules : Rules}

/-- Two runs on an expression end alike. -/
def Paced (w : Twinning) (root root' : Position) (rules : Rules) (e : Term) : Prop :=
  ∀ p env other inner, Env.Alike w p env other →
    Tracks w root root' (infer rules e env (inner ++ root)) (infer rules e other (inner ++ root'))
      p Pairing.Matches

/-- What two runs on a statement answer: substitutions and environments that go together. -/
def Onward (w : Twinning) (q : Pairing) (a b : Subst × Env) : Prop :=
  q.Matches a.1 b.1 ∧ Env.Alike w q a.2 b.2

/-- Two runs on a statement end alike. -/
def PacedChecked (w : Twinning) (root root' : Position) (rules : Rules) (e : Term) : Prop :=
  ∀ p env other inner, Env.Alike w p env other →
    Tracks w root root' (check rules e env (inner ++ root)) (check rules e other (inner ++ root'))
      p (Onward w)

theorem tracks_argument {e : Term} (he : Paced w root root' rules e) {env other : Env}
    {s s' : Subst} {param param' : Ty} (henv : Env.Alike w p env other) (hs : p.Matches s s')
    (hp : p.Matches param param') (inner : Position) :
    Tracks w root root'
      (argument (fun env => infer rules e env (inner ++ root)) (e.site (inner ++ root)) param s env)
      (argument (fun env => infer rules e env (inner ++ root')) (e.site (inner ++ root')) param' s'
        other) p Pairing.Matches := by
  refine tracks_orCyclic_bind (henv.expand? hs) fun env env' henv => ?_
  refine (he p env env' inner henv).bind fun q a b hq hab => ?_
  refine tracks_orCyclic_bind (hab.fst.compose? (hs.mono hq)) fun s s' hs => ?_
  refine tracks_orCyclic_bind (hs.expand? (hp.mono hq)) fun t t' ht => ?_
  refine tracks_unifyAt_bind (Site.moved _ inner) ht hab.snd fun u u' hu => ?_
  exact tracks_orCyclic (hu.compose? hs)

theorem tracks_inferAll {es : List Term} (hes : ∀ e ∈ es, Paced w root root' rules e)
    {env other : Env} {s s' : Subst} {params params' : List Ty} (henv : Env.Alike w p env other)
    (hs : p.Matches s s') (hp : p.Matches params params') (inner : Position) (slot : Nat) :
    Tracks w root root' (inferAll rules es params s env (inner ++ root) slot)
      (inferAll rules es params' s' other (inner ++ root') slot) p Pairing.Matches := by
  induction es generalizing p params params' s s' slot with
  | nil =>
    rw [inferAll, inferAll]
    · exact tracks_pure hs
    all_goals simp
  | cons e es ih =>
    cases params with
    | nil =>
      obtain rfl := hp.of_nil
      rw [inferAll, inferAll]
      · exact tracks_pure hs
      all_goals simp
    | cons param params =>
      obtain ⟨param', params', rfl, hparam, hparams⟩ := hp.of_cons
      rw [inferAll, inferAll]
      refine (tracks_argument (hes e (by simp)) henv hs hparam (slot :: inner)).bind
        fun q s s' hq hs => ?_
      exact ih (fun e he => hes e (by simp [he])) (henv.mono hq) hs (hparams.mono hq) (slot + 1)

theorem tracks_checkAll {es : List Term} (hes : ∀ e ∈ es, PacedChecked w root root' rules e)
    {env other : Env} {s s' : Subst} (henv : Env.Alike w p env other) (hs : p.Matches s s')
    (inner : Position) (slot : Nat) :
    Tracks w root root' (checkAll rules es env (inner ++ root) slot s)
      (checkAll rules es other (inner ++ root') slot s') p (Onward w) := by
  induction es generalizing p env other s s' slot with
  | nil => exact tracks_pure ⟨hs, henv⟩
  | cons e es ih =>
    rw [checkAll, checkAll]
    refine (hes e (by simp) p env other (slot :: inner) henv).bind fun q a b hq hab => ?_
    refine tracks_orCyclic_bind (hab.1.compose? (hs.mono hq)) fun s s' hs => ?_
    exact ih (fun e he => hes e (by simp [he])) hab.2 hs (slot + 1)

theorem paced_number (k : Int) (l : Option Location) : Paced w root root' rules (.number k l) := by
  intro p env other inner _
  rw [infer, infer]
  exact tracks_conclude (Site.moved _ inner) Pairing.matches_empty (Pairing.matches_con _)

theorem paced_boolean (b : Bool) (l : Option Location) :
    Paced w root root' rules (.boolean b l) := by
  intro p env other inner _
  rw [infer, infer]
  exact tracks_conclude (Site.moved _ inner) Pairing.matches_empty (Pairing.matches_con _)

theorem paced_name {x : String} (hx : ¬ w.hidden x) (l : Option Location) :
    Paced w root root' rules (.name x l) := by
  intro p env other inner henv
  rw [infer, infer]
  have hx := henv.of_not_hidden hx
  generalize env.get? x = o at hx ⊢
  generalize other.get? x = o' at hx ⊢
  cases hx with
  | none => exact tracks_fail (.unbound x) (Site.moved _ inner)
  | some hs =>
    refine (tracks_instantiate hs.opens).bind fun q t t' hq ht => ?_
    exact tracks_conclude (Site.moved _ inner) Pairing.matches_empty ht

theorem paced_binary (hr : rules.Proper) {left right : Term} (hleft : Paced w root root' rules left)
    (hright : Paced w root root' rules right) (operator : String) (l : Option Location) :
    Paced w root root' rules (.binary left operator right l) := by
  intro p env other inner henv
  rw [infer, infer]
  have hsite : Site.Moved root root' ⟨⟨.binary, l⟩, inner ++ root⟩ ⟨⟨.binary, l⟩, inner ++ root'⟩ :=
    Site.moved _ inner
  rcases hop : rules.operators.get? operator with _ | scheme
  · exact tracks_fail (.unbound operator) hsite
  obtain ⟨-, hclosed, hone⟩ := hr operator scheme hop
  refine (tracks_instantiate fun hw => Scheme.opens_self hw hclosed hone).bind
    fun q t t' hq ht => ?_
  have henv := henv.mono hq
  cases t with
  | var v =>
    obtain rfl := ht.eq
    exact tracks_throw (.malformed _ _)
  | con c =>
    obtain rfl := ht.eq
    exact tracks_throw (.malformed _ _)
  | fn params result =>
    obtain ⟨params', result', rfl, hparams, hresult⟩ := ht.of_fn
    -- whatever the arguments answer, the result follows
    have hlast : ∀ r s s', q.Extends r → r.Matches s s' → Tracks w root root'
        (do conclude ⟨⟨.binary, l⟩, inner ++ root⟩ s (← apply s result))
        (do conclude ⟨⟨.binary, l⟩, inner ++ root'⟩ s' (← apply s' result')) r Pairing.Matches :=
      fun r s s' hr hs => tracks_orCyclic_bind (hs.expand? (hresult.mono hr))
        fun t t' ht => tracks_conclude hsite hs ht
    rcases params with _ | ⟨a, _ | ⟨b, rest⟩⟩
    · obtain rfl := hparams.of_nil
      exact hlast q _ _ (.refl q) Pairing.matches_empty
    · obtain ⟨a', rest', rfl, ha, hrest⟩ := hparams.of_cons
      obtain rfl := hrest.of_nil
      exact (tracks_argument hleft henv Pairing.matches_empty ha (0 :: inner)).bind hlast
    · obtain ⟨a', rest', rfl, ha, hrest⟩ := hparams.of_cons
      obtain ⟨b', rest', rfl, hb, -⟩ := hrest.of_cons
      refine (tracks_argument hleft henv Pairing.matches_empty ha (0 :: inner)).bind
        fun r s s' hr hs => ?_
      refine (tracks_argument hright (henv.mono hr) hs (hb.mono hr) (1 :: inner)).bind ?_
      exact fun r' s s' hr' hs => hlast r' s s' (hr.trans hr') hs

theorem paced_call {callee : Term} (hcallee : Paced w root root' rules callee)
    {arguments : List Term} (harguments : ∀ e ∈ arguments, Paced w root root' rules e)
    (l : Option Location) : Paced w root root' rules (.call callee arguments l) := by
  intro p env other inner henv
  rw [infer, infer]
  refine (hcallee p env other (0 :: inner) henv).bind fun q a b hq hab => ?_
  refine (tracks_freshMany _ q).bind fun q₁ params params' hq₁ hparams => ?_
  refine tracks_fresh.bind fun q₂ result result' hq₂ hresult => ?_
  have henv := henv.mono (hq.trans (hq₁.trans hq₂))
  have hab := hab.mono (hq₁.trans hq₂)
  have hparams := hparams.mono hq₂
  refine tracks_unifyAt_bind (Site.moved _ inner) hab.snd (hparams.fn hresult) fun s s' hs => ?_
  refine tracks_orCyclic_bind (hs.compose? hab.fst) fun s s' hs => ?_
  refine (tracks_inferAll harguments henv hs hparams inner 1).bind fun q₃ s s' hq₃ hs => ?_
  refine tracks_orCyclic_bind (hs.expand? (hresult.mono hq₃)) fun t t' ht => ?_
  exact tracks_conclude (Site.moved _ inner) hs ht

theorem paced_lambda {body : Term} (hbody : Paced w root root' rules body) (params : List Param)
    (l : Option Location) : Paced w root root' rules (.lambda params body l) := by
  intro p env other inner henv
  rw [infer, infer]
  refine (tracks_reading (Param.tracks_resolveAll params inner 0 p)).bind
    fun q types types' hq htypes => ?_
  refine tracks_noteParams_bind inner 0 params htypes ?_
  refine (hbody q _ _ (_ :: inner) ((henv.mono hq).withParams params htypes)).bind
    fun r a b hr hab => ?_
  refine tracks_orCyclic_bind (hab.fst.expandAll? (htypes.mono hr)) fun ts ts' hts => ?_
  exact tracks_conclude (Site.moved _ inner) hab.fst (hts.fn hab.snd)

theorem paced_unit {statements : List Term}
    (hs : ∀ e ∈ statements, PacedChecked w root root' rules e) (l : Option Location) :
    Paced w root root' rules (.block statements none l) := by
  intro p env other inner henv
  rw [infer, infer]
  refine (tracks_checkAll hs henv Pairing.matches_empty inner 0).bind fun q a b hq hab => ?_
  exact tracks_conclude (Site.moved _ inner) hab.1 (Pairing.matches_con _)

theorem paced_block {statements : List Term}
    (hs : ∀ e ∈ statements, PacedChecked w root root' rules e) {result : Term}
    (hresult : Paced w root root' rules result) (l : Option Location) :
    Paced w root root' rules (.block statements (some result) l) := by
  intro p env other inner henv
  rw [infer, infer]
  refine (tracks_checkAll hs henv Pairing.matches_empty inner 0).bind fun q a b hq hab => ?_
  refine (hresult q _ _ (_ :: inner) hab.2).bind fun r c d hr hcd => ?_
  refine tracks_orCyclic_bind (hcd.fst.compose? (hab.1.mono hr)) fun s s' hs => ?_
  exact tracks_conclude (Site.moved _ inner) hs hcd.snd

theorem paced_conditional {condition thenBranch elseBranch : Term}
    (hcond : Paced w root root' rules condition) (hthen : Paced w root root' rules thenBranch)
    (helse : Paced w root root' rules elseBranch) (l : Option Location) :
    Paced w root root' rules (.conditional condition thenBranch elseBranch l) := by
  intro p env other inner henv
  rw [infer, infer]
  refine (hcond p env other (0 :: inner) henv).bind fun q a b hq hab => ?_
  have henv := henv.mono hq
  refine tracks_unifyAt_bind (Site.moved _ (0 :: inner)) (Pairing.matches_con _) hab.snd
    fun s s' hs => ?_
  refine tracks_orCyclic_bind (hs.compose? hab.fst) fun s s' hs => ?_
  refine tracks_orCyclic_bind (henv.expand? hs) fun env₁ env₁' henv₁ => ?_
  refine (hthen q _ _ (1 :: inner) henv₁).bind fun q₁ a b hq₁ hthen => ?_
  have henv := henv.mono hq₁
  refine tracks_orCyclic_bind (hthen.fst.compose? (hs.mono hq₁)) fun s s' hs => ?_
  refine tracks_orCyclic_bind (henv.expand? hs) fun env₂ env₂' henv₂ => ?_
  refine (helse q₁ _ _ (2 :: inner) henv₂).bind fun q₂ c d hq₂ helse => ?_
  refine tracks_orCyclic_bind (helse.fst.compose? (hs.mono hq₂)) fun s s' hs => ?_
  refine tracks_orCyclic_bind (hs.expand? (hthen.snd.mono hq₂)) fun t t' ht => ?_
  refine tracks_unifyOr_bind ht helse.snd (fun clash => ?_) fun u u' hu => ?_
  · rw [ht.eq, helse.snd.eq]
    exact InferFailure.alike_placed (.branches t c.2 clash) (Site.moved _ inner)
  refine tracks_orCyclic_bind (hu.compose? hs) fun s s' hs => ?_
  refine tracks_orCyclic_bind (hs.expand? ht) fun t t' ht => ?_
  exact tracks_conclude (Site.moved _ inner) hs ht

theorem paced_discard {value : Term} (hvalue : Paced w root root' rules value)
    (l : Option Location) : PacedChecked w root root' rules (.discard value l) := by
  intro p env other inner henv
  rw [check, check]
  refine (hvalue p env other (0 :: inner) henv).bind fun q a b hq hab => ?_
  refine tracks_note_bind (Site.moved _ inner) hab.snd ?_
  refine tracks_orCyclic_bind ((henv.mono hq).expand? hab.fst) fun outer outer' houter => ?_
  exact tracks_pure ⟨hab.fst, houter⟩

/-- What a binding does last: the type of the name is generalized and put on record. -/
theorem tracks_binding {s s' : Subst} {outer outer' : Env} {t t' : Ty} (hs : p.Matches s s')
    (houter : Env.Alike w p outer outer') (ht : p.Matches t t') {site site' : Site}
    (hsite : site.Moved root root' site') (word : Keyword) (x : String) :
    Tracks w root root'
      (do
        note (.typed site t)
        note (.bound word x (Env.generalize outer t))
        pure (s, outer.insert x (Env.generalize outer t)))
      (do
        note (.typed site' t')
        note (.bound word x (Env.generalize outer' t'))
        pure (s', outer'.insert x (Env.generalize outer' t'))) p (Onward w) := by
  refine tracks_note_bind hsite ht (tracks_noteAll_bind .nil ?_)
  exact tracks_pure ⟨hs, houter.insert x (houter.generalize ht)⟩

theorem paced_let {value : Term} (hvalue : Paced w root root' rules value) (x : String)
    (l : Option Location) : PacedChecked w root root' rules (.letBinding x value none l) := by
  intro p env other inner henv
  rw [check, check]
  refine (hvalue p env other (0 :: inner) henv).bind fun q a b hq hab => ?_
  refine tracks_orCyclic_bind ((henv.mono hq).expand? hab.fst) fun outer outer' houter => ?_
  exact tracks_binding hab.fst houter hab.snd (Site.moved _ inner) _ x

theorem paced_ascribed {value : Term} (hvalue : Paced w root root' rules value) (x : String)
    (ascription : TypeExpr) (l : Option Location) :
    PacedChecked w root root' rules (.letBinding x value (some ascription) l) := by
  intro p env other inner henv
  rw [check, check]
  refine (hvalue p env other (0 :: inner) henv).bind fun q a b hq hab => ?_
  refine (tracks_reading (ascription.tracks_resolve (1 :: inner) q)).bind fun r t t' hr ht => ?_
  have henv := henv.mono (hq.trans hr)
  have hab := hab.mono hr
  refine tracks_unifyAt_bind (Site.moved _ (0 :: inner)) ht hab.snd fun u u' hu => ?_
  refine tracks_orCyclic_bind (hu.compose? hab.fst) fun s s' hs => ?_
  refine tracks_orCyclic_bind (hu.expand? hab.snd) fun t t' ht => ?_
  refine tracks_orCyclic_bind (henv.expand? hs) fun outer outer' houter => ?_
  exact tracks_binding hs houter ht (Site.moved _ inner) _ x

theorem paced_definition {body : Term} (hbody : Paced w root root' rules body) (f : String)
    (params : List Param) (returns : Option TypeExpr) (l : Option Location) :
    PacedChecked w root root' rules (.definition f params returns body l) := by
  intro p env other inner henv
  rw [check, check]
  have hsite : Site.Moved root root' ⟨⟨.definition, l⟩, inner ++ root⟩
      ⟨⟨.definition, l⟩, inner ++ root'⟩ := Site.moved _ inner
  refine (tracks_reading (tracks_signature params returns inner p)).bind
    fun q answer answer' hq hsig => ?_
  have henv := henv.mono hq
  have hfn := hsig.fst.fn hsig.snd
  refine tracks_noteParams_bind inner 0 params hsig.fst ?_
  refine (hbody q _ _ (_ :: inner)
    ((henv.insert f (Scheme.alike_mono hfn)).withParams params hsig.fst)).bind
    fun r a b hr hab => ?_
  have henv := henv.mono hr
  refine tracks_orCyclic_bind (hab.fst.expand? (hsig.snd.mono hr)) fun t t' ht => ?_
  refine tracks_unifyOr_bind ht hab.snd (fun clash => ?_) fun u u' hu => ?_
  · -- the result of the body stands at the same place in both runs
    have hblamed := resultSite?_moved hsite body ((params.length + 1) :: inner)
    simp only [List.cons_append] at hblamed
    rw [ht.eq, hab.snd.eq]
    generalize resultSite? _ body _ = o at hblamed ⊢
    generalize resultSite? _ body _ = o' at hblamed ⊢
    cases hblamed with
    | none => exact .malformed _ _
    | some hblamed => exact InferFailure.alike_placed (.returns t a.2 clash) hblamed
  refine tracks_orCyclic_bind (hu.compose? hab.fst) fun s s' hs => ?_
  refine tracks_orCyclic_bind (henv.expand? hs) fun outer outer' houter => ?_
  refine tracks_orCyclic_bind (hs.expand? (hfn.mono hr)) fun final final' hfinal => ?_
  exact tracks_binding hs houter hfinal hsite _ f

mutual

/-- Two runs on an expression that start alike end alike, if no name that it refers to is hidden. -/
theorem paced (hr : rules.Proper) (e : Term) (hv : ∀ x ∈ e.identifiers, ¬ w.hidden x) :
    Paced w root root' rules e := by
  match e with
  | .number k l => exact paced_number k l
  | .boolean b l => exact paced_boolean b l
  | .name x l => exact paced_name (hv x (by simp [Term.identifiers])) l
  | .binary left operator right l =>
    obtain ⟨hl, hr'⟩ := List.forall_mem_append.1 hv
    exact paced_binary hr (paced hr left hl) (paced hr right hr') operator l
  | .call callee arguments l =>
    obtain ⟨hc, ha⟩ := List.forall_mem_append.1 hv
    exact paced_call (paced hr callee hc) (pacedAll hr arguments ha) l
  | .lambda params body l => exact paced_lambda (paced hr body hv) params l
  | .block statements none l => exact paced_unit (pacedCheckedAll hr statements hv) l
  | .block statements (some result) l =>
    obtain ⟨hs, he⟩ := List.forall_mem_append.1 hv
    exact paced_block (pacedCheckedAll hr statements hs) (paced hr result he) l
  | .conditional condition thenBranch elseBranch l =>
    obtain ⟨hct, he⟩ := List.forall_mem_append.1 hv
    obtain ⟨hc, ht⟩ := List.forall_mem_append.1 hct
    exact paced_conditional (paced hr condition hc) (paced hr thenBranch ht)
      (paced hr elseBranch he) l
  | .letBinding .. | .definition .. | .discard .. | .strayParam _ | .strayType _
  | .strayProgram .. =>
    intro p env other inner _
    rw [infer, infer]
    · exact tracks_throw (.notExpression _)
    all_goals simp

/-- Two runs on a statement that start alike end alike, if no name that it refers to is hidden. -/
theorem pacedChecked (hr : rules.Proper) (e : Term) (hv : ∀ x ∈ e.identifiers, ¬ w.hidden x) :
    PacedChecked w root root' rules e := by
  match e with
  | .discard value l => exact paced_discard (paced hr value hv) l
  | .letBinding x value none l => exact paced_let (paced hr value hv) x l
  | .letBinding x value (some ascription) l =>
    exact paced_ascribed (paced hr value hv) x ascription l
  | .definition f params returns body l =>
    exact paced_definition (paced hr body hv) f params returns l
  | .number .. | .boolean .. | .name .. | .binary .. | .call .. | .lambda .. | .block ..
  | .conditional .. | .strayParam _ | .strayType _ | .strayProgram .. =>
    intro p env other inner _
    rw [check, check]
    · exact tracks_throw (.notStatement _)
    all_goals simp

theorem pacedAll (hr : rules.Proper) (es : List Term)
    (hv : ∀ x ∈ Term.identifiersAll es, ¬ w.hidden x) :
    ∀ e ∈ es, Paced w root root' rules e := by
  match es with
  | [] => simp
  | e :: es =>
    obtain ⟨he, hes⟩ := List.forall_mem_append.1 hv
    exact List.forall_mem_cons.2 ⟨paced hr e he, pacedAll hr es hes⟩

theorem pacedCheckedAll (hr : rules.Proper) (es : List Term)
    (hv : ∀ x ∈ Term.identifiersAll es, ¬ w.hidden x) :
    ∀ e ∈ es, PacedChecked w root root' rules e := by
  match es with
  | [] => simp
  | e :: es =>
    obtain ⟨he, hes⟩ := List.forall_mem_append.1 hv
    exact List.forall_mem_cons.2 ⟨pacedChecked hr e he, pacedCheckedAll hr es hes⟩

end

end Infer

end LetPoly
