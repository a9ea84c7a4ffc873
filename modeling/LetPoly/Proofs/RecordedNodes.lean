-- The laws of the record of types. What inference accepts it puts on record node by
-- node: each expression, parameter and statement of the tree once, and nothing else.
-- The nodes of a tree stand at different positions, so a position finds at most one
-- entry of the record.
import LetPoly.Check
import LetPoly.Proofs.InferenceSound
import LetPoly.Term.Walk

namespace LetPoly

/-! ## Positions in trees -/

/-- Positions are different from one another and lead on from the given one. -/
structure Rooted (position : Position) (ps : List Position) : Prop where
  nodup : ps.Nodup
  within : ∀ p ∈ ps, position <:+ p

/-- Positions are different from one another and lead on from the given slots of a node. -/
structure Branches (position : Position) (low high : Nat) (ps : List Position) : Prop where
  nodup : ps.Nodup
  within : ∀ p ∈ ps, ∃ slot, low ≤ slot ∧ slot < high ∧ (slot :: position) <:+ p

theorem slot_unique {position p : Position} {i j : Nat} (hi : (i :: position) <:+ p)
    (hj : (j :: position) <:+ p) : i = j := by
  have h := List.suffix_of_suffix_length_le hi hj (by simp)
  exact (List.cons.inj (h.eq_of_length (by simp))).1

section

variable {position : Position} {low middle high slot : Nat} {ps qs : List Position}

theorem branches_nil (position : Position) (low high : Nat) : Branches position low high [] :=
  ⟨List.nodup_nil, by simp⟩

theorem Rooted.branch (h : Rooted (slot :: position) ps) :
    Branches position slot (slot + 1) ps :=
  ⟨h.nodup, fun p hp => ⟨slot, Nat.le_refl _, Nat.lt_succ_self _, h.within p hp⟩⟩

theorem Branches.append (h : Branches position low middle ps)
    (h' : Branches position middle high qs) (hl : low ≤ middle) (hh : middle ≤ high) :
    Branches position low high (ps ++ qs) := by
  refine ⟨List.nodup_append.2 ⟨h.nodup, h'.nodup, ?_⟩, fun p hp => ?_⟩
  · rintro p hp _ hq rfl
    obtain ⟨i, -, hi, hsuf⟩ := h.within p hp
    obtain ⟨j, hj, -, hsuf'⟩ := h'.within p hq
    have := slot_unique hsuf hsuf'
    omega
  · rcases List.mem_append.1 hp with hp | hp
    · obtain ⟨i, h1, h2, hsuf⟩ := h.within p hp
      exact ⟨i, h1, by omega, hsuf⟩
    · obtain ⟨i, h1, h2, hsuf⟩ := h'.within p hp
      exact ⟨i, by omega, h2, hsuf⟩

theorem Branches.node (h : Branches position low high ps) : Rooted position (position :: ps) := by
  refine ⟨List.nodup_cons.2 ⟨fun hp => ?_, h.nodup⟩, fun p hp => ?_⟩
  · obtain ⟨i, -, -, hsuf⟩ := h.within position hp
    have := hsuf.length_le
    rw [List.length_cons] at this
    omega
  · rcases List.mem_cons.1 hp with rfl | hp
    · exact List.suffix_rfl
    · obtain ⟨i, -, -, hsuf⟩ := h.within p hp
      exact (List.suffix_cons i position).trans hsuf

theorem rooted_leaf (position : Position) : Rooted position [position] :=
  (branches_nil position 0 0).node

end

/-- The positions of the nodes met on a walk. -/
def positions (visits : List Visit) : List Position := visits.map (·.site.position)

@[simp] theorem positions_nil : positions [] = [] := rfl

@[simp] theorem positions_cons (v : Visit) (vs : List Visit) :
    positions (v :: vs) = v.site.position :: positions vs := rfl

@[simp] theorem positions_append (vs ws : List Visit) :
    positions (vs ++ ws) = positions vs ++ positions ws := by
  simp [positions]

namespace TypeExpr

mutual

theorem rooted_walk (position : Position) (t : TypeExpr) :
    Rooted position (positions (t.walk position)) := by
  match t with
  | named n l => exact rooted_leaf position
  | quoted n l => exact rooted_leaf position
  | arrow params result l =>
    rw [walk, positions_cons, positions_append]
    exact ((branches_walkAll position params (Nat.zero_add _)).append
      (rooted_walk _ result).branch (by omega) (by omega)).node

theorem branches_walkAll (position : Position) {slot high : Nat} (ts : List TypeExpr)
    (h : slot + ts.length = high) :
    Branches position slot high (positions (walkAll position slot ts)) := by
  match ts with
  | [] => exact branches_nil position slot high
  | t :: more =>
    rw [List.length_cons] at h
    rw [walkAll, positions_append]
    exact (rooted_walk _ t).branch.append (branches_walkAll position more (by omega)) (by omega)
      (by omega)

end

theorem branches_walkOption (position : Position) (slot : Nat) (t : Option TypeExpr) :
    Branches position slot (slot + 1) (positions (walkOption (slot :: position) t)) := by
  cases t with
  | none => exact branches_nil position slot (slot + 1)
  | some t => exact (rooted_walk (slot :: position) t).branch

end TypeExpr

theorem Param.branches_walkAll (position : Position) {slot high : Nat} (params : List Param)
    (h : slot + params.length = high) :
    Branches position slot high (positions (walkAll position slot params)) := by
  induction params generalizing slot with
  | nil => exact branches_nil position slot high
  | cons p more ih =>
    rw [List.length_cons] at h
    rw [walkAll, positions_append]
    exact (TypeExpr.branches_walkOption _ 0 p.ascription).node.branch.append (ih (by omega))
      (by omega) (by omega)

namespace Term

mutual

/-- The nodes of a tree stand at different positions. -/
theorem rooted_walk (position : Position) (e : Term) :
    Rooted position (positions (e.walk position)) := by
  match e with
  | number v l => exact rooted_leaf position
  | boolean v l => exact rooted_leaf position
  | name n l => exact rooted_leaf position
  | binary left op right l =>
    rw [walk, positions_cons, positions_append]
    exact ((rooted_walk _ left).branch.append (rooted_walk _ right).branch (by omega)
      (by omega)).node
  | call callee arguments l =>
    rw [walk, positions_cons, positions_append]
    exact ((rooted_walk _ callee).branch.append (branches_walkAll position arguments rfl) (by omega)
      (by omega)).node
  | lambda params body l =>
    rw [walk, positions_cons, positions_append]
    exact ((Param.branches_walkAll position params (Nat.zero_add _)).append
      (rooted_walk _ body).branch (by omega) (by omega)).node
  | block statements result l =>
    rw [walk, positions_cons, positions_append]
    exact ((branches_walkAll position statements (Nat.zero_add _)).append
      (branches_walkOption position _ result) (by omega) (by omega)).node
  | conditional condition thenBranch elseBranch l =>
    rw [walk, positions_cons, positions_append, positions_append]
    exact (((rooted_walk _ condition).branch.append (rooted_walk _ thenBranch).branch (by omega)
      (by omega)).append (rooted_walk _ elseBranch).branch (by omega) (by omega)).node
  | letBinding x value ascription l =>
    rw [walk, positions_cons, positions_append]
    exact ((rooted_walk _ value).branch.append (TypeExpr.branches_walkOption position 1 ascription)
      (by omega) (by omega)).node
  | definition f params returns body l =>
    rw [walk, positions_cons, positions_append, positions_append]
    exact (((Param.branches_walkAll position params (Nat.zero_add _)).append
      (TypeExpr.branches_walkOption position _ returns) (by omega) (by omega)).append
      (rooted_walk _ body).branch (by omega) (by omega)).node
  | discard expression l =>
    rw [walk, positions_cons]
    exact (rooted_walk _ expression).branch.node
  | strayParam p => exact (TypeExpr.branches_walkOption position 0 p.ascription).node
  | strayType t => exact TypeExpr.rooted_walk position t
  | strayProgram statements result l =>
    rw [walk, positions_cons, positions_append]
    exact ((branches_walkAll position statements (Nat.zero_add _)).append
      (branches_walkOption position _ result) (by omega) (by omega)).node

theorem branches_walkAll (position : Position) {slot high : Nat} (es : List Term)
    (h : slot + es.length = high) :
    Branches position slot high (positions (walkAll position slot es)) := by
  match es with
  | [] => exact branches_nil position slot high
  | e :: more =>
    rw [List.length_cons] at h
    rw [walkAll, positions_append]
    exact (rooted_walk _ e).branch.append (branches_walkAll position more (by omega)) (by omega)
      (by omega)

theorem branches_walkOption (position : Position) (slot : Nat) (e : Option Term) :
    Branches position slot (slot + 1) (positions (walkOption (slot :: position) e)) := by
  match e with
  | none => exact branches_nil position slot (slot + 1)
  | some e => exact (rooted_walk (slot :: position) e).branch

end

theorem mem_walkAll {position : Position} {slot : Nat} {es : List Term} {v : Visit} :
    v ∈ walkAll position slot es ↔
      ∃ (i : Nat) (e : Term), es[i]? = some e ∧ v ∈ e.walk ((slot + i) :: position) := by
  induction es generalizing slot with
  | nil => simp [walkAll]
  | cons e es ih =>
    rw [walkAll, List.mem_append, ih]
    constructor
    · rintro (hv | ⟨i, e', he, hv⟩)
      · exact ⟨0, e, rfl, hv⟩
      · exact ⟨i + 1, e', he, by rwa [show slot + (i + 1) = slot + 1 + i by omega]⟩
    · rintro ⟨i, e', he, hv⟩
      cases i with
      | zero =>
        cases he
        exact .inl hv
      | succ i => exact .inr ⟨i, e', he, by rwa [show slot + 1 + i = slot + (i + 1) by omega]⟩

/-- Statements and an optional last expression fill the slots one after the other. -/
theorem walkAll_append_toList (position : Position) (slot : Nat) (es : List Term)
    (result : Option Term) :
    walkAll position slot (es ++ result.toList) =
      walkAll position slot es ++ walkOption ((slot + es.length) :: position) result := by
  induction es generalizing slot with
  | nil =>
    cases result with
    | none => rfl
    | some e => simp [walkAll, walkOption]
  | cons e es ih =>
    rw [List.cons_append, walkAll, walkAll, ih, List.append_assoc, List.length_cons,
      show slot + (es.length + 1) = slot + 1 + es.length by omega]

end Term

/-! ## Nodes that get a type -/

/-- Nodes of this kind get a type: expressions, parameters and statements. -/
def Kind.typed : Kind → Bool
  | namedType | quotedType | arrowType | program => false
  | _ => true

/-- The nodes met on a walk that get a type. -/
def typedSites (visits : List Visit) : List Site :=
  (visits.map Visit.site).filter (·.kind.typed)

@[simp] theorem typedSites_nil : typedSites [] = [] := rfl

@[simp] theorem typedSites_append (vs ws : List Visit) :
    typedSites (vs ++ ws) = typedSites vs ++ typedSites ws := by
  simp [typedSites]

theorem typedSites_cons {v : Visit} (h : v.site.kind.typed = true) (vs : List Visit) :
    typedSites (v :: vs) = v.site :: typedSites vs := by
  simp [typedSites, h]

theorem typedSites_cons_untyped {v : Visit} (h : v.site.kind.typed = false) (vs : List Visit) :
    typedSites (v :: vs) = typedSites vs := by
  simp [typedSites, h]

theorem nodup_typedSites {visits : List Visit} (h : (positions visits).Nodup) :
    ((typedSites visits).map (·.position)).Nodup := by
  have hsub : ((typedSites visits).map (·.position)).Sublist (positions visits) := by
    have hpos : positions visits = (visits.map Visit.site).map (·.position) := by
      simp [positions, Function.comp_def]
    rw [hpos]
    exact List.filter_sublist.map _
  exact hsub.nodup h

namespace TypeExpr

mutual

@[simp] theorem typedSites_walk (position : Position) (t : TypeExpr) :
    typedSites (t.walk position) = [] := by
  match t with
  | named n l => rfl
  | quoted n l => rfl
  | arrow params result l =>
    rw [walk, typedSites_cons_untyped rfl, typedSites_append, typedSites_walkAll, typedSites_walk]
    rfl

theorem typedSites_walkAll (position : Position) (slot : Nat) (ts : List TypeExpr) :
    typedSites (walkAll position slot ts) = [] := by
  match ts with
  | [] => rfl
  | t :: more => rw [walkAll, typedSites_append, typedSites_walk, typedSites_walkAll]; rfl

end

@[simp] theorem typedSites_walkOption (position : Position) (t : Option TypeExpr) :
    typedSites (walkOption position t) = [] := by
  cases t with
  | none => rfl
  | some t => exact typedSites_walk position t

end TypeExpr

theorem Param.typedSites_walk (position : Position) (p : Param) :
    typedSites (p.walk position) = [p.site position] := by
  rw [walk, typedSites_cons rfl, TypeExpr.typedSites_walkOption]

/-! ## The record of a step -/

/-- The next unused variable and the types on record. -/
def InferState.trace (s : InferState) : Int × List (Site × Ty) := (s.next, s.types)

namespace Infer

variable {α β : Type} {x : Infer α} {k : α → Infer β}

/-- A step puts no type on record. -/
def Quiet (x : Infer α) : Prop :=
  ∀ r, Leads InferState.types x r (fun _ r' => r' = r) fun _ => True

theorem Quiet.leads (hq : Quiet x) {n : Int} {P : α → Int → Prop} {E : InferFailure → Prop}
    (hx : Leads InferState.next x n P E) (r : List (Site × Ty)) :
    Leads InferState.trace x (n, r) (fun a m => P a m.1 ∧ m.2 = r) E := by
  intro s hs
  obtain ⟨rfl, rfl⟩ := Prod.mk.inj hs
  have h := hx s rfl
  have h' := hq _ s rfl
  rcases hr : x s with ⟨a, s'⟩ | ⟨e, s'⟩
  · rw [hr] at h h'
    exact ⟨h, h'⟩
  · rw [hr] at h
    exact h

theorem Quiet.returns (hq : Quiet x) {n n' : Int} {a : α}
    (hx : Returns InferState.next x n a n') (r : List (Site × Ty)) :
    Returns InferState.trace x (n, r) a (n', r) := by
  intro s hs
  obtain ⟨rfl, rfl⟩ := Prod.mk.inj hs
  obtain ⟨s', he, rfl⟩ := hx s rfl
  have h := hq _ s rfl
  rw [he] at h
  exact ⟨s', he, Prod.ext rfl h⟩

theorem leads_trace {n : Int} {P : α → Int → Prop} {E : InferFailure → Prop}
    (hx : Leads InferState.next x n P E) (r : List (Site × Ty)) :
    Leads InferState.trace x (n, r) (fun a m => P a m.1) E := by
  intro s hs
  obtain ⟨rfl, rfl⟩ := Prod.mk.inj hs
  exact hx s rfl

theorem quiet_pure (a : α) : Quiet (pure a : Infer α) := fun _ => leads_pure rfl

theorem quiet_throw (e : InferFailure) : Quiet (throw e : Infer α) := fun _ => leads_throw trivial

theorem Quiet.bind (hx : Quiet x) (hk : ∀ a, Quiet (k a)) : Quiet (x >>= k) := by
  intro r
  refine (hx r).bind ?_
  rintro a _ rfl
  exact hk a _

theorem types_noteAll (events : List Event) (s : InferState) :
    InferState.types ⟨s.next, s.journal ++ events⟩ = s.types ++ events.filterMap Event.typed? := by
  simp [InferState.types]

theorem quiet_noteAll {events : List Event} (h : ∀ e ∈ events, e.typed? = none) :
    Quiet (noteAll events) := by
  rintro r s rfl
  have hnone : events.filterMap Event.typed? = [] := by simpa using h
  exact (types_noteAll events s).trans (by rw [hnone, List.append_nil])

theorem quiet_orCyclic (o : Option α) : Quiet (orCyclic o) := by
  cases o with
  | none => exact quiet_throw _
  | some a => exact quiet_pure a

theorem quiet_fresh : Quiet fresh := by
  rintro r s rfl
  rfl

theorem quiet_freshMany (n : Nat) : Quiet (freshMany n) := by
  induction n with
  | zero => exact quiet_pure []
  | succ n ih => exact quiet_fresh.bind fun t => ih.bind fun ts => quiet_pure _

theorem quiet_instantiate (scheme : Scheme) : Quiet (instantiate scheme) := by
  rintro r s rfl
  exact quiet_orCyclic _ s.types { s with next := (scheme.instantiate? s.next).2 } rfl

theorem quiet_reading (step : Naming.Step α) : Quiet (reading step) := by
  rintro r s rfl
  unfold reading
  rcases step ⟨s.next, Table.empty⟩ with ⟨a, naming⟩ | ⟨e, naming⟩
  · rfl
  · trivial

theorem quiet_unifyOr (expected actual : Ty) (blame : Clash → InferFailure) :
    Quiet (unifyOr expected actual blame) := by
  refine (quiet_noteAll fun e he => ?_).bind fun _ => ?_
  · obtain ⟨equation, -, rfl⟩ := List.mem_map.1 he
    rfl
  · rcases unify expected actual with clash | s
    · exact quiet_throw _
    · exact quiet_pure s

theorem quiet_bound (word : Keyword) (x : String) (scheme : Scheme) :
    Quiet (note (.bound word x scheme)) :=
  quiet_noteAll (by simp [Event.typed?])

/-- A step that gives an answer puts the types of just the given nodes on record, after what was
there before. -/
def Records (x : Infer α) (sites : List Site) : Prop :=
  ∀ m, Leads InferState.trace x m
    (fun _ m' => ∃ news, m'.2 = m.2 ++ news ∧ (news.map (·.1)).Perm sites) fun _ => True

theorem ensures_true (x : Infer α) (n : Int) : Ensures x n fun _ _ => True := by
  intro s _
  rcases x s with ⟨a, s'⟩ | ⟨e, s'⟩ <;> trivial

theorem records_pure (a : α) : Records (pure a : Infer α) [] :=
  fun _ => leads_pure ⟨[], by simp, .refl _⟩

theorem Quiet.records (h : Quiet x) : Records x [] := by
  rintro ⟨n, r⟩
  exact (h.leads (ensures_true x n) r).imp fun _ _ hm => ⟨[], by simp [hm.2], .refl _⟩

theorem records_throw (e : InferFailure) (sites : List Site) :
    Records (throw e : Infer α) sites :=
  fun _ => leads_throw trivial

theorem Records.perm {sites sites' : List Site} (h : Records x sites) (hp : sites.Perm sites') :
    Records x sites' :=
  fun m => (h m).imp fun _ _ ⟨news, hm, hn⟩ => ⟨news, hm, hn.trans hp⟩

theorem Records.bind {sites sites' : List Site} (hx : Records x sites)
    (hk : ∀ a, Records (k a) sites') : Records (x >>= k) (sites ++ sites') := by
  intro m
  refine (hx m).bind ?_
  rintro a m₁ ⟨news, hm, hn⟩
  refine (hk a m₁).imp ?_
  rintro b m₂ ⟨news', hm', hn'⟩
  exact ⟨news ++ news', by rw [hm', hm, List.append_assoc], by simpa using hn.append hn'⟩

/-- A step that puts nothing on record, and an answer of it that has the given property. -/
theorem Quiet.records_bind_of {sites : List Site} {Q : α → Prop} (hx : Quiet x)
    (hQ : ∀ n, Ensures x n fun a _ => Q a) (hk : ∀ a, Q a → Records (k a) sites) :
    Records (x >>= k) sites := by
  rintro ⟨n, r⟩
  refine (hx.leads (hQ n) r).bind ?_
  rintro a ⟨n', _⟩ ⟨ha, rfl⟩
  exact hk a ha (n', _)

theorem Quiet.records_bind {sites : List Site} (hx : Quiet x) (hk : ∀ a, Records (k a) sites) :
    Records (x >>= k) sites :=
  hx.records_bind_of (ensures_true x) fun a _ => hk a

/-- A node is put on record after the nodes below it. -/
theorem Records.last {site : Site} {sites : List Site} (h : Records x (sites ++ [site])) :
    Records x (site :: sites) :=
  h.perm (List.perm_append_singleton site sites)

theorem records_note (site : Site) (t : Ty) : Records (note (.typed site t)) [site] := by
  rintro m s rfl
  exact ⟨[(site, t)], types_noteAll [.typed site t] s, .refl _⟩

theorem records_conclude (site : Site) (s : Subst) (t : Ty) :
    Records (conclude site s t) [site] :=
  (records_note site t).bind fun _ => records_pure _

theorem records_noteParams (position : Position) (slot : Nat) {params : List Param}
    {types : List Ty} (h : params.length = types.length) :
    Records (noteParams position slot params types)
      (typedSites (Param.walkAll position slot params)) := by
  induction params generalizing slot types with
  | nil => exact records_pure ()
  | cons p params ih =>
    cases types with
    | nil => cases h
    | cons t types =>
      rw [Param.walkAll, typedSites_append, Param.typedSites_walk]
      exact (records_note _ t).bind fun _ => ih (slot + 1) (Nat.succ.inj h)

/-! ## The record of a tree -/

variable {rules : Rules}

/-- An expression that gets a type has all its nodes put on record. -/
def Kept (rules : Rules) (e : Term) : Prop :=
  ∀ env position, Records (infer rules e env position) (typedSites (e.walk position))

/-- A statement that is accepted has all its nodes put on record. -/
def KeptChecked (rules : Rules) (e : Term) : Prop :=
  ∀ env position, Records (check rules e env position) (typedSites (e.walk position))

theorem records_argument {e : Term} (he : Kept rules e) (position : Position) (site : Site)
    (param : Ty) (s : Subst) (env : Env) :
    Records (argument (fun env => infer rules e env position) site param s env)
      (typedSites (e.walk position)) := by
  rw [← List.append_nil (typedSites _)]
  refine (quiet_orCyclic _).records_bind fun inner => (he inner position).bind fun answer => ?_
  refine (quiet_orCyclic _).records_bind fun s => (quiet_orCyclic _).records_bind fun t => ?_
  exact (quiet_unifyOr _ _ _).records_bind fun s' => (quiet_orCyclic _).records

theorem records_inferAll {es : List Term} (hes : ∀ e ∈ es, Kept rules e) {params : List Ty}
    (h : params.length = es.length) (s : Subst) (env : Env) (position : Position) (slot : Nat) :
    Records (inferAll rules es params s env position slot)
      (typedSites (Term.walkAll position slot es)) := by
  induction es generalizing params s slot with
  | nil =>
    obtain rfl := List.eq_nil_of_length_eq_zero h
    rw [inferAll]
    · exact records_pure s
    · simp
  | cons e es ih =>
    obtain ⟨param, params, rfl⟩ := List.exists_cons_of_length_eq_add_one h
    rw [inferAll, Term.walkAll, typedSites_append]
    refine (records_argument (hes e (by simp)) _ _ _ _ _).bind fun s => ?_
    exact ih (fun e he => hes e (by simp [he])) (by simpa using h) s (slot + 1)

theorem records_checkAll {es : List Term} (hes : ∀ e ∈ es, KeptChecked rules e) (env : Env)
    (position : Position) (slot : Nat) (s : Subst) :
    Records (checkAll rules es env position slot s)
      (typedSites (Term.walkAll position slot es)) := by
  induction es generalizing env slot s with
  | nil => exact records_pure _
  | cons e es ih =>
    rw [checkAll, Term.walkAll, typedSites_append]
    refine (hes e (by simp) _ _).bind fun answer => ?_
    refine (quiet_orCyclic _).records_bind fun s => ?_
    exact ih (fun e he => hes e (by simp [he])) _ _ s

theorem kept_number (k : Int) (l : Option Location) : Kept rules (.number k l) := by
  intro env position
  rw [infer]
  exact records_conclude _ _ _

theorem kept_boolean (b : Bool) (l : Option Location) : Kept rules (.boolean b l) := by
  intro env position
  rw [infer]
  exact records_conclude _ _ _

theorem kept_name (x : String) (l : Option Location) : Kept rules (.name x l) := by
  intro env position
  rw [infer]
  rcases env.get? x with _ | scheme
  · exact records_throw _ _
  · exact (quiet_instantiate scheme).records_bind fun t => records_conclude _ _ t

theorem kept_binary (hr : rules.Proper) {left right : Term} (hleft : Kept rules left)
    (hright : Kept rules right) (operator : String) (l : Option Location) :
    Kept rules (.binary left operator right l) := by
  intro env position
  rw [infer]
  rcases hop : rules.operators.get? operator with _ | scheme
  · exact records_throw _ _
  refine (quiet_instantiate scheme).records_bind_of
    (Q := fun t => ∃ a b r, t = .fn [a, b] r) (fun n => ?_) ?_
  · obtain ⟨a, b, r, -, hreturns, -⟩ := exists_operator hr hop n
    exact hreturns.leads ⟨a, b, r, rfl⟩
  rintro _ ⟨a, b, r, rfl⟩
  rw [Term.walk, typedSites_cons rfl, typedSites_append]
  refine Records.last ?_
  rw [List.append_assoc]
  refine (records_argument hleft _ _ _ _ _).bind fun s => ?_
  refine (records_argument hright _ _ _ _ _).bind fun s => ?_
  exact (quiet_orCyclic _).records_bind fun t => records_conclude _ s t

theorem kept_call {callee : Term} (hcallee : Kept rules callee) {arguments : List Term}
    (harguments : ∀ e ∈ arguments, Kept rules e) (l : Option Location) :
    Kept rules (.call callee arguments l) := by
  intro env position
  rw [infer, Term.walk, typedSites_cons rfl, typedSites_append]
  refine Records.last ?_
  rw [List.append_assoc]
  refine (hcallee env (0 :: position)).bind fun answer => ?_
  refine (quiet_freshMany _).records_bind_of (Q := fun ts => ts.length = arguments.length)
    (fun n => (returns_freshMany _).leads (length_freshVars _ _)) fun params hlen => ?_
  refine quiet_fresh.records_bind fun result => (quiet_unifyOr _ _ _).records_bind fun s => ?_
  refine (quiet_orCyclic _).records_bind fun s => ?_
  refine (records_inferAll harguments hlen s env position 1).bind fun s => ?_
  exact (quiet_orCyclic _).records_bind fun t => records_conclude _ s t

theorem kept_lambda {body : Term} (hbody : Kept rules body) (params : List Param)
    (l : Option Location) : Kept rules (.lambda params body l) := by
  intro env position
  rw [infer, Term.walk, typedSites_cons rfl, typedSites_append]
  refine Records.last ?_
  rw [List.append_assoc]
  refine (quiet_reading _).records_bind_of (Q := fun types => params.length = types.length)
    (fun n => ?_) fun types hlen => ?_
  · refine (settles_reading fun hm hw =>
      Param.leads_resolveAll hm hw params position 0).anyway.imp ?_
    rintro types n' ⟨-, names, hallow⟩
    exact hallow.length_eq
  refine (records_noteParams position 0 hlen).bind fun _ => ?_
  refine (hbody _ _).bind fun answer => ?_
  exact (quiet_orCyclic _).records_bind fun types => records_conclude _ _ _

theorem kept_unit {statements : List Term} (hs : ∀ e ∈ statements, KeptChecked rules e)
    (l : Option Location) : Kept rules (.block statements none l) := by
  intro env position
  rw [infer, Term.walk, typedSites_cons rfl, Term.walkOption, List.append_nil]
  refine Records.last ?_
  exact (records_checkAll hs env position 0 _).bind fun answer => records_conclude _ _ _

theorem kept_block {statements : List Term} (hs : ∀ e ∈ statements, KeptChecked rules e)
    {result : Term} (hresult : Kept rules result) (l : Option Location) :
    Kept rules (.block statements (some result) l) := by
  intro env position
  rw [infer, Term.walk, typedSites_cons rfl, typedSites_append, Term.walkOption]
  refine Records.last ?_
  rw [List.append_assoc]
  refine (records_checkAll hs env position 0 _).bind fun answer => ?_
  refine (hresult _ _).bind fun answer => ?_
  exact (quiet_orCyclic _).records_bind fun s => records_conclude _ _ _

theorem kept_conditional {condition thenBranch elseBranch : Term} (hcond : Kept rules condition)
    (hthen : Kept rules thenBranch) (helse : Kept rules elseBranch) (l : Option Location) :
    Kept rules (.conditional condition thenBranch elseBranch l) := by
  intro env position
  rw [infer, Term.walk, typedSites_cons rfl, typedSites_append, typedSites_append]
  refine Records.last ?_
  rw [List.append_assoc, List.append_assoc]
  refine (hcond _ _).bind fun answer => (quiet_unifyOr _ _ _).records_bind fun s => ?_
  refine (quiet_orCyclic _).records_bind fun s => (quiet_orCyclic _).records_bind fun env => ?_
  refine (hthen _ _).bind fun answer => (quiet_orCyclic _).records_bind fun s => ?_
  refine (quiet_orCyclic _).records_bind fun env => (helse _ _).bind fun answer => ?_
  refine (quiet_orCyclic _).records_bind fun s => (quiet_orCyclic _).records_bind fun t => ?_
  refine (quiet_unifyOr _ _ _).records_bind fun s => (quiet_orCyclic _).records_bind fun s => ?_
  exact (quiet_orCyclic _).records_bind fun t => records_conclude _ _ _

theorem kept_discard {value : Term} (hvalue : Kept rules value) (l : Option Location) :
    KeptChecked rules (.discard value l) := by
  intro env position
  rw [check, Term.walk, typedSites_cons rfl]
  refine Records.last ((hvalue _ _).bind fun answer => ?_)
  rw [← List.append_nil [_]]
  refine (records_note _ _).bind fun _ => (quiet_orCyclic _).records_bind fun env => ?_
  exact records_pure _

/-- The entries that a binding makes last: its own type, and the name in the log. -/
theorem records_binding (site : Site) (t : Ty) (word : Keyword) (x : String) (scheme : Scheme)
    (answer : Subst × Env) :
    Records (do note (.typed site t); note (.bound word x scheme); pure answer) [site] :=
  (records_note site t).bind fun _ => (quiet_bound word x scheme).records_bind fun _ =>
    records_pure answer

theorem kept_let {value : Term} (hvalue : Kept rules value) (x : String) (l : Option Location) :
    KeptChecked rules (.letBinding x value none l) := by
  intro env position
  rw [check, Term.walk, typedSites_cons rfl, TypeExpr.walkOption, List.append_nil]
  refine Records.last ((hvalue _ _).bind fun answer => ?_)
  exact (quiet_orCyclic _).records_bind fun outer => records_binding _ _ _ _ _ _

theorem kept_ascribed {value : Term} (hvalue : Kept rules value) (x : String)
    (ascription : TypeExpr) (l : Option Location) :
    KeptChecked rules (.letBinding x value (some ascription) l) := by
  intro env position
  rw [check, Term.walk, typedSites_cons rfl, typedSites_append, TypeExpr.typedSites_walkOption,
    List.append_nil]
  refine Records.last ((hvalue _ _).bind fun answer => ?_)
  refine (quiet_reading _).records_bind fun declared => ?_
  refine (quiet_unifyOr _ _ _).records_bind fun s => (quiet_orCyclic _).records_bind fun s => ?_
  refine (quiet_orCyclic _).records_bind fun t => (quiet_orCyclic _).records_bind fun outer => ?_
  exact records_binding _ _ _ _ _ _

theorem kept_definition {body : Term} (hbody : Kept rules body) (f : String)
    (params : List Param) (returns : Option TypeExpr) (l : Option Location) :
    KeptChecked rules (.definition f params returns body l) := by
  intro env position
  rw [check, Term.walk, typedSites_cons rfl, typedSites_append, typedSites_append,
    TypeExpr.typedSites_walkOption, List.append_nil]
  refine Records.last ?_
  rw [List.append_assoc]
  refine (quiet_reading _).records_bind_of (Q := fun answer => params.length = answer.1.length)
    (fun n => ?_) fun answer hlen => ?_
  · refine (settles_reading fun hm hw =>
      Param.leads_signature hm hw params returns position).anyway.imp ?_
    rintro answer n' ⟨-, names, hallow, -⟩
    exact hallow.length_eq
  refine (records_noteParams position 0 hlen).bind fun _ => (hbody _ _).bind fun answer => ?_
  refine (quiet_orCyclic _).records_bind fun declared => ?_
  refine (quiet_unifyOr _ _ _).records_bind fun s => ?_
  refine (quiet_orCyclic _).records_bind fun s => (quiet_orCyclic _).records_bind fun outer => ?_
  exact (quiet_orCyclic _).records_bind fun final => records_binding _ _ _ _ _ _

mutual

/-- Whatever expression gets a type has just its typed nodes put on record. -/
theorem kept (hr : rules.Proper) (e : Term) : Kept rules e := by
  match e with
  | .number k l => exact kept_number k l
  | .boolean b l => exact kept_boolean b l
  | .name x l => exact kept_name x l
  | .binary left operator right l => exact kept_binary hr (kept hr left) (kept hr right) operator l
  | .call callee arguments l => exact kept_call (kept hr callee) (keptAll hr arguments) l
  | .lambda params body l => exact kept_lambda (kept hr body) params l
  | .block statements none l => exact kept_unit (keptCheckedAll hr statements) l
  | .block statements (some result) l =>
    exact kept_block (keptCheckedAll hr statements) (kept hr result) l
  | .conditional condition thenBranch elseBranch l =>
    exact kept_conditional (kept hr condition) (kept hr thenBranch) (kept hr elseBranch) l
  | .letBinding .. | .definition .. | .discard .. | .strayParam _ | .strayType _
  | .strayProgram .. =>
    intro env position
    rw [infer]
    · exact records_throw _ _
    all_goals simp

/-- Whatever statement is accepted has just its typed nodes put on record. -/
theorem keptChecked (hr : rules.Proper) (e : Term) : KeptChecked rules e := by
  match e with
  | .discard value l => exact kept_discard (kept hr value) l
  | .letBinding x value none l => exact kept_let (kept hr value) x l
  | .letBinding x value (some ascription) l => exact kept_ascribed (kept hr value) x ascription l
  | .definition f params returns body l => exact kept_definition (kept hr body) f params returns l
  | .number .. | .boolean .. | .name .. | .binary .. | .call .. | .lambda .. | .block ..
  | .conditional .. | .strayParam _ | .strayType _ | .strayProgram .. =>
    intro env position
    rw [check]
    · exact records_throw _ _
    all_goals simp

theorem keptAll (hr : rules.Proper) (es : List Term) : ∀ e ∈ es, Kept rules e := by
  match es with
  | [] => simp
  | e :: es => exact List.forall_mem_cons.2 ⟨kept hr e, keptAll hr es⟩

theorem keptCheckedAll (hr : rules.Proper) (es : List Term) : ∀ e ∈ es, KeptChecked rules e := by
  match es with
  | [] => simp
  | e :: es => exact List.forall_mem_cons.2 ⟨keptChecked hr e, keptCheckedAll hr es⟩

end

end Infer

end LetPoly
