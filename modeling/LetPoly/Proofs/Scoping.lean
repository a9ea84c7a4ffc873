-- Names and their binders. A name belongs to the innermost binder of that name that it
-- can see: a `let` is not seen in its own value, a definition is seen in its own body,
-- and of two parameters with one name the last one counts. A binder can be given another
-- name together with the names that belong to it; the program that comes out is the same
-- up to names, in a sense that does not tell the one program from the other.
import LetPoly.Proofs.Placement
import LetPoly.Proofs.RecordedNodes
import LetPoly.Proofs.TwinRuns

namespace LetPoly

/-! ## Binders -/

/-- The parameters in the slots from `slot` on, as binders. -/
def Param.binders (position : Position) (slot : Nat) : List Param → List (Position × String)
  | [] => []
  | p :: more => (slot :: position, p.name) :: Param.binders position (slot + 1) more

namespace Term

mutual

/-- The nodes of a term that bind a name, and the names. -/
def binders (position : Position) : Term → List (Position × String)
  | number .. | boolean .. | name .. | strayParam _ | strayType _ | strayProgram .. => []
  | binary left _ right _ => left.binders (0 :: position) ++ right.binders (1 :: position)
  | call callee arguments _ => callee.binders (0 :: position) ++ bindersAll position 1 arguments
  | lambda params body _ =>
    Param.binders position 0 params ++ body.binders (params.length :: position)
  | block statements none _ => bindersAll position 0 statements
  | block statements (some result) _ =>
    bindersAll position 0 statements ++ result.binders (statements.length :: position)
  | conditional condition thenBranch elseBranch _ =>
    condition.binders (0 :: position) ++ thenBranch.binders (1 :: position) ++
      elseBranch.binders (2 :: position)
  | letBinding x value _ _ => (position, x) :: value.binders (0 :: position)
  | definition f params _ body _ =>
    (position, f) :: (Param.binders position 0 params ++
      body.binders ((params.length + 1) :: position))
  | discard expression _ => expression.binders (0 :: position)

/-- The binders of the terms in the slots from `slot` on. -/
def bindersAll (position : Position) (slot : Nat) : List Term → List (Position × String)
  | [] => []
  | e :: more => e.binders (slot :: position) ++ bindersAll position (slot + 1) more

end

end Term

/-- The binders of a program. -/
def Program.binders (p : Program) : List (Position × String) :=
  (Term.block p.statements p.result p.location).binders []

/-! ## Another name for a binder -/

/-- A name for the binder at a position. -/
structure Rename where
  target : Position
  name : String

namespace Rename

/-- What the binder of a name at a position is called then. -/
def apply (r : Rename) (position : Position) (x : String) : String :=
  if position = r.target then r.name else x

/-- The parameters in the slots from `slot` on, as they are called then. -/
def params (r : Rename) (position : Position) (slot : Nat) : List Param → List Param
  | [] => []
  | p :: more =>
    { p with name := r.apply (slot :: position) p.name } :: r.params position (slot + 1) more

/-- What a name is called behind parameters, given what it is called before them. -/
def within (r : Rename) (called : String → String) (position : Position) (slot : Nat) :
    List Param → String → String
  | [] => called
  | p :: more =>
    r.within (Function.update called p.name (r.apply (slot :: position) p.name)) position
      (slot + 1) more

/-- What a name is called after a statement, given what it is called before it. -/
def after (r : Rename) (called : String → String) (position : Position) (item : Term) :
    String → String :=
  match item.boundName? with
  | none => called
  | some x => Function.update called x (r.apply position x)

/-- What a name is called after the statements in the slots from `slot` on. -/
def afterAll (r : Rename) (called : String → String) (position : Position) (slot : Nat) :
    List Term → String → String
  | [] => called
  | item :: more => r.afterAll (r.after called (slot :: position) item) position (slot + 1) more

end Rename

namespace Term

mutual

/-- A term in which one binder has another name. The names that can be seen from the outside are
called as given; a name that is bound on the way is called what its binder is called. -/
def renamed (r : Rename) (called : String → String) (position : Position) : Term → Term
  | number n l => number n l
  | boolean b l => boolean b l
  | name x l => name (called x) l
  | binary left operator right l =>
    binary (left.renamed r called (0 :: position)) operator
      (right.renamed r called (1 :: position)) l
  | call callee arguments l =>
    call (callee.renamed r called (0 :: position)) (renamedAll r called position 1 arguments) l
  | lambda params body l =>
    lambda (r.params position 0 params)
      (body.renamed r (r.within called position 0 params) (params.length :: position)) l
  | block statements none l => block (renamedItems r called position 0 statements) none l
  | block statements (some result) l =>
    block (renamedItems r called position 0 statements)
      (some (result.renamed r (r.afterAll called position 0 statements)
        (statements.length :: position))) l
  | conditional condition thenBranch elseBranch l =>
    conditional (condition.renamed r called (0 :: position))
      (thenBranch.renamed r called (1 :: position)) (elseBranch.renamed r called (2 :: position)) l
  | letBinding x value ascription l =>
    letBinding (r.apply position x) (value.renamed r called (0 :: position)) ascription l
  | definition f params returns body l =>
    definition (r.apply position f) (r.params position 0 params) returns
      (body.renamed r
        (r.within (Function.update called f (r.apply position f)) position 0 params)
        ((params.length + 1) :: position)) l
  | discard expression l => discard (expression.renamed r called (0 :: position)) l
  | strayParam p => strayParam p
  | strayType t => strayType t
  | strayProgram statements result l => strayProgram statements result l

/-- The expressions in the slots from `slot` on, none of which sees a binder in another. -/
def renamedAll (r : Rename) (called : String → String) (position : Position) (slot : Nat) :
    List Term → List Term
  | [] => []
  | e :: more =>
    e.renamed r called (slot :: position) :: renamedAll r called position (slot + 1) more

/-- The statements in the slots from `slot` on, each of which sees the binders before it. -/
def renamedItems (r : Rename) (called : String → String) (position : Position) (slot : Nat) :
    List Term → List Term
  | [] => []
  | item :: more =>
    item.renamed r called (slot :: position) ::
      renamedItems r (r.after called (slot :: position) item) position (slot + 1) more

end

end Term

/-- A program in which one binder has another name, and with it the names that belong to it. -/
def Program.renamed (p : Program) (r : Rename) : Program where
  statements := Term.renamedItems r id [] 0 p.statements
  result := p.result.map (Term.renamed r (r.afterAll id [] 0 p.statements) [p.statements.length])
  file := p.file
  location := p.location

/-! ## Programs that are the same up to names -/

/-- What each binder in sight is called in two programs, the innermost first. -/
abbrev Scoping := List (String × String)

namespace Scoping

/-- Two names belong to the same binder, or they are the same name and belong to none. -/
inductive Same : Scoping → String → String → Prop
  | free {x : String} : Same [] x x
  | here {ρ : Scoping} {x x' : String} : Same ((x, x') :: ρ) x x'
  | outer {ρ : Scoping} {x x' z z' : String} : x ≠ z → x' ≠ z' → Same ρ z z' →
    Same ((x, x') :: ρ) z z'

/-- Behind parameters of these names. -/
def enter : Scoping → List String → List String → Scoping
  | ρ, x :: xs, x' :: xs' => enter ((x, x') :: ρ) xs xs'
  | ρ, _, _ => ρ

/-- The two programs change sides. -/
def flip (ρ : Scoping) : Scoping := ρ.map Prod.swap

theorem Same.flip {ρ : Scoping} {x x' : String} (h : ρ.Same x x') : ρ.flip.Same x' x := by
  induction h with
  | free => exact .free
  | here => exact .here
  | outer hx hx' _ ih => exact .outer hx' hx ih

theorem flip_enter (ρ : Scoping) (xs xs' : List String) :
    (ρ.enter xs xs').flip = ρ.flip.enter xs' xs := by
  induction xs generalizing ρ xs' with
  | nil => cases xs' <;> rfl
  | cons x xs ih =>
    cases xs' with
    | nil => rfl
    | cons x' xs' => exact ih ((x, x') :: ρ) xs'

end Scoping

/-- Parameters that differ in their names only. -/
def Param.Alike (params params' : List Param) : Prop :=
  List.Forall₂ (fun p p' => p'.ascription = p.ascription ∧ p'.location = p.location) params params'

namespace Term

mutual

/-- Two expressions are the same up to the names of binders. -/
inductive Alike : Scoping → Term → Term → Prop
  | number {ρ : Scoping} {n : Int} {l : Option Location} : Alike ρ (.number n l) (.number n l)
  | boolean {ρ : Scoping} {b : Bool} {l : Option Location} : Alike ρ (.boolean b l) (.boolean b l)
  | name {ρ : Scoping} {x x' : String} {l : Option Location} : ρ.Same x x' →
    Alike ρ (.name x l) (.name x' l)
  | binary {ρ : Scoping} {left left' right right' : Term} {operator : String}
      {l : Option Location} :
    Alike ρ left left' → Alike ρ right right' →
    Alike ρ (.binary left operator right l) (.binary left' operator right' l)
  | call {ρ : Scoping} {callee callee' : Term} {arguments arguments' : List Term}
      {l : Option Location} :
    Alike ρ callee callee' → AlikeAll ρ arguments arguments' →
    Alike ρ (.call callee arguments l) (.call callee' arguments' l)
  | lambda {ρ : Scoping} {params params' : List Param} {body body' : Term} {l : Option Location} :
    Param.Alike params params' →
    Alike (ρ.enter (params.map (·.name)) (params'.map (·.name))) body body' →
    Alike ρ (.lambda params body l) (.lambda params' body' l)
  | unit {ρ ρ' : Scoping} {statements statements' : List Term} {l : Option Location} :
    AlikeItems ρ statements statements' ρ' →
    Alike ρ (.block statements none l) (.block statements' none l)
  | block {ρ ρ' : Scoping} {statements statements' : List Term} {result result' : Term}
      {l : Option Location} :
    AlikeItems ρ statements statements' ρ' → Alike ρ' result result' →
    Alike ρ (.block statements (some result) l) (.block statements' (some result') l)
  | conditional {ρ : Scoping} {condition condition' thenBranch thenBranch' elseBranch
      elseBranch' : Term} {l : Option Location} :
    Alike ρ condition condition' → Alike ρ thenBranch thenBranch' →
    Alike ρ elseBranch elseBranch' →
    Alike ρ (.conditional condition thenBranch elseBranch l)
      (.conditional condition' thenBranch' elseBranch' l)

/-- Expressions are the same up to the names of binders, one by one. -/
inductive AlikeAll : Scoping → List Term → List Term → Prop
  | nil {ρ : Scoping} : AlikeAll ρ [] []
  | cons {ρ : Scoping} {e e' : Term} {es es' : List Term} : Alike ρ e e' → AlikeAll ρ es es' →
    AlikeAll ρ (e :: es) (e' :: es')

/-- Two statements are the same up to the names of binders. What follows them sees the binders of
the second scoping. -/
inductive AlikeItem : Scoping → Term → Term → Scoping → Prop
  | discard {ρ : Scoping} {e e' : Term} {l : Option Location} : Alike ρ e e' →
    AlikeItem ρ (.discard e l) (.discard e' l) ρ
  | letBinding {ρ : Scoping} {x x' : String} {value value' : Term}
      {ascription : Option TypeExpr} {l : Option Location} : Alike ρ value value' →
    AlikeItem ρ (.letBinding x value ascription l) (.letBinding x' value' ascription l)
      ((x, x') :: ρ)
  | definition {ρ : Scoping} {f f' : String} {params params' : List Param}
      {returns : Option TypeExpr} {body body' : Term} {l : Option Location} :
    Param.Alike params params' →
    Alike (Scoping.enter ((f, f') :: ρ) (params.map (·.name)) (params'.map (·.name))) body body' →
    AlikeItem ρ (.definition f params returns body l) (.definition f' params' returns body' l)
      ((f, f') :: ρ)

/-- Statements are the same up to the names of binders, one after the other. -/
inductive AlikeItems : Scoping → List Term → List Term → Scoping → Prop
  | nil {ρ : Scoping} : AlikeItems ρ [] [] ρ
  | cons {ρ ρ₁ ρ₂ : Scoping} {e e' : Term} {es es' : List Term} : AlikeItem ρ e e' ρ₁ →
    AlikeItems ρ₁ es es' ρ₂ → AlikeItems ρ (e :: es) (e' :: es') ρ₂

end

end Term

/-- Two programs are the same up to the names of binders, `main` apart. -/
structure Program.Alike (p p' : Program) (ρ : Scoping) : Prop where
  statements : Term.AlikeItems [] p.statements p'.statements ρ
  result : Option.Rel (Term.Alike ρ) p.result p'.result
  main : ρ.Same "main" "main"
  tag : p'.tag = p.tag

/-! ## Both programs alike -/

theorem Param.Alike.symm {params params' : List Param} (h : Param.Alike params params') :
    Param.Alike params' params :=
  List.Forall₂.flip (h.imp fun _ _ hp => ⟨hp.1.symm, hp.2.symm⟩)

namespace Term

mutual

theorem Alike.symm {ρ : Scoping} {e e' : Term} (h : Alike ρ e e') : Alike ρ.flip e' e := by
  match h with
  | .number => exact .number
  | .boolean => exact .boolean
  | .name hx => exact .name hx.flip
  | .binary hl hr => exact .binary hl.symm hr.symm
  | .call hc ha => exact .call hc.symm ha.symm
  | .lambda hp hb =>
    refine .lambda hp.symm ?_
    rw [← Scoping.flip_enter]
    exact hb.symm
  | .unit hs => exact .unit hs.symm
  | .block hs hr => exact .block hs.symm hr.symm
  | .conditional hc ht he => exact .conditional hc.symm ht.symm he.symm

theorem AlikeAll.symm {ρ : Scoping} {es es' : List Term} (h : AlikeAll ρ es es') :
    AlikeAll ρ.flip es' es := by
  match h with
  | .nil => exact .nil
  | .cons h hs => exact .cons h.symm hs.symm

theorem AlikeItem.symm {ρ ρ' : Scoping} {e e' : Term} (h : AlikeItem ρ e e' ρ') :
    AlikeItem ρ.flip e' e ρ'.flip := by
  match h with
  | .discard h => exact .discard h.symm
  | .letBinding h => exact .letBinding h.symm
  | .definition hp hb =>
    refine .definition hp.symm ?_
    have hb := hb.symm
    rwa [Scoping.flip_enter] at hb

theorem AlikeItems.symm {ρ ρ' : Scoping} {es es' : List Term} (h : AlikeItems ρ es es' ρ') :
    AlikeItems ρ.flip es' es ρ'.flip := by
  match h with
  | .nil => exact .nil
  | .cons h hs => exact .cons h.symm hs.symm

end

mutual

/-- What is the same as an expression up to names is an expression. -/
theorem IsExpression.alike {ρ : Scoping} {e e' : Term} (he : e.IsExpression) (h : Alike ρ e e') :
    e'.IsExpression := by
  match h with
  | .number => exact .number
  | .boolean => exact .boolean
  | .name _ => exact .name
  | .binary hl hr =>
    cases he with
    | binary hl' hr' => exact .binary (hl'.alike hl) (hr'.alike hr)
  | .call hc ha =>
    cases he with
    | call hc' ha' => exact .call (hc'.alike hc) (IsExpression.alikeAll ha' ha)
  | .lambda _ hb =>
    cases he with
    | lambda hb' => exact .lambda (hb'.alike hb)
  | .unit hs =>
    cases he with
    | unit hs' => exact .unit (IsStatement.alikeItems hs' hs)
  | .block hs hr =>
    cases he with
    | block hs' hr' => exact .block (IsStatement.alikeItems hs' hs) (hr'.alike hr)
  | .conditional hc ht hf =>
    cases he with
    | conditional hc' ht' hf' => exact .conditional (hc'.alike hc) (ht'.alike ht) (hf'.alike hf)

theorem IsExpression.alikeAll {ρ : Scoping} {es es' : List Term} (he : ∀ e ∈ es, e.IsExpression)
    (h : AlikeAll ρ es es') : ∀ e' ∈ es', e'.IsExpression := by
  match h with
  | .nil => exact he
  | .cons h hs =>
    obtain ⟨he, hes⟩ := List.forall_mem_cons.1 he
    exact List.forall_mem_cons.2 ⟨he.alike h, IsExpression.alikeAll hes hs⟩

theorem IsStatement.alike {ρ ρ' : Scoping} {e e' : Term} (he : e.IsStatement)
    (h : AlikeItem ρ e e' ρ') : e'.IsStatement := by
  match h with
  | .discard h =>
    cases he with
    | discard he => exact .discard (he.alike h)
  | .letBinding h =>
    cases he with
    | letBinding he => exact .letBinding (he.alike h)
  | .definition _ hb =>
    have hbody := fun he => IsExpression.alike he hb
    cases he with
    | definition he =>
      cases hb with
      | unit _ => exact .definition (hbody he)
      | block _ _ => exact .definition (hbody he)

theorem IsStatement.alikeItems {ρ ρ' : Scoping} {es es' : List Term}
    (he : ∀ e ∈ es, e.IsStatement) (h : AlikeItems ρ es es' ρ') : ∀ e' ∈ es', e'.IsStatement := by
  match h with
  | .nil => exact he
  | .cons h hs =>
    obtain ⟨he, hes⟩ := List.forall_mem_cons.1 he
    exact List.forall_mem_cons.2 ⟨he.alike h, IsStatement.alikeItems hes hs⟩

end

end Term

namespace Program.Alike

variable {p p' : Program} {ρ : Scoping}

theorem symm (h : p.Alike p' ρ) : p'.Alike p ρ.flip := by
  refine ⟨h.statements.symm, ?_, h.main.flip, h.tag.symm⟩
  have hresult := h.result
  generalize p.result = o at hresult ⊢
  generalize p'.result = o' at hresult ⊢
  cases hresult with
  | none => exact .none
  | some he => exact .some he.symm

theorem inPlace (h : p.Alike p' ρ) (hp : p.InPlace) : p'.InPlace := by
  refine ⟨Term.IsStatement.alikeItems hp.statements h.statements, fun e' he' => ?_⟩
  have hresult := h.result
  rw [he'] at hresult
  generalize hres : p.result = o at hresult
  cases hresult with
  | some he => exact (hp.result _ hres).alike he

end Program.Alike

/-! ## A renamed program -/

theorem Param.binders_sublist (position : Position) (slot : Nat) (params : List Param) :
    ((Param.binders position slot params).map Prod.fst).Sublist
      (positions (Param.walkAll position slot params)) := by
  induction params generalizing slot with
  | nil => exact .refl _
  | cons p params ih =>
    have hfirst : [slot :: position].Sublist (positions (p.walk (slot :: position))) :=
      List.singleton_sublist.2 (by simp [Param.walk, positions, Param.site])
    rw [Param.walkAll, positions_append]
    exact hfirst.append (ih (slot + 1))

namespace Term

mutual

/-- The binders are nodes that are met on a walk, in the same order. -/
theorem binders_sublist (position : Position) (e : Term) :
    ((e.binders position).map Prod.fst).Sublist (positions (e.walk position)) := by
  match e with
  | .number .. | .boolean .. | .name .. | .strayParam _ | .strayType _ | .strayProgram .. =>
    exact List.nil_sublist _
  | .binary left _ right _ =>
    rw [binders, walk, List.map_append, positions_cons, positions_append]
    exact ((binders_sublist _ left).append (binders_sublist _ right)).cons _
  | .call callee arguments _ =>
    rw [binders, walk, List.map_append, positions_cons, positions_append]
    exact ((binders_sublist _ callee).append (bindersAll_sublist _ 1 arguments)).cons _
  | .lambda params body _ =>
    rw [binders, walk, List.map_append, positions_cons, positions_append]
    exact ((Param.binders_sublist _ 0 params).append (binders_sublist _ body)).cons _
  | .block statements none _ =>
    rw [binders, walk, positions_cons, walkOption, List.append_nil]
    exact (bindersAll_sublist _ 0 statements).cons _
  | .block statements (some result) _ =>
    rw [binders, walk, List.map_append, positions_cons, positions_append]
    exact ((bindersAll_sublist _ 0 statements).append (binders_sublist _ result)).cons _
  | .conditional condition thenBranch elseBranch _ =>
    rw [binders, walk, List.map_append, List.map_append, positions_cons, positions_append,
      positions_append]
    exact (((binders_sublist _ condition).append (binders_sublist _ thenBranch)).append
      (binders_sublist _ elseBranch)).cons _
  | .letBinding x value _ _ =>
    rw [binders, walk, List.map_cons, positions_cons, positions_append]
    exact ((binders_sublist _ value).trans (List.sublist_append_left _ _)).cons_cons _
  | .definition f params _ body _ =>
    rw [binders, walk, List.map_cons, List.map_append, positions_cons, positions_append,
      positions_append]
    exact (((Param.binders_sublist _ 0 params).trans (List.sublist_append_left _ _)).append
      (binders_sublist _ body)).cons_cons _
  | .discard value _ =>
    rw [binders, walk, positions_cons]
    exact (binders_sublist _ value).cons _

theorem bindersAll_sublist (position : Position) (slot : Nat) (es : List Term) :
    ((bindersAll position slot es).map Prod.fst).Sublist
      (positions (walkAll position slot es)) := by
  match es with
  | [] => exact .refl _
  | e :: es =>
    rw [bindersAll, walkAll, List.map_append, positions_append]
    exact (binders_sublist _ e).append (bindersAll_sublist _ (slot + 1) es)

end

end Term

theorem Program.nodup_binders (p : Program) : (p.binders.map Prod.fst).Nodup :=
  (Term.binders_sublist [] _).nodup (Term.rooted_walk [] _).nodup

/-- Where a term stands when a binder gets another name: the names in sight are called what their
binders are called, and while the target is still to come nothing is called otherwise. The new
name does not occur in what is still to come. -/
structure Rename.Fits (r : Rename) (ρ : Scoping) (called : String → String)
    (identifiers : List String) (coming : List (Position × String)) : Prop where
  same : ∀ z, z ≠ r.name → ρ.Same z (called z)
  either : ∀ z, called z = z ∨ called z = r.name
  target : (∃ x, (r.target, x) ∈ coming) → ∀ z, called z = z
  distinct : (coming.map Prod.fst).Nodup
  unused : r.name ∉ identifiers
  unbound : ∀ b ∈ coming, b.2 ≠ r.name

namespace Rename.Fits

variable {r : Rename} {ρ : Scoping} {called : String → String}
  {identifiers identifiers' : List String} {coming coming' : List (Position × String)}

theorem mono (h : r.Fits ρ called identifiers coming) (hi : identifiers' ⊆ identifiers)
    (hc : coming'.Sublist coming) : r.Fits ρ called identifiers' coming' where
  same := h.same
  either := h.either
  target := fun ⟨x, hx⟩ => h.target ⟨x, hc.subset hx⟩
  distinct := h.distinct.sublist (hc.map _)
  unused := fun hx => h.unused (hi hx)
  unbound := fun b hb => h.unbound b (hc.subset hb)

theorem left (h : r.Fits ρ called (identifiers ++ identifiers') (coming ++ coming')) :
    r.Fits ρ called identifiers coming :=
  h.mono (List.subset_append_left _ _) (List.sublist_append_left _ _)

theorem right (h : r.Fits ρ called (identifiers ++ identifiers') (coming ++ coming')) :
    r.Fits ρ called identifiers' coming' :=
  h.mono (List.subset_append_right _ _) (List.sublist_append_right _ _)

/-- Behind a binder. -/
theorem bind {position : Position} {x : String}
    (h : r.Fits ρ called identifiers ((position, x) :: coming)) :
    r.Fits ((x, r.apply position x) :: ρ) (Function.update called x (r.apply position x))
      identifiers coming := by
  have hx : x ≠ r.name := h.unbound _ List.mem_cons_self
  obtain ⟨hposition, hdistinct⟩ := List.nodup_cons.1 h.distinct
  -- a name of another binder is not called as this one
  have hother : ∀ z, z ≠ x → z ≠ r.name → r.apply position x ≠ called z := by
    intro z hz hname
    unfold Rename.apply
    split
    · rename_i htarget
      rw [h.target ⟨x, htarget ▸ List.mem_cons_self⟩ z]
      exact hname.symm
    · rcases h.either z with heq | heq
      · rw [heq]
        exact hz.symm
      · rw [heq]
        exact hx
  refine ⟨fun z hz => ?_, fun z => ?_, ?_, hdistinct, h.unused, fun b hb => ?_⟩
  · by_cases hzx : z = x
    · subst hzx
      rw [Function.update_self]
      exact .here
    · rw [Function.update_of_ne hzx]
      exact .outer (Ne.symm hzx) (hother z hzx hz) (h.same z hz)
  · by_cases hzx : z = x
    · subst hzx
      rw [Function.update_self]
      unfold Rename.apply
      split
      · exact .inr rfl
      · exact .inl rfl
    · rw [Function.update_of_ne hzx]
      exact h.either z
  · rintro ⟨y, hy⟩ z
    have hne : position ≠ r.target := by
      rintro rfl
      exact hposition (List.mem_map.2 ⟨_, hy, rfl⟩)
    unfold Rename.apply
    rw [if_neg hne]
    by_cases hzx : z = x
    · subst hzx
      exact Function.update_self ..
    · rw [Function.update_of_ne hzx]
      exact h.target ⟨y, List.mem_cons_of_mem _ hy⟩ z
  · exact h.unbound b (List.mem_cons_of_mem _ hb)

/-- Behind parameters. -/
theorem within {position : Position} {slot : Nat} {params : List Param}
    (h : r.Fits ρ called identifiers (Param.binders position slot params ++ coming)) :
    r.Fits (ρ.enter (params.map (·.name)) ((r.params position slot params).map (·.name)))
      (r.within called position slot params) identifiers coming := by
  induction params generalizing ρ called slot with
  | nil => exact h
  | cons p params ih => exact ih h.bind

end Rename.Fits

theorem Param.alike_params (r : Rename) (position : Position) (slot : Nat) (params : List Param) :
    Param.Alike params (r.params position slot params) := by
  induction params generalizing slot with
  | nil => exact .nil
  | cons p params ih => exact .cons ⟨rfl, rfl⟩ (ih (slot + 1))

namespace Term

variable {r : Rename}

mutual

/-- An expression in which a binder has another name is the same up to names. -/
theorem alike_renamed {ρ : Scoping} {called : String → String} {position : Position} {e : Term}
    (he : e.IsExpression) (h : r.Fits ρ called e.identifiers (e.binders position)) :
    Alike ρ e (e.renamed r called position) := by
  match he with
  | .number => exact .number
  | .boolean => exact .boolean
  | @IsExpression.name x _ =>
    refine .name (h.same x ?_)
    rintro rfl
    exact h.unused List.mem_cons_self
  | .binary hl hr => exact .binary (alike_renamed hl h.left) (alike_renamed hr h.right)
  | .call hc ha => exact .call (alike_renamed hc h.left) (alike_renamedAll ha h.right)
  | .lambda hb => exact .lambda (Param.alike_params r position 0 _) (alike_renamed hb h.within)
  | @IsExpression.unit statements _ hs =>
    have h : r.Fits ρ called (identifiersAll statements ++ [])
        (bindersAll position 0 statements ++ []) := by
      rw [List.append_nil, List.append_nil]
      exact h
    obtain ⟨ρ', hs', -⟩ := alike_renamedItems hs h
    exact .unit hs'
  | .block hs hr =>
    obtain ⟨ρ', hs', h'⟩ := alike_renamedItems hs h
    exact .block hs' (alike_renamed hr h')
  | .conditional hc ht hf =>
    exact .conditional (alike_renamed hc h.left.left) (alike_renamed ht h.left.right)
      (alike_renamed hf h.right)

theorem alike_renamedAll {ρ : Scoping} {called : String → String} {position : Position}
    {slot : Nat} {es : List Term} (he : ∀ e ∈ es, e.IsExpression)
    (h : r.Fits ρ called (identifiersAll es) (bindersAll position slot es)) :
    AlikeAll ρ es (renamedAll r called position slot es) := by
  match es with
  | [] => exact .nil
  | e :: es =>
    exact .cons (alike_renamed (he e List.mem_cons_self) h.left)
      (alike_renamedAll (fun e he' => he e (List.mem_cons_of_mem _ he')) h.right)

theorem alike_renamedItem {ρ : Scoping} {called : String → String} {position : Position}
    {e : Term} (he : e.IsStatement) {identifiers' : List String}
    {coming' : List (Position × String)}
    (h : r.Fits ρ called (e.identifiers ++ identifiers') (e.binders position ++ coming')) :
    ∃ ρ', AlikeItem ρ e (e.renamed r called position) ρ' ∧
      r.Fits ρ' (r.after called position e) identifiers' coming' := by
  match he with
  | .discard he => exact ⟨ρ, .discard (alike_renamed he h.left), h.right⟩
  | .letBinding he =>
    refine ⟨_, .letBinding (alike_renamed he ?_), h.bind.right⟩
    exact h.left.mono (List.Subset.refl _) (List.sublist_cons_self _ _)
  | .definition he =>
    refine ⟨_, .definition (Param.alike_params r position 0 _) ?_, h.bind.right⟩
    exact alike_renamed he h.left.bind.within

theorem alike_renamedItems {ρ : Scoping} {called : String → String} {position : Position}
    {slot : Nat} {es : List Term} (he : ∀ e ∈ es, e.IsStatement) {identifiers' : List String}
    {coming' : List (Position × String)}
    (h : r.Fits ρ called (identifiersAll es ++ identifiers')
      (bindersAll position slot es ++ coming')) :
    ∃ ρ', AlikeItems ρ es (renamedItems r called position slot es) ρ' ∧
      r.Fits ρ' (r.afterAll called position slot es) identifiers' coming' := by
  match es with
  | [] => exact ⟨ρ, .nil, h⟩
  | e :: es =>
    rw [identifiersAll, bindersAll, List.append_assoc, List.append_assoc] at h
    obtain ⟨ρ₁, hitem, h₁⟩ := alike_renamedItem (he e List.mem_cons_self) h
    obtain ⟨ρ₂, hitems, h₂⟩ :=
      alike_renamedItems (fun e he' => he e (List.mem_cons_of_mem _ he')) h₁
    exact ⟨ρ₂, .cons hitem hitems, h₂⟩

end

end Term

theorem Rename.after_eq_self {r : Rename} {called : String → String} {z : String}
    (hz : called z = z) {position : Position} {e : Term}
    (hb : (r.target, z) ∉ e.binders position) : r.after called position e z = z := by
  have hbound : ∀ x, (position, x) ∈ e.binders position →
      Function.update called x (r.apply position x) z = z := by
    intro x hx
    by_cases hzx : z = x
    · subst hzx
      rw [Function.update_self, Rename.apply, if_neg]
      rintro rfl
      exact hb hx
    · rw [Function.update_of_ne hzx]
      exact hz
  unfold Rename.after
  cases e with
  | letBinding x value ascription l => exact hbound x List.mem_cons_self
  | definition f params returns body l => exact hbound f List.mem_cons_self
  | _ => exact hz

/-- A name that is not the target's is called as before. -/
theorem Rename.afterAll_eq_self {r : Rename} {called : String → String} {z : String}
    (hz : called z = z) {position : Position} {slot : Nat} {es : List Term}
    (hb : (r.target, z) ∉ Term.bindersAll position slot es) :
    r.afterAll called position slot es z = z := by
  induction es generalizing called slot with
  | nil => exact hz
  | cons e es ih =>
    rw [Term.bindersAll, List.mem_append, not_or] at hb
    exact ih (Rename.after_eq_self hz hb.1) hb.2

/-- A binder other than `main` may be given any other name that does not occur in the program: the
program stays the same up to names. -/
theorem Program.alike_renamed {p : Program} (hp : p.InPlace) {r : Rename}
    (htarget : (r.target, "main") ∉ p.binders) (hmain : r.name ≠ "main")
    (hunused : r.name ∉ Term.identifiersAll (p.statements ++ p.result.toList))
    (hunbound : ∀ b ∈ p.binders, b.2 ≠ r.name) : ∃ ρ, p.Alike (p.renamed r) ρ := by
  have hdistinct := p.nodup_binders
  obtain ⟨statements, result, file, l⟩ := p
  obtain ⟨hstatements, hresult⟩ := hp
  have hstart : ∀ {identifiers : List String} {coming : List (Position × String)},
      (coming.map Prod.fst).Nodup → r.name ∉ identifiers → (∀ b ∈ coming, b.2 ≠ r.name) →
        r.Fits [] id identifiers coming := fun hd hi hc =>
    ⟨fun _ _ => .free, fun _ => .inl rfl, fun _ _ => rfl, hd, hi, hc⟩
  -- `main` keeps its name, so it belongs to the same binder in both programs
  have hsame : ∀ {ρ identifiers coming}, (r.target, "main") ∉ Term.bindersAll [] 0 statements →
      r.Fits ρ (r.afterAll id [] 0 statements) identifiers coming → ρ.Same "main" "main" := by
    intro ρ identifiers coming hb h
    have hcalled := h.same "main" hmain.symm
    rwa [Rename.afterAll_eq_self rfl hb] at hcalled
  cases result with
  | none =>
    rw [Option.toList_none, List.append_nil] at hunused
    have h : r.Fits [] id (Term.identifiersAll statements ++ [])
        (Term.bindersAll [] 0 statements ++ []) := by
      rw [List.append_nil, List.append_nil]
      exact hstart hdistinct hunused hunbound
    obtain ⟨ρ, hitems, h⟩ := Term.alike_renamedItems hstatements h
    exact ⟨ρ, hitems, .none, hsame htarget h, rfl⟩
  | some e =>
    rw [Term.identifiersAll_append] at hunused
    obtain ⟨ρ, hitems, h⟩ :=
      Term.alike_renamedItems hstatements (hstart hdistinct hunused hunbound)
    refine ⟨ρ, hitems, .some (Term.alike_renamed (hresult e rfl) ?_), hsame ?_ h, rfl⟩
    · exact h.mono (List.subset_append_left _ _) (List.Sublist.refl _)
    · exact fun hb => htarget (List.mem_append_left _ hb)

end LetPoly
