-- When a table of types is a typing derivation: each node's type follows from those of
-- the nodes below it, and a name has the type of the node that binds it, or an
-- instance of that type where the binding was generalized.
import LetPoly.Proofs.Typing

namespace LetPoly

/-! ## Tables of types that fit together -/

/-- The node that binds a name. -/
inductive Binder where
  /-- A parameter, or a definition seen from its own body. -/
  | fixed (position : Position)
  /-- A binding or a definition that came before. -/
  | general (position : Position)
deriving DecidableEq, Repr, Inhabited

/-- The types that a name may have: just the type of its binder, or every instance of it. -/
def Binder.Allows (T : Position → Option Ty) (t : Ty) : Binder → Prop
  | fixed q => T q = some t
  | general q => ∃ u g, T q = some u ∧ t = u.subst g

/-- The parameters in the slots from `slot` on bind their names. -/
def withBinders (position : Position) : Nat → List Param → Table String Binder →
    Table String Binder
  | _, [], binders => binders
  | slot, p :: params, binders =>
    withBinders position (slot + 1) params (binders.insert p.name (.fixed (slot :: position)))

/-- The parameters in the slots from `slot` on have the given types. -/
def HaveParams (T : Position → Option Ty) (position : Position) : Nat → List Param → List Ty → Prop
  | _, [], [] => True
  | slot, _ :: params, t :: types =>
    T (slot :: position) = some t ∧ HaveParams T position (slot + 1) params types
  | _, _, _ => False

mutual

/-- The types of an expression's nodes fit together, and its own type is the given one. -/
inductive Consistent (rules : Rules) (T : Position → Option Ty) :
    Table String Binder → Position → Term → Ty → Prop
  | number {binders : Table String Binder} {position : Position} {n : Int} {l : Option Location} :
    T position = some .number → Consistent rules T binders position (.number n l) .number
  | boolean {binders : Table String Binder} {position : Position} {b : Bool}
      {l : Option Location} :
    T position = some .bool → Consistent rules T binders position (.boolean b l) .bool
  | name {binders : Table String Binder} {position : Position} {x : String} {l : Option Location}
      {b : Binder} {t : Ty} :
    T position = some t → binders.get? x = some b → b.Allows T t →
    Consistent rules T binders position (.name x l) t
  | binary {binders : Table String Binder} {position : Position} {left right : Term}
      {operator : String} {l : Option Location} {scheme : Scheme} {a b t : Ty} :
    T position = some t → rules.operators.get? operator = some scheme →
    scheme.Instance (.fn [a, b] t) → Consistent rules T binders (0 :: position) left a →
    Consistent rules T binders (1 :: position) right b →
    Consistent rules T binders position (.binary left operator right l) t
  | call {binders : Table String Binder} {position : Position} {callee : Term}
      {arguments : List Term} {l : Option Location} {types : List Ty} {t : Ty} :
    T position = some t → Consistent rules T binders (0 :: position) callee (.fn types t) →
    ConsistentAll rules T binders position 1 arguments types →
    Consistent rules T binders position (.call callee arguments l) t
  | lambda {binders : Table String Binder} {position : Position} {params : List Param}
      {body : Term} {l : Option Location} {types : List Ty} {t : Ty} :
    T position = some (.fn types t) → HaveParams T position 0 params types →
    Consistent rules T (withBinders position 0 params binders) (params.length :: position) body t →
    Consistent rules T binders position (.lambda params body l) (.fn types t)
  | unit {binders binders' : Table String Binder} {position : Position} {statements : List Term}
      {l : Option Location} :
    T position = some .unit →
    ConsistentStatements rules T binders position 0 statements binders' →
    Consistent rules T binders position (.block statements none l) .unit
  | block {binders binders' : Table String Binder} {position : Position} {statements : List Term}
      {result : Term} {l : Option Location} {t : Ty} :
    T position = some t → ConsistentStatements rules T binders position 0 statements binders' →
    Consistent rules T binders' (statements.length :: position) result t →
    Consistent rules T binders position (.block statements (some result) l) t
  | conditional {binders : Table String Binder} {position : Position}
      {condition thenBranch elseBranch : Term} {l : Option Location} {t : Ty} :
    T position = some t → Consistent rules T binders (0 :: position) condition .bool →
    Consistent rules T binders (1 :: position) thenBranch t →
    Consistent rules T binders (2 :: position) elseBranch t →
    Consistent rules T binders position (.conditional condition thenBranch elseBranch l) t

/-- The types of expressions in the slots from `slot` on fit together, and their own types are the
given ones. -/
inductive ConsistentAll (rules : Rules) (T : Position → Option Ty) :
    Table String Binder → Position → Nat → List Term → List Ty → Prop
  | nil {binders : Table String Binder} {position : Position} {slot : Nat} :
    ConsistentAll rules T binders position slot [] []
  | cons {binders : Table String Binder} {position : Position} {slot : Nat} {first : Term}
      {more : List Term} {t : Ty} {ts : List Ty} :
    Consistent rules T binders (slot :: position) first t →
    ConsistentAll rules T binders position (slot + 1) more ts →
    ConsistentAll rules T binders position slot (first :: more) (t :: ts)

/-- The types of a statement's nodes fit together, and what follows it sees the second binders. -/
inductive ConsistentStatement (rules : Rules) (T : Position → Option Ty) :
    Table String Binder → Position → Term → Table String Binder → Prop
  | discard {binders : Table String Binder} {position : Position} {expression : Term}
      {l : Option Location} {t : Ty} :
    T position = some t → Consistent rules T binders (0 :: position) expression t →
    ConsistentStatement rules T binders position (.discard expression l) binders
  | letBinding {binders : Table String Binder} {position : Position} {x : String} {value : Term}
      {ascription : Option TypeExpr} {l : Option Location} {t : Ty} :
    T position = some t → Consistent rules T binders (0 :: position) value t →
    ConsistentStatement rules T binders position (.letBinding x value ascription l)
      (binders.insert x (.general position))
  | definition {binders : Table String Binder} {position : Position} {f : String}
      {params : List Param} {returns : Option TypeExpr} {body : Term} {l : Option Location}
      {types : List Ty} {t : Ty} :
    T position = some (.fn types t) → HaveParams T position 0 params types →
    Consistent rules T (withBinders position 0 params (binders.insert f (.fixed position)))
      ((params.length + 1) :: position) body t →
    ConsistentStatement rules T binders position (.definition f params returns body l)
      (binders.insert f (.general position))

/-- The types of statements in the slots from `slot` on fit together, one after the other. -/
inductive ConsistentStatements (rules : Rules) (T : Position → Option Ty) :
    Table String Binder → Position → Nat → List Term → Table String Binder → Prop
  | nil {binders : Table String Binder} {position : Position} {slot : Nat} :
    ConsistentStatements rules T binders position slot [] binders
  | cons {binders binders₁ binders₂ : Table String Binder} {position : Position} {slot : Nat}
      {first : Term} {more : List Term} :
    ConsistentStatement rules T binders (slot :: position) first binders₁ →
    ConsistentStatements rules T binders₁ position (slot + 1) more binders₂ →
    ConsistentStatements rules T binders position slot (first :: more) binders₂

end

/-- The types of a program's nodes fit together. -/
def Program.Consistent (rules : Rules) (T : Position → Option Ty) (p : Program) : Prop :=
  ∃ binders, ConsistentStatements rules T Table.empty [] 0 p.statements binders ∧
    ∀ e, p.result = some e → ∃ t, LetPoly.Consistent rules T binders [p.statements.length] e t

/-! ## Names and their schemes -/

/-- Whatever a name's scheme reaches through a replacement is a type that its binder allows. -/
def Env.Refers (T : Position → Option Ty) (f : Int → Ty) (env : Env)
    (binders : Table String Binder) : Prop :=
  Table.Rel (fun scheme b => ∀ t, scheme.Reaches f t → b.Allows T t) env binders

/-- A table has the types on record, replaced as given. -/
def Holds (T : Position → Option Ty) (f : Int → Ty) (news : List (Site × Ty)) : Prop :=
  ∀ entry ∈ news, T entry.1.position = some (entry.2.subst f)

section

variable {T : Position → Option Ty} {f : Int → Ty} {env : Env} {binders : Table String Binder}
  {news news' : List (Site × Ty)}

theorem Env.Refers.absorb (h : env.Refers T f binders) {s : Subst} (hc : env.Clean s.image)
    (ha : s.Absorbs f) : (env.subst s.image).Refers T f binders := by
  refine Table.Rel.map_left h fun scheme hs b hr t ht => ?_
  exact hr t (((Scheme.reaches_subst (hc scheme hs)).1 ht).congr fun v _ => ha v)

theorem Env.Refers.congr {g : Int → Ty} (h : env.Refers T f binders)
    (hfg : ∀ v ∈ env.freeVars, f v = g v) : env.Refers T g binders := by
  refine Table.Rel.imp h fun scheme hs b _ hr t ht => ?_
  exact hr t (ht.congr fun v hv => (hfg v (Env.mem_freeVars.2 ⟨scheme, hs, hv⟩)).symm)

theorem Env.Refers.insert_fixed (h : env.Refers T f binders) (x : String) {q : Position} {t : Ty}
    (ht : T q = some (t.subst f)) :
    Env.Refers T f (env.insert x (.mono t)) (binders.insert x (.fixed q)) := by
  refine Table.Rel.insert h x fun u hu => ?_
  rw [Scheme.reaches_mono] at hu
  rw [Binder.Allows, hu]
  exact ht

theorem holds_append : Holds T f (news ++ news') ↔ Holds T f news ∧ Holds T f news' := by
  exact List.forall_mem_append

theorem holds_single {site : Site} {t : Ty} :
    Holds T f [(site, t)] ↔ T site.position = some (t.subst f) := by
  simp [Holds]

end

end LetPoly
