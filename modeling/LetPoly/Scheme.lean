-- Type schemes and the environments that hold them.
import LetPoly.Subst

namespace LetPoly

/-- A type with some variables bound, each of which is listed once, in ascending order. -/
@[ext]
structure Scheme where
  quantified : List Int
  body : Ty
  ascending : quantified.Pairwise (· < ·)
deriving DecidableEq, Repr

namespace Scheme

/-- A type as a scheme that binds nothing. -/
def mono (t : Ty) : Scheme := ⟨[], t, .nil⟩

instance : Inhabited Scheme := ⟨mono default⟩

/-- A type with the given variables bound. -/
def quantify (vs : List Int) (t : Ty) : Scheme :=
  ⟨Ascending.ofList vs, t, Ascending.pairwise_ofList vs⟩

theorem nodup_quantified (s : Scheme) : s.quantified.Nodup :=
  s.ascending.imp fun h => Int.ne_of_lt h

/-- The variables that stand free, in ascending order. -/
def freeVars (s : Scheme) : List Int :=
  Ascending.ofList (s.body.leaves.filter (· ∉ s.quantified))

/-- A scheme with its variables named by first appearance in the body. -/
def text (s : Scheme) : String :=
  let vars := s.body.vars
  let body := s.body.render (Ty.quotedName vars)
  if s.quantified.isEmpty then body
  else
    let bound := vars.filter (· ∈ s.quantified)
    "forall " ++ Text.joinWith " " (bound.map (Ty.quotedName vars)) ++ ". " ++ body

/-- A substitution applied to the free variables. -/
def expand? (s : Subst) (scheme : Scheme) : Option Scheme := do
  let body ← Subst.expand? (s.without scheme.quantified) scheme.body
  some { scheme with body }

/-- Fresh variables for the bound ones, in ascending order, from the number `next` on. -/
def freshen (s : Scheme) (next : Int) : Subst :=
  ⟨s.quantified.zipIdx.map fun (v, i) => (v, .var (next + i)), by
    simpa [Function.comp_def] using s.nodup_quantified⟩

/-- The body with fresh variables for the bound ones, and the next unused number. -/
def instantiate? (s : Scheme) (next : Int) : Option Ty × Int :=
  ((s.freshen next).expand? s.body, next + s.quantified.length)

end Scheme

/-- Schemes by name. A new binding of a name hides the old one. -/
abbrev Env := Table String Scheme

namespace Env

/-- The variables that stand free in some scheme. -/
def freeVars (env : Env) : List Int :=
  Ascending.ofList (env.values.flatMap Scheme.freeVars)

/-- A substitution applied to every scheme. -/
def expand? (s : Subst) (env : Env) : Option Env :=
  env.map? (Scheme.expand? s)

/-- A type with the variables bound that do not stand free in the environment. -/
def generalize (env : Env) (t : Ty) : Scheme :=
  let free := env.freeVars
  Scheme.quantify (t.leaves.filter (· ∉ free)) t

end Env

end LetPoly
