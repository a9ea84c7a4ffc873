-- Substitutions: types for type variables. Applying one follows images again
-- and again, so chained bindings resolve fully, and a cycle has no result.
import LetPoly.Ascending
import LetPoly.Table
import LetPoly.Ty

namespace LetPoly

/-- Types for variables, by variable. -/
abbrev Subst := Table Int Ty

namespace Subst

/-- The substitution that replaces nothing. -/
def empty : Subst := Table.empty

/-- The type that a variable is to be replaced by. A variable bound to itself is as good as
unbound. -/
def image? (s : Subst) (v : Int) : Option Ty :=
  match s.get? v with
  | some t => if t = .var v then none else some t
  | none => none

/-- What a variable stands for, following at most the given number of bindings in a row. -/
def chase (s : Subst) : Nat → Int → Option Ty
  | 0, v => match s.image? v with
    | none => some (.var v)
    | some _ => none
  | n + 1, v => match s.image? v with
    | none => some (.var v)
    | some t => t.subst? (chase s n)

/-- A type with every bound variable replaced by what it stands for. There is no result exactly
when the variables lead into a cycle: a way without a repetition is no longer than the number of
bindings. -/
def expand? (s : Subst) (t : Ty) : Option Ty :=
  t.subst? (s.chase s.size)

/-- Types with every bound variable replaced. -/
def expandAll? (s : Subst) (ts : List Ty) : Option (List Ty) :=
  Ty.substAll? (s.chase s.size) ts

/-- First `earlier`, then `later`. On a common variable `later` counts. -/
def compose? (later earlier : Subst) : Option Subst := do
  let images ← earlier.map? later.expand?
  some ((images.without later.keys).append later)

/-- The substitution with one more variable solved: it is replaced in all images. -/
def solve (s : Subst) (v : Int) (t : Ty) : Subst :=
  (s.map (·.replace v t)).append (Table.single v t)

end Subst

end LetPoly
