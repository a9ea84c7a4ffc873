-- Types, and the ways to print them.
import LetPoly.Text.Lines

namespace LetPoly

/-- A type: a variable, a base type, or a function from its parameters to its result. -/
inductive Ty where
  | var (id : Int)
  | con (name : String)
  | fn (params : List Ty) (result : Ty)
deriving Repr, Inhabited

namespace Ty

/-! ## Equality -/

mutual

/-- Equality of types is decided part by part. -/
def decEq : (a b : Ty) → Decidable (a = b)
  | var v, var w => if h : v = w then isTrue (by rw [h]) else isFalse (by simp [h])
  | con c, con d => if h : c = d then isTrue (by rw [h]) else isFalse (by simp [h])
  | fn ps r, fn qs q =>
    match decEqAll ps qs, decEq r q with
    | isTrue hp, isTrue hr => isTrue (by rw [hp, hr])
    | isFalse hp, _ => isFalse (by simp [hp])
    | _, isFalse hr => isFalse (by simp [hr])
  | var _, con _ => isFalse (by simp)
  | var _, fn _ _ => isFalse (by simp)
  | con _, var _ => isFalse (by simp)
  | con _, fn _ _ => isFalse (by simp)
  | fn _ _, var _ => isFalse (by simp)
  | fn _ _, con _ => isFalse (by simp)

/-- Equality of lists of types is decided item by item. -/
def decEqAll : (as bs : List Ty) → Decidable (as = bs)
  | [], [] => isTrue rfl
  | [], _ :: _ => isFalse (by simp)
  | _ :: _, [] => isFalse (by simp)
  | a :: as, b :: bs =>
    match decEq a b, decEqAll as bs with
    | isTrue ha, isTrue hs => isTrue (by rw [ha, hs])
    | isFalse ha, _ => isFalse (by simp [ha])
    | _, isFalse hs => isFalse (by simp [hs])

end

instance : DecidableEq Ty := decEq

/-! ## The base types of the language -/

/-- The type of whole numbers. -/
def number : Ty := con "number"

/-- The type of truth values. -/
def bool : Ty := con "bool"

/-- The type of the value of a block without a result. -/
def unit : Ty := con "unit"

/-- The names of the base types. -/
def baseNames : List String := ["number", "bool", "unit"]

/-! ## Variables -/

mutual

/-- The variables of a type from left to right, one for each place where it stands. -/
def leaves : Ty → List Int
  | var v => [v]
  | con _ => []
  | fn params result => leavesAll params ++ leaves result

/-- The variables of types, one after the other. -/
def leavesAll : List Ty → List Int
  | [] => []
  | t :: more => leaves t ++ leavesAll more

end

/-- A list without what it repeats: of each item the first stays. -/
def distinct (xs : List Int) : List Int :=
  xs.foldl (fun seen x => if x ∈ seen then seen else seen ++ [x]) []

/-- The variables of a type by first appearance. -/
def vars (t : Ty) : List Int := distinct t.leaves

/-- A variable stands somewhere in a type. -/
def occurs (v : Int) (t : Ty) : Bool := v ∈ t.leaves

/-! ## Substitution -/

mutual

/-- A type with every variable replaced at once. -/
def subst (f : Int → Ty) : Ty → Ty
  | var v => f v
  | con c => con c
  | fn params result => fn (substAll f params) (subst f result)

/-- Types with every variable replaced at once. -/
def substAll (f : Int → Ty) : List Ty → List Ty
  | [] => []
  | t :: more => subst f t :: substAll f more

end

mutual

/-- A type with every variable replaced, unless one of the replacements is missing. -/
def subst? (f : Int → Option Ty) : Ty → Option Ty
  | var v => f v
  | con c => some (con c)
  | fn params result => do
    let params ← substAll? f params
    let result ← subst? f result
    some (fn params result)

/-- Types with every variable replaced, unless one of the replacements is missing. -/
def substAll? (f : Int → Option Ty) : List Ty → Option (List Ty)
  | [] => some []
  | t :: more => do
    let t ← subst? f t
    let more ← substAll? f more
    some (t :: more)

end

/-- A type with one variable replaced. -/
def replace (t : Ty) (v : Int) (image : Ty) : Ty :=
  t.subst fun w => if w = v then image else var w

/-! ## Printing -/

mutual

/-- A type in the syntax of annotations, with the given names for its variables. -/
def render (name : Int → String) : Ty → String
  | var v => name v
  | con c => c
  | fn [] result => "() -> " ++ render name result
  | fn (p :: params) result =>
    "(" ++ render name p ++ renderMore name params ++ ") -> " ++ render name result

/-- The parameters after the first, each after a comma. -/
def renderMore (name : Int → String) : List Ty → String
  | [] => ""
  | t :: more => ", " ++ render name t ++ renderMore name more

end

/-- The plain name of a variable: its number. -/
def plainName (v : Int) : String := "t" ++ toString v

/-- A type with its variables by number. -/
def text (t : Ty) : String := t.render plainName

/-- The letter of the variable that appears as the given one in order: the alphabet, then the
alphabet with a number after each letter, and so on. -/
def letter (index : Nat) : String :=
  let c := String.singleton (Char.ofNat (97 + index % 26))
  if index < 26 then c else c ++ toString (index / 26)

/-- The quoted name of a variable by its place among the given ones. -/
def quotedName (vars : List Int) (v : Int) : String :=
  match vars.findIdx? (· = v) with
  | some index => "'" ++ letter index
  | none => plainName v

/-- A type with its variables named by first appearance. -/
def pretty (t : Ty) : String := t.render (quotedName t.vars)

end Ty

end LetPoly
