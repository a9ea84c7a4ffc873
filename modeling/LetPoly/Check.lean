-- Checking whole programs: every top-level item in turn, against the environment
-- that the items before it leave.
import LetPoly.Infer

namespace LetPoly

/-- How a program is checked. -/
structure CheckOptions where
  /-- Base types beside those of the language. -/
  extraTypes : List String
  /-- Go on after an item that fails. -/
  resilient : Bool
  /-- The first type variable to use. -/
  seed : Int
  /-- Names bound from the start. -/
  prelude : Env
deriving Repr, Inhabited

/-- What is known after a check. -/
structure Checked where
  /-- The schemes of the top-level names. -/
  schemes : Env
  /-- The errors, at most one per item. -/
  errors : List TypeError
  /-- The final types of the nodes of the items that passed. -/
  types : List (Site × Ty)
  /-- The type of the last expression, or of a program without one. -/
  programType : Option Ty
  /-- The debug log. -/
  log : List LogLine
deriving Repr, Inhabited

namespace Checked

/-- Nothing is checked yet. -/
def start : Checked := ⟨Table.empty, [], [], none, []⟩

/-- No error was found. -/
def ok (c : Checked) : Bool := c.errors.isEmpty

/-- The final type of the node at a position. -/
def typeAt? (c : Checked) (position : Position) : Option Ty :=
  (c.types.find? (·.1.position = position)).map (·.2)

/-- One line per top-level name, and one for the last expression. -/
def describe (c : Checked) (p : Program) : List String :=
  (c.schemes.entries.map fun (x, s) => x ++ " : " ++ s.text) ++
    match p.result, c.programType with
    | some _, some t => ["<program> : " ++ t.pretty]
    | _, _ => []

end Checked

namespace Check

/-- Where a check stands between two items. -/
structure State where
  env : Env
  next : Int
  checked : Checked
deriving Repr, Inhabited

/-- The lines of the log that an item leaves. -/
def logOf (s : InferState) : List LogLine := s.journal.toList.filterMap Event.logLine?

/-- The final types of an item's nodes. -/
def finalTypes (s : Subst) : List (Site × Ty) → Except InferFailure (List (Site × Ty))
  | [] => .ok []
  | (site, t) :: more =>
    match s.expand? t with
    | none => .error .cyclic
    | some t => do
      let more ← finalTypes s more
      .ok ((site, t) :: more)

/-- The type that a failed item declares for the name it would have bound. -/
def declared? (rules : Rules) (position : Position) : Term → Option (String × Naming.Step Ty)
  | .definition f params returns _ _ =>
    some (f, do
      let (types, result) ← signature rules.baseTypes params returns position
      pure (.fn types result))
  | .letBinding x _ (some ascription) _ =>
    some (x, ascription.resolve rules.baseTypes (1 :: position))
  | _ => none

/-- After a failed item: its name is bound to the declared type, if there is one and it makes
sense, so that later items can use it. -/
def recover (rules : Rules) (position : Position) (item : Term) (env : Env) (next : Int) :
    Env × Int :=
  match declared? rules position item with
  | none => (env, next)
  | some (x, step) =>
    match step ⟨next, Table.empty⟩ with
    | .ok t naming => (env.insert x (Env.generalize env t), naming.next)
    | .error _ naming => (env, naming.next)

/-- After an item that passed. -/
def accept (st : State) (item : Term) (env : Env) (types : List (Site × Ty)) (after : InferState) :
    State :=
  let c := { st.checked with
    types := st.checked.types ++ types
    log := st.checked.log ++ logOf after }
  match item.boundName?.bind fun x => (env.get? x).map (x, ·) with
  | none => ⟨env, after.next, c⟩
  | some (x, scheme) =>
    ⟨env, after.next,
      { c with
        schemes := c.schemes.insert x scheme
        log := c.log ++ [⟨"sfl.type_checker", x ++ " : " ++ scheme.text⟩] }⟩

/-- After an item that failed with an error of types. -/
def reject (st : State) (error : TypeError) (after : InferState) : State :=
  let c := st.checked
  ⟨st.env, after.next,
    { c with
      errors := c.errors ++ [error]
      log := c.log ++ logOf after ++
        [⟨"sfl.type_checker", "error in top-level item: " ++ error.message⟩] }⟩

/-- The items in the slots from `slot` on. The second part of the result tells whether the check
went through to the end. -/
def items (rules : Rules) (resilient : Bool) :
    List Term → Nat → State → Except InferFailure (State × Bool)
  | [], _, st => .ok (st, true)
  | item :: more, slot, st =>
    match Infer.check rules item st.env [slot] (.start st.next) with
    | .ok (s, env) after => do
      let types ← finalTypes s after.types
      items rules resilient more (slot + 1) (accept st item env types after)
    | .error (.typeError error) after =>
      let st := reject st error after
      if resilient then
        let (env, next) := recover rules [slot] item st.env st.next
        items rules resilient more (slot + 1) { st with env, next }
      else
        .ok (st, false)
    | .error failure _ => .error failure

/-- The last expression, which stands in the given slot. -/
def result (rules : Rules) (slot : Nat) (st : State) :
    Option Term → Except InferFailure Checked
  | none => .ok { st.checked with programType := some .unit }
  | some e =>
    let c := st.checked
    match Infer.infer rules e st.env [slot] (.start st.next) with
    | .ok (s, t) after => do
      let types ← finalTypes s after.types
      match s.expand? t with
      | none => .error .cyclic
      | some t =>
        .ok { c with
              types := c.types ++ types
              programType := some t
              log := c.log ++ logOf after }
    | .error (.typeError error) after =>
      .ok { c with errors := c.errors ++ [error], log := c.log ++ logOf after }
    | .error failure _ => .error failure

end Check

/-- Check a program by the given rules, with names bound from the start and a first type variable.
Only a tree with nodes out of place, or names whose schemes share variables with those drawn, can
make the check itself fail. -/
def Program.checkBy (p : Program) (rules : Rules) (resilient : Bool) (seed : Int) (prelude : Env) :
    Except InferFailure Checked := do
  let (st, through) ← Check.items rules resilient p.statements 0 ⟨prelude, seed, .start⟩
  if through then
    Check.result rules p.statements.length st p.result
  else
    .ok st.checked

/-- Check a program by the rules of the language. -/
def Program.check (p : Program) (options : CheckOptions) : Except InferFailure Checked :=
  p.checkBy (.standard options.extraTypes) options.resilient options.seed options.prelude

end LetPoly
