-- No variable is captured. A check that starts without names meets every expression and
-- every statement, however deep, in an environment whose schemes bind none of its free
-- variables, and what is put in for a variable that stands free in a scheme holds none
-- that the scheme binds.
import LetPoly.Proofs.OrderlyRuns
import LetPoly.Proofs.SettledStages

namespace LetPoly

/-! ## Checks that are watched -/

namespace Check

/-- The items in the slots from `slot` on, watched: what the check of them comes to, and what is
done on the way. -/
def watchItems (rules : Rules) (resilient : Bool) :
    List Term → Nat → State → Except InferFailure (State × Bool) × List Action
  | [], _, st => (.ok (st, true), [])
  | item :: more, slot, st =>
    let run := Watched.check rules item st.env [slot] ⟨.start st.next, []⟩
    let rest := match Watched.outcome run with
      | .ok (s, env) after =>
        match finalTypes s after.types with
        | .ok types => watchItems rules resilient more (slot + 1) (accept st item env types after)
        | .error failure => (.error failure, [])
      | .error (.typeError error) after =>
        let st := reject st error after
        if resilient then
          let (env, next) := recover rules [slot] item st.env st.next
          watchItems rules resilient more (slot + 1) { st with env, next }
        else
          (.ok (st, false), [])
      | .error failure _ => (.error failure, [])
    (rest.1, Watched.actions run ++ rest.2)

/-- What is done for the last expression, which stands in the given slot. -/
def watchResult (rules : Rules) (slot : Nat) (st : State) : Option Term → List Action
  | none => []
  | some e => Watched.actions (Watched.infer rules e st.env [slot] ⟨.start st.next, []⟩)

end Check

/-- The check of a program, watched: what it comes to, and what is done on the way. -/
def Program.watch (p : Program) (options : CheckOptions) :
    Except InferFailure Checked × List Action :=
  let rules := Rules.standard options.extraTypes
  match Check.watchItems rules options.resilient p.statements 0
    ⟨options.prelude, options.seed, .start⟩ with
  | (.ok (st, true), actions) =>
    (Check.result rules p.statements.length st p.result,
      actions ++ Check.watchResult rules p.statements.length st p.result)
  | (.ok (st, false), actions) => (.ok st.checked, actions)
  | (.error failure, actions) => (.error failure, actions)

namespace Check

theorem watchItems_fst (rules : Rules) (resilient : Bool) (es : List Term) (slot : Nat)
    (st : State) :
    (watchItems rules resilient es slot st).1 = items rules resilient es slot st := by
  induction es generalizing slot st with
  | nil => rfl
  | cons item es ih =>
    have hshows : Watched.outcome
        (Watched.check rules item st.env [slot] ⟨.start st.next, []⟩) =
          Infer.check rules item st.env [slot] (.start st.next) :=
      Watched.shows_check rules item st.env [slot] _
    unfold watchItems items
    dsimp only
    rw [hshows]
    rcases Infer.check rules item st.env [slot] (.start st.next) with
      ⟨⟨s, env⟩, after⟩ | ⟨failure, after⟩
    · rcases hfinal : finalTypes s after.types with failure | types
      · simp [hfinal, bind, Except.bind]
      · simp only [hfinal, bind, Except.bind, ih]
    · cases failure with
      | typeError error =>
        cases resilient with
        | false => rfl
        | true => simp only [if_true, ih]
      | cyclic | notExpression _ | notStatement _ | malformed _ _ => rfl

end Check

/-- Watched, the check of a program comes to what it comes to. -/
theorem Program.watch_fst (p : Program) (options : CheckOptions) :
    (p.watch options).1 = p.check options := by
  have hitems := Check.watchItems_fst (.standard options.extraTypes) options.resilient
    p.statements 0 ⟨options.prelude, options.seed, .start⟩
  unfold Program.watch Program.check Program.checkBy
  dsimp only
  rw [← hitems]
  rcases Check.watchItems (.standard options.extraTypes) options.resilient p.statements 0
    ⟨options.prelude, options.seed, .start⟩ with ⟨failure | ⟨st, _ | _⟩, actions⟩ <;> rfl

/-! ## All that is done is in order -/

namespace Check

variable {rules : Rules}

/-- No scheme has a free variable between two items, so inference is ready for the next one. -/
theorem Stage.Settled.ready {stage : Stage} (h : stage.Settled) :
    stage.env.Ready True stage.next :=
  h.below.ready_of_separate fun _ _ v _ hv => h.closed v hv

/-- What is done for items that follow a settled stage is in order, and leaves a settled stage. -/
theorem orderly_watchItems (hr : rules.Proper) (resilient : Bool) (es : List Term) (slot : Nat)
    (st : State) (hs : Stage.Settled ⟨st.env, st.next⟩) :
    (∀ a ∈ (watchItems rules resilient es slot st).2, a.Orderly True) ∧
      ∀ st' through, (watchItems rules resilient es slot st).1 = .ok (st', through) →
        Stage.Settled ⟨st'.env, st'.next⟩ := by
  induction es generalizing slot st with
  | nil =>
    refine ⟨nofun, fun st' through h => ?_⟩
    cases h
    exact hs
  | cons item es ih =>
    have hitem := (Watched.keeps_check True hr item st.env [slot] st.next hs.ready).orderly
      (.start st.next) rfl
    have hshows : Watched.outcome
        (Watched.check rules item st.env [slot] ⟨.start st.next, []⟩) =
          Infer.check rules item st.env [slot] (.start st.next) :=
      Watched.shows_check rules item st.env [slot] _
    unfold watchItems
    dsimp only
    rw [List.forall_mem_append]
    refine and_assoc.2 ⟨hitem, ?_⟩
    rw [hshows]
    rcases hrun : Infer.check rules item st.env [slot] (.start st.next) with
      ⟨⟨s, env⟩, after⟩ | ⟨failure, after⟩
    · rcases hfinal : finalTypes s after.types with failure | types
      · simp [hfinal]
      · have hinspect : inspect rules resilient item slot ⟨st.env, st.next⟩ = _ :=
          inspect_of_ok _ hrun hfinal
        have hnext : Stage.Settled ⟨env, after.next⟩ := hs.next hr hinspect
        simp only [hfinal]
        exact ih (slot + 1) _ (by simpa using hnext)
    · cases failure with
      | typeError error =>
        cases resilient with
        | false =>
          refine ⟨nofun, fun st' through h => ?_⟩
          cases h
          have hentered : Entered item st.env after.next st.env := .same
          exact hs.entered (next_le_of_check_error hr hs hrun) hentered
        | true => exact ih (slot + 1) _ (hs.next hr (inspect_of_error ⟨st.env, st.next⟩ hrun))
      | cyclic | notExpression _ | notStatement _ | malformed _ _ => exact ⟨nofun, nofun⟩

end Check

/-- All that is done in a check that starts without names is in order. -/
theorem Program.orderly_watch (p : Program) (extraTypes : List String) (resilient : Bool)
    (seed : Int) :
    ∀ a ∈ (p.watch ⟨extraTypes, resilient, seed, Table.empty⟩).2, a.Orderly True := by
  have hr := Rules.proper_standard extraTypes
  obtain ⟨hitems, hlast⟩ := Check.orderly_watchItems hr resilient p.statements 0
    ⟨Table.empty, seed, .start⟩ (Check.settled_empty seed)
  unfold Program.watch
  dsimp only
  generalize Check.watchItems (.standard extraTypes) resilient p.statements 0
    ⟨Table.empty, seed, .start⟩ = watched at hitems hlast ⊢
  obtain ⟨failure | ⟨st, _ | _⟩, actions⟩ := watched
  · exact hitems
  · exact hitems
  · have hsettled := hlast st true rfl
    refine List.forall_mem_append.2 ⟨hitems, ?_⟩
    cases p.result with
    | none => exact nofun
    | some e =>
      exact (Watched.keeps_infer True hr e st.env _ st.next hsettled.ready).orderly
        (.start st.next) rfl

/-- In a check that starts without names, whether it goes on after errors or not, every environment
that an expression or a statement is met in has schemes that bind none of its free variables. When
a substitution is applied to an environment, what is put in for a variable that stands free in a
scheme holds none that the scheme binds. -/
theorem no_variable_is_captured (p : Program) (extraTypes : List String) (resilient : Bool)
    (seed : Int) :
    (p.watch ⟨extraTypes, resilient, seed, Table.empty⟩).1 =
        p.check ⟨extraTypes, resilient, seed, Table.empty⟩ ∧
      (∀ env, .met env ∈ (p.watch ⟨extraTypes, resilient, seed, Table.empty⟩).2 →
        ∀ scheme ∈ env.values, ∀ v ∈ scheme.quantified, v ∉ env.freeVars) ∧
      ∀ s env, .appliedEnv s env ∈ (p.watch ⟨extraTypes, resilient, seed, Table.empty⟩).2 →
        ∀ scheme ∈ env.values, ∀ x ∈ scheme.freeVars,
          ∃ t, s.expand? (.var x) = some t ∧ ∀ v ∈ t.leaves, v ∉ scheme.quantified := by
  have horderly := p.orderly_watch extraTypes resilient seed
  refine ⟨p.watch_fst _, fun env h => horderly _ h trivial, fun s env h scheme hs x hx => ?_⟩
  obtain ⟨hsolved, hclean⟩ := horderly _ h
  exact ⟨s.image x, hsolved.expand? (.var x), hclean trivial scheme hs x hx⟩

/-- `def f(x) { let k = \y -> x; k(true) + k(1) }` -/
def constantProgram : Program where
  statements := [.definition "f" [⟨"x", none, none⟩] none
    (.block [.letBinding "k" (.lambda [⟨"y", none, none⟩] (.name "x" none) none) none none]
      (some (.binary (.call (.name "k" none) [.boolean true none] none) "+"
        (.call (.name "k" none) [.number 1 none] none) none)) none) none]
  result := none
  file := ""
  location := none

/-- The scheme of `k` binds one variable, and another is put in for the one that stands free. -/
example : (constantProgram.watch ⟨[], true, 0, Table.empty⟩).2.elem
    (.appliedEnv (.ofList [(3, .var 4), (0, .var 5)])
      (.ofList [("f", .mono (.fn [.var 0] (.var 1))), ("x", .mono (.var 0)),
        ("k", .quantify [2] (.fn [.var 2] (.var 0)))])) = true := by
  cbv

end LetPoly
