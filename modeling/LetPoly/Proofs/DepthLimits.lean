-- The limit on the depth of calls only cuts off. A run under a limit either is cut off
-- there or never meets it, and in the second case it is the same run under every larger
-- limit: no step on the way looks at the limit, and none goes on after a cut-off.
import LetPoly.Eval
import LetPoly.Proofs.Steps

namespace LetPoly

namespace Eval

variable {α β : Type}

/-! ## Steps that are cut off -/

/-- A run ends where calls are nested too deep. -/
def CutOff (r : EStateM.Result EvalFailure Nat α) : Prop := ∃ n, r = .error .tooDeep n

/-- Wherever two steps start, the first is cut off, or both end in the same way. -/
def Curtails (x y : Eval α) : Prop := ∀ n, CutOff (x n) ∨ y n = x n

theorem curtails_refl (x : Eval α) : Curtails x x := fun _ => .inr rfl

theorem curtails_tooDeep (y : Eval α) : Curtails (throw .tooDeep) y := fun n => .inl ⟨n, rfl⟩

/-- A cut-off goes through to the end: what comes after it is not done. -/
theorem Curtails.bind {x y : Eval α} {k l : α → Eval β} (hx : Curtails x y)
    (hk : ∀ a, Curtails (k a) (l a)) : Curtails (x >>= k) (y >>= l) := by
  intro n
  rcases hx n with ⟨n', hcut⟩ | hsame
  · exact .inl ⟨n', bind_of_error hcut⟩
  · rcases hr : x n with ⟨a, n'⟩ | ⟨e, n'⟩
    · rw [hr] at hsame
      rw [bind_of_ok hr, bind_of_ok hsame]
      exact hk a n'
    · rw [hr] at hsame
      rw [bind_of_error hr, bind_of_error hsame]
      exact .inr rfl

/-! ## Expressions and statements -/

/-- Each call by the first caller is cut off, or ends as the same call by the second. -/
def Caller.Curtails (c c' : Caller) : Prop :=
  ∀ f args node, Eval.Curtails (c f args node) (c' f args node)

variable {c c' : Caller}

mutual

/-- The only step of an expression that depends on the limit is a call. -/
theorem curtails_evaluate (hc : c.Curtails c') (e : Term) (scope : Scope) :
    Curtails (evaluate c e scope) (evaluate c' e scope) := by
  match e with
  | .number n l | .boolean b l | .name x l | .lambda params body l
  | .letBinding x value annotation l | .definition f params annotation body l | .discard e l
  | .strayParam p | .strayType t | .strayProgram statements result l => exact curtails_refl _
  | .binary left operator right l =>
    rw [evaluate, evaluate]
    refine (curtails_evaluate hc left scope).bind fun a => ?_
    refine (curtails_evaluate hc right scope).bind fun b => ?_
    exact curtails_refl _
  | .call callee arguments l =>
    rw [evaluate, evaluate]
    refine (curtails_evaluate hc callee scope).bind fun f => ?_
    refine (curtails_evaluateAll hc arguments scope).bind fun vs => ?_
    exact hc f vs _
  | .block statements none l =>
    rw [evaluate, evaluate]
    exact (curtails_executeAll hc statements scope).bind fun _ => curtails_refl _
  | .block statements (some result) l =>
    rw [evaluate, evaluate]
    exact (curtails_executeAll hc statements scope).bind fun inner =>
      curtails_evaluate hc result inner
  | .conditional condition thenBranch elseBranch l =>
    rw [evaluate, evaluate]
    refine (curtails_evaluate hc condition scope).bind fun v => ?_
    split
    · exact curtails_evaluate hc thenBranch scope
    · exact curtails_evaluate hc elseBranch scope

theorem curtails_execute (hc : c.Curtails c') (e : Term) (scope : Scope) :
    Curtails (execute c e scope) (execute c' e scope) := by
  match e with
  | .letBinding x value annotation l =>
    rw [execute, execute]
    exact (curtails_evaluate hc value scope).bind fun _ => curtails_refl _
  | .discard e l =>
    rw [execute, execute]
    exact (curtails_evaluate hc e scope).bind fun _ => curtails_refl _
  | .definition f params annotation body l | .number n l | .boolean b l | .name x l
  | .binary left operator right l | .call callee arguments l | .lambda params body l
  | .block statements result l | .conditional condition thenBranch elseBranch l | .strayParam p
  | .strayType t | .strayProgram statements result l => exact curtails_refl _

theorem curtails_evaluateAll (hc : c.Curtails c') (es : List Term) (scope : Scope) :
    Curtails (evaluateAll c es scope) (evaluateAll c' es scope) := by
  match es with
  | [] => exact curtails_refl _
  | e :: es =>
    rw [evaluateAll, evaluateAll]
    refine (curtails_evaluate hc e scope).bind fun v => ?_
    exact (curtails_evaluateAll hc es scope).bind fun _ => curtails_refl _

theorem curtails_executeAll (hc : c.Curtails c') (es : List Term) (scope : Scope) :
    Curtails (executeAll c es scope) (executeAll c' es scope) := by
  match es with
  | [] => exact curtails_refl _
  | e :: es =>
    rw [executeAll, executeAll]
    exact (curtails_execute hc e scope).bind fun inner => curtails_executeAll hc es inner

end

/-! ## Calls -/

theorem call_closure (d id : Nat) (name : String) (params : List String) (body : Term)
    (scope : Scope) (args : List Value) (node : Tag) :
    call d (.closure id name params body scope) args node =
      if args.length ≠ params.length then fail (.wrongCount name params.length args.length) node
      else match d with
        | 0 => throw .tooDeep
        | d + 1 => evaluate (call d) body (scope.bindAll (params.zip args)) := by
  cases d <;> rw [call]

/-- A call under a limit is cut off, or it is the same call under every larger limit: its body is
evaluated with calls under limits that are less by one. -/
theorem curtails_call {d d' : Nat} (h : d ≤ d') : Caller.Curtails (call d) (call d') := by
  intro f args node
  match f with
  | .unit | .boolean b | .number n => cases d <;> cases d' <;> exact curtails_refl _
  | .closure id name params body scope =>
    rw [call_closure, call_closure]
    split
    · exact curtails_refl _
    · match d, d', h with
      | 0, _, _ => exact curtails_tooDeep _
      | d + 1, d' + 1, h =>
        exact curtails_evaluate (curtails_call (Nat.le_of_succ_le_succ h)) body _

end Eval

/-! ## Programs -/

namespace Program

theorem curtails_enter (p : Program) {d d' : Nat} (h : d ≤ d') (scope : Scope) (entry : Entry) :
    Eval.Curtails (p.enter d scope entry) (p.enter d' scope entry) := by
  cases entry with
  | result e => exact Eval.curtails_evaluate (Eval.curtails_call h) e scope
  | main f => exact Eval.curtails_call h f [] p.tag
  | nothing => exact Eval.curtails_refl _

theorem curtails_evaluate (p : Program) {d d' : Nat} (h : d ≤ d') :
    Eval.Curtails (p.evaluate d) (p.evaluate d') :=
  (Eval.curtails_executeAll (Eval.curtails_call h) p.statements .empty).bind fun scope =>
    p.curtails_enter h scope (p.entry scope)

theorem run_of_cutOff {p : Program} {d : Nat} (h : Eval.CutOff (p.evaluate d 0)) :
    p.run d = .error (.error ⟨.depthExceeded, p.tag⟩) := by
  obtain ⟨n, hn⟩ := h
  rw [run, hn]

end Program

/-- The limit on the depth of calls only cuts off. A program that ends under a limit in anything
but the cut-off ends in the same way under every larger limit, with the same value or the same
failure. A program that is cut off under every limit is reported as too deep under every limit, at
the program itself. -/
theorem the_depth_limit_only_cuts_off (p : Program) :
    (∀ d d', d ≤ d' → ¬ Eval.CutOff (p.evaluate d 0) →
      p.evaluate d' 0 = p.evaluate d 0 ∧ p.run d' = p.run d) ∧
    ((∀ d, Eval.CutOff (p.evaluate d 0)) →
      ∀ d, ∃ e : EvalError, p.run d = .error (.error e) ∧
        e.reason.message = "maximum recursion depth exceeded" ∧ e.node = p.tag) := by
  refine ⟨fun d d' h hcut => ?_, fun hcut d => ?_⟩
  · have hsame := (p.curtails_evaluate h 0).resolve_left hcut
    exact ⟨hsame, by rw [Program.run, Program.run, hsame]⟩
  · exact ⟨_, Program.run_of_cutOff (hcut d), rfl, rfl⟩

/-- `def down(n) { if n <= 0 { down == down } else { down(n - 1) } } down(3)` -/
def downProgram : Program where
  statements :=
    [.definition "down" [⟨"n", none, none⟩] none
      (.block [] (some (.conditional (.binary (.name "n" none) "<=" (.number 0 none) none)
        (.block [] (some (.binary (.name "down" none) "==" (.name "down" none) none)) none)
        (.block [] (some (.call (.name "down" none)
          [.binary (.name "n" none) "-" (.number 1 none) none] none)) none) none)) none) none]
  result := some (.call (.name "down" none) [.number 3 none] none)
  file := "down.sfl"
  location := some ⟨"down.sfl", 1, 1⟩

/-- `def main() { main() }` -/
def loopProgram : Program where
  statements :=
    [.definition "main" [] none (.block [] (some (.call (.name "main" none) [] none)) none) none]
  result := none
  file := "loop.sfl"
  location := some ⟨"loop.sfl", 1, 1⟩

theorem cutOff_loopProgram (d : Nat) : Eval.CutOff (loopProgram.evaluate d 0) := by
  have hcall : ∀ (node : Tag) (n : Nat), Eval.call d (.closure 0 "main" []
      (.block [] (some (.call (.name "main" none) [] none)) none)
      (.define 0 "main" [] (.block [] (some (.call (.name "main" none) [] none)) none) .empty))
      [] node n = .error .tooDeep n := by
    induction d with
    | zero =>
      intro node n
      rfl
    | succ d ih =>
      -- the body calls the function again, one level further down
      intro node n
      exact ih _ n
  exact ⟨1, hcall _ 1⟩

/-- Four calls in one another are within every limit from four on; a function that calls itself for
ever is within none. -/
theorem the_depth_limit_only_cuts_off_what_is_too_deep :
    (∀ d, 4 ≤ d → downProgram.run d = .ok (.boolean true)) ∧
    ∀ d, ∃ e : EvalError, loopProgram.run d = .error (.error e) ∧
      e.reason.message = "maximum recursion depth exceeded" ∧ e.node = loopProgram.tag := by
  have hend : downProgram.evaluate 4 0 = .ok (.boolean true) 1 := rfl
  have hcut : ¬ Eval.CutOff (downProgram.evaluate 4 0) := by
    rintro ⟨n, hn⟩
    rw [hend] at hn
    cases hn
  refine ⟨fun d hd => ?_, ?_⟩
  · rw [((the_depth_limit_only_cuts_off downProgram).1 4 d hd hcut).2, Program.run, hend]
  · exact (the_depth_limit_only_cuts_off loopProgram).2 cutOff_loopProgram

end LetPoly
