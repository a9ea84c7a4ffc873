-- Where errors are found. A check puts its errors down to nodes of the program, and
-- so does a run, since the bodies of closures are parts of the program; only a run
-- that is cut off is an error of the program as a whole.
import LetPoly.Eval
import LetPoly.Proofs.CheckedPrograms
import LetPoly.Proofs.NodeLocations

namespace LetPoly

variable {Known : Option Location → Prop}

/-! ## Errors of a check -/

namespace Check

variable {rules : Rules}

/-- Items add errors at their own nodes. -/
theorem located_items {resilient : Bool} {es : List Term} (hes : ∀ e ∈ es, e.Located Known)
    {slot : Nat} {st st' : State} {through : Bool}
    (h : items rules resilient es slot st = .ok (st', through))
    (hst : ∀ error ∈ st.checked.errors, error.Located Known) :
    ∀ error ∈ st'.checked.errors, error.Located Known := by
  induction es generalizing slot st with
  | nil =>
    cases h
    exact hst
  | cons item es ih =>
    obtain ⟨hitem, hes⟩ := List.forall_mem_cons.1 hes
    rcases items_cons h with ⟨s, env, after, types, -, -, h⟩ | ⟨error, after, hrun, hrest⟩
    · exact ih hes h (by simpa using hst)
    · have herror : error.Located Known := Infer.located_of_check hitem hrun
      have hreject : ∀ e ∈ (reject st error after).checked.errors, e.Located Known :=
        List.forall_mem_append.2 ⟨hst, List.forall_mem_singleton.2 herror⟩
      rcases hrest with rfl | ⟨env, next, h⟩
      · exact hreject
      · exact ih hes h hreject

/-- The last expression adds an error at one of its nodes at most. -/
theorem located_result {slot : Nat} {st : State} {e : Option Term}
    (he : ∀ e', e = some e' → e'.Located Known) {c : Checked}
    (h : result rules slot st e = .ok c)
    (hst : ∀ error ∈ st.checked.errors, error.Located Known) :
    ∀ error ∈ c.errors, error.Located Known := by
  cases e with
  | none =>
    cases h
    exact hst
  | some e =>
    rw [result] at h
    rcases hrun : Infer.infer rules e st.env [slot] (.start st.next) with
      ⟨⟨s, t⟩, after⟩ | ⟨failure, after⟩
    · rw [hrun] at h
      rcases hfinal : finalTypes s after.types with failure | types
      · simp [hfinal, bind, Except.bind] at h
      rcases ht : s.expand? t with _ | u
      · simp [hfinal, ht, bind, Except.bind] at h
      · simp only [hfinal, ht, bind, Except.bind, Except.ok.injEq] at h
        subst h
        exact hst
    · rw [hrun] at h
      cases failure with
      | typeError error =>
        cases h
        have herror : error.Located Known := Infer.located_of_infer (he e rfl) hrun
        exact List.forall_mem_append.2 ⟨hst, List.forall_mem_singleton.2 herror⟩
      | cyclic | notExpression _ | notStatement _ | malformed _ _ => cases h

end Check

/-- Every error of a check is put down to a node of the program. -/
theorem Program.located_of_check {p : Program} (hp : p.Located Known) {options : CheckOptions}
    {c : Checked} (h : p.check options = .ok c) : ∀ error ∈ c.errors, error.Located Known := by
  rw [Program.check, Program.checkBy] at h
  rcases hitems : Check.items (.standard options.extraTypes) options.resilient p.statements 0
    ⟨options.prelude, options.seed, .start⟩ with failure | ⟨st, through⟩
  · rw [hitems] at h
    cases h
  · have hst := Check.located_items hp.statements hitems (by simp [Checked.start])
    rw [hitems] at h
    cases through with
    | false =>
      obtain rfl : st.checked = c := by simpa [bind, Except.bind] using h
      exact hst
    | true => exact Check.located_result hp.result h hst

/-! ## Values and scopes -/

mutual

/-- The functions in a value have bodies with known locations. -/
inductive Value.Located (Known : Option Location → Prop) : Value → Prop
  | unit : Value.Located Known .unit
  | boolean {b : Bool} : Value.Located Known (.boolean b)
  | number {n : Int} : Value.Located Known (.number n)
  | closure {id : Nat} {name : String} {params : List String} {body : Term} {scope : Scope} :
    body.Located Known → Scope.Located Known scope →
    Value.Located Known (.closure id name params body scope)

/-- The functions in a scope have bodies with known locations. -/
inductive Scope.Located (Known : Option Location → Prop) : Scope → Prop
  | empty : Scope.Located Known .empty
  | bind {x : String} {v : Value} {outer : Scope} :
    Value.Located Known v → Scope.Located Known outer → Scope.Located Known (.bind x v outer)
  | define {id : Nat} {f : String} {params : List String} {body : Term} {outer : Scope} :
    body.Located Known → Scope.Located Known outer →
    Scope.Located Known (.define id f params body outer)

end

theorem Scope.Located.get? {scope : Scope} (h : scope.Located Known) {x : String} {v : Value}
    (hv : scope.get? x = some v) : v.Located Known := by
  match h with
  | .empty => cases hv
  | .bind hvalue houter =>
    rw [Scope.get?] at hv
    split at hv
    · cases hv
      exact hvalue
    · exact houter.get? hv
  | .define hbody houter =>
    rw [Scope.get?] at hv
    split at hv
    · cases hv
      exact .closure hbody (.define hbody houter)
    · exact houter.get? hv

theorem Scope.Located.bindAll {scope : Scope} (h : scope.Located Known)
    {pairs : List (String × Value)} (hpairs : ∀ pair ∈ pairs, pair.2.Located Known) :
    (scope.bindAll pairs).Located Known := by
  induction pairs generalizing scope with
  | nil => exact h
  | cons pair pairs ih =>
    obtain ⟨hpair, hpairs⟩ := List.forall_mem_cons.1 hpairs
    exact ih (.bind hpair h) hpairs

/-! ## Errors of a run -/

/-- A failure that is no error of its own, or one at a known location. -/
def EvalFailure.Located (Known : Option Location → Prop) : EvalFailure → Prop
  | error e => Known e.node.location
  | _ => True

namespace Eval

variable {α : Type}

/-- A step of evaluation gives an answer as the condition says, or fails at a known location. -/
abbrev Blames (Known : Option Location → Prop) (x : Eval α) (P : α → Prop) : Prop :=
  Leads (fun _ => ()) x () (fun a _ => P a) (EvalFailure.Located Known)

/-- Calls at nodes with known locations, of values with known locations. -/
def BlamesCaller (Known : Option Location → Prop) (call : Caller) : Prop :=
  ∀ f args node, f.Located Known → (∀ v ∈ args, v.Located Known) → Known node.location →
    Blames Known (call f args node) (Value.Located Known)

theorem blames_freshId : Blames Known freshId fun _ => True :=
  fun _ _ => trivial

theorem blames_arithmetic {operator : String} {f : Int → Int → Value}
    (hf : ∀ m n, (f m n).Located Known) (a b : Value) :
    Blames Known (arithmetic operator f a b) (Value.Located Known) := by
  unfold arithmetic
  split
  · exact leads_pure (hf _ _)
  · exact leads_throw trivial

theorem blames_operate {node : Tag} (h : Known node.location) (operator : String) (a b : Value) :
    Blames Known (operate operator a b node) (Value.Located Known) := by
  unfold operate
  split
  · unfold divide
    split
    · exact leads_throw h
    · exact blames_arithmetic (fun _ _ => .number) a b
  · exact blames_arithmetic (fun _ _ => .number) a b
  · exact blames_arithmetic (fun _ _ => .number) a b
  · exact blames_arithmetic (fun _ _ => .number) a b
  · exact blames_arithmetic (fun _ _ => .boolean) a b
  · exact blames_arithmetic (fun _ _ => .boolean) a b
  · exact blames_arithmetic (fun _ _ => .boolean) a b
  · exact blames_arithmetic (fun _ _ => .boolean) a b
  · exact leads_pure .boolean
  · exact leads_pure .boolean
  · exact leads_throw trivial

variable {call : Caller}

/-- What an expression and a statement come to in a scope with known locations. -/
structure BlamesWithin (Known : Option Location → Prop) (call : Caller) (e : Term) : Prop where
  evaluate : ∀ scope, scope.Located Known →
    Blames Known (evaluate call e scope) (Value.Located Known)
  execute : ∀ scope, scope.Located Known →
    Blames Known (execute call e scope) (Scope.Located Known)

theorem blames_evaluateAll {es : List Term} (hes : ∀ e ∈ es, BlamesWithin Known call e)
    {scope : Scope} (hscope : scope.Located Known) :
    Blames Known (evaluateAll call es scope) fun vs => ∀ v ∈ vs, v.Located Known := by
  induction es with
  | nil => exact leads_pure nofun
  | cons e es ih =>
    obtain ⟨he, hes⟩ := List.forall_mem_cons.1 hes
    rw [evaluateAll]
    refine (he.evaluate scope hscope).bind fun v _ hv => (ih hes).bind fun vs _ hvs => ?_
    exact leads_pure (List.forall_mem_cons.2 ⟨hv, hvs⟩)

theorem blames_executeAll {es : List Term} (hes : ∀ e ∈ es, BlamesWithin Known call e)
    {scope : Scope} (hscope : scope.Located Known) :
    Blames Known (executeAll call es scope) (Scope.Located Known) := by
  induction es generalizing scope with
  | nil => exact leads_pure hscope
  | cons e es ih =>
    obtain ⟨he, hes⟩ := List.forall_mem_cons.1 hes
    rw [executeAll]
    exact (he.execute scope hscope).bind fun scope' _ hscope' => ih hes hscope'

theorem blamesWithin (hc : BlamesCaller Known call) {e : Term} (h : e.Located Known) :
    BlamesWithin Known call e := by
  have hstray : ∀ {α : Type} {P : α → Prop} {failure : EvalFailure}, failure.Located Known →
      Blames Known (throw failure : Eval α) P := fun h => leads_throw h
  induction h with
  | number _ => exact ⟨fun _ _ => leads_pure .number, fun _ _ => hstray trivial⟩
  | boolean _ => exact ⟨fun _ _ => leads_pure .boolean, fun _ _ => hstray trivial⟩
  | name h =>
    refine ⟨fun scope hscope => ?_, fun _ _ => hstray trivial⟩
    rw [evaluate]
    split
    · rename_i v hv
      exact leads_pure (hscope.get? hv)
    · exact leads_throw h
  | binary h _ _ ihleft ihright =>
    refine ⟨fun scope hscope => ?_, fun _ _ => hstray trivial⟩
    rw [evaluate]
    refine (ihleft.evaluate scope hscope).bind fun a _ _ => ?_
    refine (ihright.evaluate scope hscope).bind fun b _ _ => ?_
    exact blames_operate h _ a b
  | call h _ _ ihcallee ihargs =>
    refine ⟨fun scope hscope => ?_, fun _ _ => hstray trivial⟩
    rw [evaluate]
    refine (ihcallee.evaluate scope hscope).bind fun f _ hf => ?_
    refine (blames_evaluateAll ihargs hscope).bind fun vs _ hvs => ?_
    exact hc f vs _ hf hvs h
  | lambda _ _ hbody _ =>
    refine ⟨fun scope hscope => ?_, fun _ _ => hstray trivial⟩
    rw [evaluate]
    exact blames_freshId.bind fun id _ _ => leads_pure (.closure hbody hscope)
  | @block statements result l _ _ _ ihs ihresult =>
    refine ⟨fun scope hscope => ?_, fun _ _ => hstray trivial⟩
    cases result with
    | none =>
      rw [evaluate]
      exact (blames_executeAll ihs hscope).bind fun _ _ _ => leads_pure .unit
    | some result =>
      rw [evaluate]
      exact (blames_executeAll ihs hscope).bind fun inner _ hinner =>
        (ihresult result rfl).evaluate inner hinner
  | conditional _ _ _ _ ihcond ihthen ihelse =>
    refine ⟨fun scope hscope => ?_, fun _ _ => hstray trivial⟩
    rw [evaluate]
    refine (ihcond.evaluate scope hscope).bind fun c _ _ => ?_
    split
    · exact ihthen.evaluate scope hscope
    · exact ihelse.evaluate scope hscope
  | letBinding _ _ _ ihvalue =>
    refine ⟨fun _ _ => hstray trivial, fun scope hscope => ?_⟩
    rw [execute]
    exact (ihvalue.evaluate scope hscope).bind fun v _ hv => leads_pure (.bind hv hscope)
  | definition _ _ _ hbody _ =>
    refine ⟨fun _ _ => hstray trivial, fun scope hscope => ?_⟩
    rw [execute]
    exact blames_freshId.bind fun id _ _ => leads_pure (.define hbody hscope)
  | discard _ _ ihvalue =>
    refine ⟨fun _ _ => hstray trivial, fun scope hscope => ?_⟩
    rw [execute]
    exact (ihvalue.evaluate scope hscope).bind fun _ _ _ => leads_pure hscope

/-- A call fails at its own node or at one of the function's body. -/
theorem blamesCaller (depth : Nat) : BlamesCaller Known (Eval.call depth) := by
  intro f args node hf hargs hnode
  fun_cases Eval.call depth f args node with
  | case1 => exact leads_throw hnode
  | case2 => exact leads_throw trivial
  | case3 id name params body scope =>
    rename_i depth hlength
    cases hf with
    | closure hbody hscope =>
      refine (blamesWithin (blamesCaller depth) hbody).evaluate _ (hscope.bindAll ?_)
      rintro ⟨x, v⟩ hpair
      exact hargs v (List.of_mem_zip hpair).2
  | case4 => exact leads_throw hnode
  | case5 => exact leads_throw trivial

end Eval

namespace Program

/-- A run fails at a node of the program, or it is cut off. -/
theorem blames_evaluate {p : Program} (hp : p.Located Known) (depth : Nat) :
    Eval.Blames Known (p.evaluate depth) fun _ => True := by
  have hc : Eval.BlamesCaller Known (Eval.call depth) := Eval.blamesCaller depth
  have hstatements := fun e he => Eval.blamesWithin hc (hp.statements e he)
  rw [evaluate]
  refine (Eval.blames_executeAll hstatements .empty).bind fun scope _ hscope => ?_
  unfold entry
  split
  · rename_i e he
    exact ((Eval.blamesWithin hc (hp.result e he)).evaluate scope hscope).imp fun _ _ _ => trivial
  · rename_i id name body outer hresult hmain
    cases hscope.get? hmain with
    | closure hbody houter =>
      -- `main` has no parameters, so the call itself cannot fail
      show Eval.Blames Known (Eval.call depth _ _ _) _
      cases depth with
      | zero => exact leads_throw trivial
      | succ depth =>
        refine ((Eval.blamesWithin (Eval.blamesCaller depth) hbody).evaluate _ houter).imp ?_
        exact fun _ _ _ => trivial
  · exact leads_pure trivial

/-- An error of a run is at a node of the program, or at the program itself if the run was cut
off. -/
theorem located_of_run {p : Program} (hp : p.Located Known) {depth : Nat} {e : EvalError}
    (h : p.run depth = .error (.error e)) :
    Known e.node.location ∨ e = ⟨.depthExceeded, p.tag⟩ := by
  have hend := blames_evaluate hp depth 0 rfl
  rw [run] at h
  rcases hr : p.evaluate depth 0 with ⟨v, n⟩ | ⟨failure, n⟩
  · rw [hr] at h
    cases h
  · rw [hr] at h hend
    cases failure with
    | error e' =>
      cases h
      exact .inl hend
    | tooDeep =>
      cases h
      exact .inr rfl
    | wrongSorts | unknownOperator | unshowable | notExpression | notStatement => cases h

end Program

end LetPoly
