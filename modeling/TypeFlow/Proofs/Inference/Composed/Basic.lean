import TypeFlow.Proofs.Inference.Branches
import TypeFlow.Proofs.Inference.Course.Changes
import TypeFlow.Proofs.Inference.Walked
import TypeFlow.Proofs.Program.Forest
import TypeFlow.Proofs.Program.Methods

/-!
# What steps are composed of

`Composed setting s x`: taken in the state `s`, the step `x` is put together from reads, errors and
changes of the frame, from changes to the program that only add to it and record (`Quiet`), and from
the few things that a walk remembers and comes back to: methods that are typed and calls that are
bound to them, constants that are evaluated, macros that are expanded. Nothing is assumed of the
state; of the rest of a step it is only said what it is composed of in the states that the step
leads to. Whatever holds of these holds of the whole walk, by one induction; the first two such
properties stand here (`Composes.depth_eq`, `Composes.takes`).
-/

namespace TypeFlow

/-- The normalizer does not touch the count of expansions. -/
def Toolchain.Discreet (tools : Toolchain) : Prop :=
  ∀ p tree, (tools.normalize p tree).2.expansionDepth = p.expansionDepth

theorem Toolchain.Tidy.discreet {tools : Toolchain} (h : tools.Tidy) :
    tools.Discreet := fun p tree => by
  obtain ⟨count, hcount⟩ := h p tree
  rw [hcount]

/-- Constants are as far as they were, and those that have been declared since are pending. -/
structure Program.Declares (p p' : Program) : Prop where
  size_le : p.constants.size ≤ p'.constants.size
  state_eq : ∀ id : ConstantId, id.index < p.constants.size →
    (p'.constant id).state = (p.constant id).state
  pending : ∀ id : ConstantId, p.constants.size ≤ id.index → id.index < p'.constants.size →
    (p'.constant id).state = .pending

theorem Program.declares_of_eq {p p' : Program} (h : p'.constants = p.constants) :
    p.Declares p' where
  size_le := Nat.le_of_eq (congrArg Array.size h.symm)
  state_eq id _ := by rw [constant, h, constant]
  pending id hge hlt := (Nat.not_lt.mpr hge (h ▸ hlt)).elim

theorem Diagnostic.causes_of_isInternal {e : Diagnostic} (h : e.isInternal = true) :
    e.causes = [] := by
  cases e <;> first | rfl | cases h

namespace WalkState

/-- The type from which names are looked up. -/
def nameScope (s : WalkState) : TypeId :=
  match s.frame.scope with
  | some scope => s.program.types.described scope
  | none => s.frame.innermostType

/-- The call names the macro, and its arguments are of these kinds. -/
def OwnKey (s : WalkState) (call : ExprId) (key : ExpanderKey) : Prop :=
  ∃ name args block, s.program.construct call = .call none name args block ∧
    Infer.macroOf s.program.types s.nameScope name args.length = some key.definition ∧
    key.kinds = args.map fun arg => (s.program.construct arg).kind

theorem OwnKey.of_eq {s s' : WalkState} {call : ExprId} {key : ExpanderKey} (h : s.OwnKey call key)
    (hprogram : s'.program = s.program) (hframe : s'.frame = s.frame) : s'.OwnKey call key := by
  unfold OwnKey nameScope
  rw [hprogram, hframe]
  exact h

/-- A new instance has been recorded, and the node of its result. -/
def recording (s : WalkState) (key : MethodInstance) : WalkState :=
  (s.withProgram s.program.addVar.2).withMemo
    { s.memo with instances := s.memo.instances.insert key s.program.addVar.1 }

end WalkState

namespace Infer

/-- Where in an inference a step is taken. -/
inductive Stage where
  /-- Between the phases, where everything is left for the top level. -/
  | between
  | inside
  /-- In what a break does after its values have been walked. -/
  | leaving

variable {α β γ : Type} {setting : Setting} {stage : Stage} {s s' : WalkState}

/-- The step changes nothing, and its answer does not depend on what is remembered of calls. -/
def Reads (setting : Setting) (s : WalkState) (x : Infer α) (a : α) : Prop :=
  ∀ m, x.outcome setting (s.withMemo m) = (.ok a, s.withMemo m)

/-- A change that evaluates no constants and expands no calls, and redefines no names. -/
structure Quiet (setting : Setting) (s : WalkState) (p : Program) : Prop where
  course : setting.tools.Tidy → ∃ deeds, Course {setting.tools} s deeds (s.withProgram p)
  evaluating : p.evaluating = s.program.evaluating
  depth : p.expansionDepth = s.program.expansionDepth
  declares : s.program.Declares p
  registers : setting.tools.Tidy → s.program.Registers p
  names : s.program.types.KeepsNames p.types
  forest : s.program.Forest → p.Forest

/-- Types a method whose result has a node. -/
def typeInstance (walk : Step) (call : ExprId) (key : MethodInstance)
    (result : NodeId) (name : String)
    (params : List String) (body returnType : Option ExprId)
    (blockParam : Option (BlockParam ExprId)) : Infer Unit := do
  let vars ← paramVars (("self", key.owner) :: params.zip key.args) ∅
  let t ← types
  doing call (.instantiating (t.name key.owner) name (key.args.map t.name)) <|
    inFrame { vars, scope := some key.owner, result := some result, block := key.block } <|
      typeMethod walk result body returnType blockParam

/-- Walks the value of a constant in the surroundings that it was declared in. -/
def walkValue (walk : Step) (c : Constant) : Infer Unit :=
  inFrame { scope := c.scope, enclosing := c.enclosing } (walk c.value)

/-- What is made of an error on its way up: it is put below what was being done, it is placed, or it
is reported at the call that the generated source was made for. -/
inductive Boundary : (Diagnostic → Diagnostic) → Prop where
  | chain (id : ExprId) (place : Option Location) (problem : Problem) : Boundary
      (chain id place problem)
  /-- Only conflicts of frozen types are put below an assignment. -/
  | conflict (id : ExprId) (place : Option Location) (problem : Problem) :
      Boundary fun e => if e.isFrozenType then Infer.chain id place problem e else e
  | placedAt (place : Option Location) : Boundary (Diagnostic.placedAt place)
  | expansion (call : ExprId) (place : Option Location) (source : String) : Boundary
      (expansionError call place source)

/-- In a method and in a constant there is no loop and no block at first. -/
def Region.Sealed : Region → Prop
  | own frame => frame.loops = [] ∧ frame.insideBlock = none
  | _ => True

/-- What is done to the frame on the way in and out is to go through the region. -/
structure Region.Between (r : Region) (f : Frame) (enter : Frame → Frame)
    (leave : Frame → Frame → Frame) : Prop where
  enter : enter f = r.enter f
  leave : leave f = r.leave f
  isSealed : r.Sealed

/-- What a break does once its values have been walked. -/
def leaveBy (id : ExprId) (values : List ExprId) : Infer Unit := do
  let f ← frame
  match f.loops, f.insideBlock with
  | loop :: _, _ =>
    modifyProgram fun p => { p with brokenLoops := insertLast p.brokenLoops loop }
  | [], some block =>
    let target ← updateProgram fun p => p.breakNodeOf block
    bind target (← resultNodes values)
  | [], none => problemAt id .breakOutside
  giveType id .noReturn

inductive Composes (setting : Setting) : Stage → {α : Type} → WalkState → Infer α → Prop where
  | pure {stage : Stage} {α : Type} (s : WalkState) (a : α) : Composes setting stage
      s (pure a : Infer α)
  /-- What is raised has no causes. -/
  | throw {stage : Stage} {α : Type} (s : WalkState)
      {e : Failure} : (∀ d, e = .error d → d.causes = []) →
      Composes setting stage s (throw e : Infer α)
  | read {stage : Stage} {α β : Type} {s : WalkState} {x : Infer α} {f : α → Infer β} {a : α} :
      Reads setting s x a → Composes setting stage s (f a) → Composes setting stage s (x >>= f)
  | bind {stage : Stage} {α β : Type} {s : WalkState} {x : Infer α} {f : α → Infer β} :
      Composes setting stage s x →
        (∀ a s', x.Does setting s a s' → Composes setting stage s' (f a)) →
        Composes setting stage s (x >>= f)
  | mapError {α : Type} {s : WalkState} {x : Infer α} {f : Diagnostic → Diagnostic} : Boundary f →
      Composes setting .inside s x → Composes setting .inside s (mapError f x)
  | within {α : Type} {s : WalkState} {x : Infer α} (enter : Frame → Frame)
      (leave : Frame → Frame → Frame) {r : Region} : r.Between s.frame enter leave →
        Composes setting .inside (s.withFrame (enter s.frame)) x →
          Composes setting .inside s (within enter leave x)
  -- changes
  | frame (s : WalkState) {f : Frame → Frame} : (f s.frame).loops = s.frame.loops →
      (f s.frame).insideBlock = s.frame.insideBlock → Composes setting .inside s (modifyFrame f)
  | journal (s : WalkState) {f : Journal → Journal} :
      (∀ j, (f j).builds = j.builds ∧ (f j).expansions = j.expansions) →
        Composes setting .inside s (modifyJournal f)
  | update {stage : Stage} {α : Type} {s : WalkState} {f : Program → α × Program} :
      Quiet setting s (f s.program).2 → (f s.program).2.brokenLoops = s.program.brokenLoops →
        Composes setting stage s (updateProgram f)
  | normalize (s : WalkState) (tree : Tree) :
      Composes setting .inside s (updateProgram fun p => setting.tools.normalize p tree)
  /-- The name has been free before what has been done meanwhile, which may have taken it. -/
  | declaration {α : Type} {s : WalkState} {x : Infer α} {name : String} {kind : α → TypeKind} :
      s.program.types.IsFree s.frame.innermostType name → Composes setting .inside s x →
        (setting.tools.Tidy → ∀ a s', x.Does setting s a s' →
          s'.frame.innermostType = s.frame.innermostType) →
          Composes setting .inside s (x >>= fun a => declareHere name (kind a))
  -- phases
  | phase {α : Type} {s : WalkState} {x : Infer α} : Composes setting .inside s x →
      Composes setting .between s x
  | fresh (s : WalkState) : Composes setting .between s (modifyFrame fun _ => {})
  -- loops, and what leaves them
  /-- Only breaks mark loops. -/
  | marks {α : Type} {s : WalkState} {f : Program → α × Program} : Quiet setting s (f s.program).2 →
      Composes setting .leaving s (updateProgram f)
  | breaks {s : WalkState} {id : ExprId} {values : List ExprId} : Composes setting .leaving s
      (leaveBy id values) →
      Composes setting .inside s (leaveBy id values)
  | loop {s : WalkState} {fuel : Nat} {id cond : ExprId} {body : Option ExprId} :
      Composes setting .inside s (walkLoop (walk fuel) id cond body) →
        Composes setting .inside s (walkLoop (walk fuel) id cond body)
  -- what is remembered of calls
  | value (s : WalkState) (type : TypeId) : Composes setting .inside s (knownValue type)
  | rebind (s : WalkState) (call : ExprId) (targets : List NodeId) : Composes setting .inside s
      (rebind call targets)
  | recalled {s : WalkState} {fuel : Nat} {call : ExprId} {key : MethodInstance} {result : NodeId} :
      s.memo.instances.get? key = some result →
        Composes setting .inside s
          (methodResult (walk fuel) call key.owner key.definition key.args key.block)
  | instance {s : WalkState} {fuel : Nat} {call : ExprId} {key : MethodInstance}
      {receiver : Option ExprId}
      {name : String} {params : List String} {body returnType : Option ExprId}
      {blockParam : Option (BlockParam ExprId)} : s.memo.instances.get? key = none →
        s.program.construct key.definition = .methodDef receiver name params body
          returnType blockParam → Composes setting .inside (s.recording key)
            (typeInstance (walk fuel) call key s.program.addVar.1 name params body
              returnType blockParam) →
              Composes setting .inside s
                (methodResult (walk fuel) call key.owner key.definition key.args key.block)
  /-- What is registered is no method. -/
  | stray {s : WalkState} {fuel : Nat} {call : ExprId} {key : MethodInstance} :
      s.memo.instances.get? key = none →
      (∃ owner name, (s.program.types.get owner).defs.get? name = some key.definition) →
      (∀ receiver name params body returnType blockParam,
        s.program.construct key.definition ≠ .methodDef receiver name params body
          returnType blockParam) →
          Composes setting .inside s
            (methodResult (walk fuel) call key.owner key.definition key.args key.block)
  -- constants
  | evaluation {s : WalkState} {fuel : Nat} {reference : ExprId} {const : ConstantId} :
      (s.program.constant const).state = .pending →
        Composes setting .inside (s.withProgram (s.program.beginConstant const))
          (walkValue (walk fuel) (s.program.constant const)) →
            Composes setting .inside s (evaluateConstant (walk fuel) reference const)
  -- expansions
  | expander (s : WalkState) (definition : ExprId) (args : List ExprId) :
      Composes setting .inside s (expanderFor definition args)
  | expand {s : WalkState} {call : ExprId} {key : ExpanderKey}
      {expander : Expander} : s.OwnKey call key →
      s.session.expanders.get? key = some expander →
        Composes setting .inside s (expand expander call)
  | deeper {α : Type} {s : WalkState} {x : Infer α} :
      (setting.tools.Discreet → s.program.expansionDepth < setting.options.maxExpansionDepth) →
        Composes setting .inside (atDepth s (s.program.expansionDepth + 1)) x →
          Composes setting .inside s (inExpansion x)

/-- The step is put together from such. -/
abbrev Composed (setting : Setting) (s : WalkState) (x : Infer α) : Prop :=
  Composes setting .inside s x

/-! ### How the steps that remember end -/

/-- A type has been declared in the innermost enclosing one. -/
def declaring (s : WalkState) (name : String) (kind : TypeKind) : WalkState :=
  s.withProgram { s.program with types :=
    (s.program.types.declare s.frame.innermostType name kind).2 }

/-- Nothing is declared if what comes before it fails. -/
theorem state_declaration {x : Infer α} {name : String} {kind : α → TypeKind} {e : Failure}
    (h : x.outcome setting s = (.error e, s')) :
    ((x >>= fun a => declareHere name (kind a)).outcome setting s).2 = s' := by rw [outcome_bind, h]

theorem state_declaration_of_does {x : Infer α} {name : String} {kind : α → TypeKind} {a : α}
    (h : x.Does setting s a s') :
    ((x >>= fun a => declareHere name (kind a)).outcome setting s).2 =
      declaring s' name (kind a) := by
  rw [outcome_bind, h]
  rfl

section
variable {walk : Step} {call : ExprId} {key : MethodInstance}

theorem outcome_methodResult_of_some {result : NodeId}
    (h : s.memo.instances.get? key = some result) :
    (methodResult walk call key.owner key.definition key.args key.block).outcome setting s =
      (.ok result, s) := by
  unfold methodResult
  rw [outcome_bind, outcome_get]
  dsimp only
  rw [h]
  rfl

theorem outcome_methodResult_of_none {receiver : Option ExprId} {name : String}
    {params : List String} {body returnType : Option ExprId}
    {blockParam : Option (BlockParam ExprId)} (h : s.memo.instances.get? key = none)
    (hc : s.program.construct key.definition = .methodDef receiver name params body
      returnType blockParam) :
    (methodResult walk call key.owner key.definition key.args key.block).outcome setting s =
      (((typeInstance walk call key s.program.addVar.1 name params body returnType
        blockParam).outcome setting
          (s.recording key)).1.map fun _ => s.program.addVar.1,
        ((typeInstance walk call key s.program.addVar.1 name params body returnType
          blockParam).outcome setting (s.recording key)).2) := by
  have hanswer : ∀ x : Infer Unit, (x >>= fun _ => pure s.program.addVar.1).outcome
      setting (s.recording key) =
      ((x.outcome setting (s.recording key)).1.map fun _ => s.program.addVar.1,
        (x.outcome setting (s.recording key)).2) := fun x => by
    rw [outcome_bind]
    rcases x.outcome setting (s.recording key) with ⟨_ | _, _⟩ <;> rfl
  rw [← hanswer]
  unfold methodResult
  rw [outcome_bind, outcome_get]
  dsimp only
  rw [h]
  dsimp only
  rw [outcome_bind, outcome_construct, hc]
  dsimp only
  rw [outcome_bind, outcome_addVar]
  dsimp only
  rw [outcome_bind, outcome_modifyMemo]
  simp only [typeInstance, bind_assoc]
  rfl

theorem outcome_methodResult_of_stray (h : s.memo.instances.get? key = none)
    (hc : ∀ receiver name params body returnType blockParam,
      s.program.construct key.definition ≠ .methodDef receiver name params body
      returnType blockParam) :
    (methodResult walk call key.owner key.definition key.args key.block).outcome setting s =
      (.error (.error (.internal .methodExpected (s.program.location key.definition))), s) := by
  unfold methodResult
  rw [outcome_bind, outcome_get]
  dsimp only
  rw [h]
  dsimp only
  rw [outcome_bind, outcome_construct]
  dsimp only
  split
  · rename_i heq
    exact (hc _ _ _ _ _ _ heq).elim
  · exact outcome_defectAt ..

theorem outcome_knownValue_of_some {type : TypeId} {node : NodeId}
    (h : s.memo.values.get? type = some node) :
    (knownValue type).outcome setting s = (.ok node, s) := by
  unfold knownValue
  rw [outcome_bind, outcome_get]
  dsimp only
  rw [h]
  rfl

theorem outcome_knownValue_of_none {type : TypeId} (h : s.memo.values.get? type = none) :
    (knownValue type).outcome setting s = (.ok (s.program.addValue type).1,
      (s.withProgram (s.program.addValue type).2).withMemo
        { s.memo with values := s.memo.values.insert type (s.program.addValue type).1 }) := by
  unfold knownValue
  rw [outcome_bind, outcome_get]
  dsimp only
  rw [h]
  rfl

theorem outcome_rebind_of_eq {targets : List NodeId} (h : s.memo.targets.get? call = some targets) :
    (rebind call targets).outcome setting s = (.ok (), s) := by
  unfold rebind
  rw [outcome_bind, outcome_nodeOf]
  dsimp only
  rw [outcome_bind, outcome_get]
  dsimp only
  rw [h, if_neg (fun hne => hne rfl)]
  rfl

theorem outcome_rebind_of_ne {targets : List NodeId} (h : s.memo.targets.get? call ≠ some targets) :
    (rebind call targets).outcome setting s =
      (mapError (Diagnostic.placedAt (s.program.location call))
          (bind (s.program.nodeOf call) targets)).outcome setting
        (unbound s call targets) := by
  unfold rebind
  rw [outcome_bind, outcome_nodeOf]
  dsimp only
  rw [outcome_bind, outcome_get]
  dsimp only
  rw [if_pos h]
  rfl

/-- What the calls of a macro with such arguments share. -/
def keyOf (p : Program) (definition : ExprId) (args : List ExprId) : ExpanderKey :=
  ⟨definition, args.map fun arg => (p.construct arg).kind⟩

theorem outcome_expanderFor_of_some {definition : ExprId} {args : List ExprId} {expander : Expander}
    (h : s.session.expanders.get? (keyOf s.program definition args) = some expander) :
    (expanderFor definition args).outcome setting s = (.ok expander, s) := by
  unfold expanderFor
  rw [outcome_bind, outcome_get]
  unfold keyOf at h
  dsimp only at h ⊢
  rw [h]
  rfl

theorem outcome_expanderFor_of_none {definition : ExprId} {args : List ExprId}
    (h : s.session.expanders.get? (keyOf s.program definition args) = none) :
    (expanderFor definition args).outcome setting s =
        (.ok (setting.tools.buildExpander s.program definition),
      { s with session := { s.session with
        journal := { s.session.journal with builds := s.session.journal.builds + 1 }
        expanders := s.session.expanders.insert (keyOf s.program definition args)
          (setting.tools.buildExpander s.program definition) } }) := by
  unfold expanderFor
  rw [outcome_bind, outcome_get]
  unfold keyOf at h ⊢
  dsimp only at h ⊢
  rw [h]
  rfl

theorem outcome_expand (expander : Expander) : (expand expander call).outcome setting s =
    ((expander s.program call).mapError .error,
      { s with session := { s.session with journal :=
        { s.session.journal with expansions := s.session.journal.expansions + 1 } } }) := by
  unfold expand
  rw [outcome_bind, show (modifyJournal _).outcome setting s = (.ok (), _) from rfl]
  dsimp only
  rw [outcome_bind, outcome_program]
  dsimp only
  rcases expander s.program call with e | source <;> rfl

theorem state_expand (expander : Expander) : ((expand expander call).outcome setting s).2 =
    { s with session := { s.session with journal :=
      { s.session.journal with expansions := s.session.journal.expansions + 1 } } } :=
  by rw [outcome_expand]

end

/-! ### What all steps keep -/

/-- However a step ends, as many expansions are being typed as before. -/
theorem Composes.depth_eq {x : Infer α} (h : Composes setting stage s x)
    (hdiscreet : setting.tools.Discreet) :
    (x.outcome setting s).2.program.expansionDepth = s.program.expansionDepth := by
  induction h with
  | pure | throw | frame | fresh | journal => rfl
  | read hreads _ ih =>
    rename_i s x f a _
    rw [outcome_bind, show x.outcome setting s = (.ok a, s) from hreads s.memo]
    exact ih
  | bind _ _ ihx ihf =>
    rename_i s x f _ _
    rw [outcome_bind]
    rcases hr : x.outcome setting s with ⟨e | a, s'⟩ <;> rw [hr] at ihx
    · exact ihx
    · exact (ihf a s' hr).trans ihx
  | mapError _ _ ih => rw [outcome_mapError]; exact ih
  | within enter leave _ _ ih => rw [outcome_within]; exact ih
  | update hquiet | marks hquiet => exact hquiet.depth
  | phase _ ih | breaks _ ih | loop _ ih => exact ih
  | normalize s tree => exact hdiscreet s.program tree
  | declaration _ _ _ ih =>
    rename_i s x name kind _ _ _
    rcases hr : x.outcome setting s with ⟨e | a, s'⟩ <;> rw [hr] at ih
    · rw [state_declaration hr]; exact ih
    · rw [state_declaration_of_does hr]; exact ih
  | value s type =>
    rcases hvalue : s.memo.values.get? type with _ | node
    · rw [outcome_knownValue_of_none hvalue]; rfl
    · rw [outcome_knownValue_of_some hvalue]
  | rebind s call targets =>
    by_cases htargets : s.memo.targets.get? call = some targets
    · rw [outcome_rebind_of_eq htargets]
    · rw [outcome_rebind_of_ne htargets, outcome_mapError, Infer.bind, outcome_onNetwork]
      rfl
  | recalled hinstance => rw [outcome_methodResult_of_some hinstance]
  | «instance» hnone hc _ ih =>
    rw [outcome_methodResult_of_none hnone hc]
    exact ih
  | stray hnone _ hc => rw [outcome_methodResult_of_stray hnone hc]
  | evaluation hpending _ ih => rw [outcome_evaluateConstant _ hpending rfl]; exact ih
  | expander s definition args =>
    rcases hkept : s.session.expanders.get? (keyOf s.program definition args) with _ | expander
    · rw [outcome_expanderFor_of_none hkept]
    · rw [outcome_expanderFor_of_some hkept]
  | expand => rw [state_expand]
  | deeper _ _ ih =>
    rw [outcome_inExpansion]
    exact (congrArg (· - 1) ih).trans (Nat.add_sub_cancel ..)

theorem Composes.depth_of_does {x : Infer α} {a : α} (h : Composes setting stage s x)
    (hdiscreet : setting.tools.Discreet) (hd : x.Does setting s a s') :
    s'.program.expansionDepth = s.program.expansionDepth := by
  rw [← h.depth_eq hdiscreet, show x.outcome setting s = _ from hd]

/-- However the step ends, it is a course, and has then ended the evaluations of constants that it
has begun. -/
structure Takes (setting : Setting) (s : WalkState) (x : Infer α) : Prop where
  course : ∃ deeds, Course {setting.tools} s deeds (x.outcome setting s).2
  evaluating_eq : (x.outcome setting s).2.program.evaluating = s.program.evaluating

theorem takes_of_state_eq {x : Infer α} (h : (x.outcome setting s).2 = s) : Takes setting s x :=
  ⟨⟨[], h.symm ▸ .nil s⟩, by rw [h]⟩

theorem takes_change {x : Infer α} {deed : Deed}
    (h : Change {setting.tools} deed s (x.outcome setting s).2)
    (he : (x.outcome setting s).2.program.evaluating = s.program.evaluating) : Takes setting s x :=
  ⟨⟨[deed], .single h⟩, he⟩

theorem Composes.takes {x : Infer α} (h : Composes setting stage s x) (htidy : setting.tools.Tidy) :
    Takes setting s x := by
  induction h with
  | pure | throw => exact takes_of_state_eq rfl
  | read hreads _ ih =>
    rename_i s x f a _
    have hx : (x >>= f).outcome setting s = (f a).outcome setting s := by
      rw [outcome_bind, show x.outcome setting s = (.ok a, s) from hreads s.memo]
    exact ⟨hx ▸ ih.course, hx ▸ ih.evaluating_eq⟩
  | bind _ _ ihx ihf =>
    rename_i s x f _ _
    obtain ⟨⟨deeds, hcourse⟩, he⟩ := ihx
    rcases hr : x.outcome setting s with ⟨e | a, s'⟩ <;> rw [hr] at hcourse he
    · exact ⟨⟨deeds, by rw [outcome_bind, hr]; exact hcourse⟩, by rw [outcome_bind, hr]; exact he⟩
    · obtain ⟨⟨deeds', hcourse'⟩, he'⟩ := ihf a s' hr
      refine ⟨⟨deeds ++ deeds', ?_⟩, ?_⟩ <;> rw [outcome_bind, hr]
      · exact hcourse.append hcourse'
      · exact he'.trans he
  | mapError _ _ ih =>
    refine ⟨?_, ?_⟩ <;> rw [outcome_mapError]
    exacts [ih.course, ih.evaluating_eq]
  | within enter leave _ _ ih =>
    obtain ⟨⟨deeds, hcourse⟩, he⟩ := ih
    refine ⟨⟨.other :: (deeds ++ [.other]), ?_⟩, ?_⟩ <;> rw [outcome_within]
    · exact .cons (.frame _ _) (hcourse.append (.single (.frame _ _)))
    · exact he
  | frame s | fresh s => exact takes_change (.frame s _) rfl
  | journal s => exact takes_change (.journal s _) rfl
  | update hquiet | marks hquiet => exact ⟨hquiet.course htidy, hquiet.evaluating⟩
  | phase _ ih | breaks _ ih | loop _ ih => exact ih
  | normalize s tree =>
    obtain ⟨count, hcount⟩ := htidy s.program tree
    have hnote : s.program.Note (setting.tools.normalize s.program tree).2 :=
      hcount ▸ .temporaries ..
    have he : (setting.tools.normalize s.program tree).2.evaluating = s.program.evaluating := by
      rw [hcount]
    exact takes_change (.note hnote) he
  | declaration _ _ _ ih =>
    rename_i s x name kind _ _ _
    obtain ⟨⟨deeds, hcourse⟩, he⟩ := ih
    rcases hr : x.outcome setting s with ⟨e | a, s'⟩ <;> rw [hr] at hcourse he
    · refine ⟨⟨deeds, ?_⟩, ?_⟩ <;> rw [state_declaration hr]
      exacts [hcourse, he]
    · refine ⟨⟨deeds ++ [.other], ?_⟩, ?_⟩ <;> rw [state_declaration_of_does hr]
      · exact hcourse.append (.single (.types (.declare ..)))
      · exact he
  | value s type =>
    rcases hvalue : s.memo.values.get? type with _ | node
    · refine ⟨⟨[.other, .other], ?_⟩, ?_⟩ <;> rw [outcome_knownValue_of_none hvalue]
      · exact .cons (.addValue s type) (.single (.memo _ _))
      · rfl
    · exact takes_of_state_eq (by rw [outcome_knownValue_of_some hvalue])
  | rebind s call targets =>
    by_cases htargets : s.memo.targets.get? call = some targets
    · exact takes_of_state_eq (by rw [outcome_rebind_of_eq htargets])
    · refine ⟨⟨[.other, .other, .other], ?_⟩, ?_⟩ <;>
        rw [outcome_rebind_of_ne htargets, outcome_mapError, Infer.bind, outcome_onNetwork]
      · exact .cons (.unbind s _ _) (.cons (.memo _ _) (.single (.bind _ _ _)))
      · rfl
  | recalled hinstance => exact takes_of_state_eq (by rw [outcome_methodResult_of_some hinstance])
  | «instance» hnone hc _ ih =>
    obtain ⟨⟨deeds, hcourse⟩, he⟩ := ih
    refine ⟨⟨.other :: .other :: deeds, ?_⟩, ?_⟩ <;> rw [outcome_methodResult_of_none hnone hc]
    · exact .cons (.addNode _ .identity) (.cons (.memo _ _) hcourse)
    · exact he
  | stray hnone _ hc => exact takes_of_state_eq (by rw [outcome_methodResult_of_stray hnone hc])
  | evaluation hpending _ ih =>
    -- what has been begun inside of the evaluation has ended before it
    rename_i const _
    obtain ⟨⟨deeds, hcourse⟩, he⟩ := ih
    refine ⟨⟨.begins const :: (deeds ++ [.ends const]), ?_⟩, ?_⟩ <;>
      rw [outcome_evaluateConstant _ hpending rfl]
    · exact .cons (.begin hpending) (hcourse.append (.single (.finish (by rw [he]; rfl))))
    · exact congrArg List.tail he
  | expander s definition args =>
    rcases hkept : s.session.expanders.get? (keyOf s.program definition args) with _ | expander
    · have hbuild : ∀ s', Change {setting.tools} .other s' _ := fun s' =>
        .expander s' (keyOf s.program definition args) (Set.mem_singleton setting.tools)
      refine ⟨⟨[.other, .other], ?_⟩, by rw [outcome_expanderFor_of_none hkept]⟩
      rw [outcome_expanderFor_of_none hkept]
      exact .cons (.journal s { s.session.journal with builds := s.session.journal.builds + 1 })
        (.single (hbuild _))
    · exact takes_of_state_eq (by rw [outcome_expanderFor_of_some hkept])
  | expand =>
    refine ⟨⟨[.other], ?_⟩, ?_⟩ <;> rw [state_expand]
    exact .single (.journal _ _)
  | deeper _ _ ih =>
    obtain ⟨⟨deeds, hcourse⟩, he⟩ := ih
    refine ⟨⟨.other :: (deeds ++ [.other]), ?_⟩, ?_⟩ <;> rw [outcome_inExpansion]
    · exact .cons (.note (.expansionDepth ..))
        (hcourse.append (.single (.note (.expansionDepth ..))))
    · exact he

end Infer

end TypeFlow
