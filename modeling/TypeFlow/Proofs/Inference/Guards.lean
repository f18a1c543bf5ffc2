import TypeFlow.Proofs.Inference.Reached
import TypeFlow.Tree.Builder

/-!
# Guards that a walk leaves in force

A walk takes guards to hold for the rest of the innermost region, and does nothing else to the stack
of guards that it finds (`Runs.assumes`): every region that it pushes a guard for is popped again.
So a region that is entered under a guard leaves the stack as it was, and any other may leave guards
behind.
-/

namespace TypeFlow

namespace GuardStack
variable {s s' s'' : GuardStack} {guard : Guard}

/-- Some guards have been taken to hold in the innermost region. -/
def Assumes (s s' : GuardStack) : Prop := ∃ guards : List Guard, s' = guards.foldl assume s

namespace Assumes

protected theorem refl (s : GuardStack) : s.Assumes s := ⟨[], rfl⟩

theorem single (s : GuardStack) (guard : Guard) : s.Assumes (s.assume guard) := ⟨[guard], rfl⟩

theorem trans (h : s.Assumes s') (h' : s'.Assumes s'') : s.Assumes s'' := by
  obtain ⟨guards, rfl⟩ := h
  obtain ⟨more, rfl⟩ := h'
  exact ⟨guards ++ more, (List.foldl_append ..).symm⟩

end Assumes

/-- Nothing is taken to hold outside of the region. -/
theorem Assumes.pop (h : (s.push guard).Assumes s') : s'.pop = s := by
  obtain ⟨guards, rfl⟩ := h
  induction guards generalizing guard with
  | nil => rfl
  | cons first rest ih => exact ih

end GuardStack

namespace Infer
variable {α : Type} {setting : Setting} {kept : Kept} {ok : Bool} {s s' : WalkState}
  {x : Infer α} {walk : Step}

/-! ### Steps and runs -/

theorem Act.assumes (h : Act kept ok s s') : s.frame.guards.Assumes s'.frame.guards := by
  cases h with
  | assume => exact .single ..
  | _ => exact .refl _

/-- By induction on the run. The frame of a region may start with guards of its own, but then they
do not stay after it. -/
theorem Runs.assumes (h : Runs setting kept ok s s') : s.frame.guards.Assumes s'.frame.guards := by
  induction h with
  | refl | failed => exact .refl _
  | act h => exact h.assumes
  | trans _ _ ih ih' => exact ih.trans ih'
  | evaluation _ _ ih => exact ih
  | @region kept ok s s' r _ _ ih =>
    cases r with
    | own => exact .refl _
    | guarded guard =>
      have hpop : s'.frame.guards.pop = s.frame.guards := ih.pop
      exact hpop ▸ .refl _
    | inType | inLoop | block => exact ih
  | resolution h _ h' _ ih => exact h'.frame_eq ▸ h.frame_eq ▸ ih
  | visit _ _ _ _ _ ih ih' => exact ih.trans ih'

theorem Goes.assumes {Q : α → WalkState → Prop} (h : Goes setting kept s x Q) :
    s.frame.guards.Assumes (x.outcome setting s).2.frame.guards := by
  rcases ho : x.outcome setting s with ⟨e | a, s'⟩
  · exact (h.error e s' ho).assumes
  · exact (h.ok a s' ho).1.assumes

/-! ### Regions under a guard -/

theorem frame_within (enter : Frame → Frame) (leave : Frame → Frame → Frame) (x : Infer α) :
    ((within enter leave x).outcome setting s).2.frame =
      leave s.frame (x.outcome setting (s.withFrame (enter s.frame))).2.frame := by
  rw [outcome_within, WalkState.withFrame_frame]

theorem guards_underGuard (guard : Guard) (hs : Ready kept s)
    (hx : ∀ s', s.Later s' → Ready kept s' → Runnable setting kept s' x) :
    ((underGuard (some guard) x).outcome setting s).2.frame.guards = s.frame.guards := by
  have hentered : Ready kept (s.withFrame ((Region.guarded guard).enter s.frame)) :=
    Region.ready_enter (r := .guarded guard) trivial hs
  have hassumes : (s.frame.guards.push guard).Assumes _ := (hx _ (.withFrame ..) hentered).assumes
  exact (congrArg Frame.guards (frame_within ..)).trans hassumes.pop

/-- The body of a loop that is entered under a guard. -/
theorem guards_inLoop (loop : ExprId) (guard : Guard) (hs : Ready kept s)
    (hx : ∀ s', s.Later s' → Ready kept s' → Runnable setting kept s' x) :
    ((inLoop loop (underGuard (some guard) x)).outcome setting s).2.frame.guards =
      s.frame.guards := by
  have hentered : Ready kept (s.withFrame ((Region.inLoop loop).enter s.frame)) :=
    Region.ready_enter (r := .inLoop loop) trivial hs
  exact (congrArg Frame.guards (frame_within ..)).trans
    (guards_underGuard guard hentered fun s' hl => hx s' ((WalkState.Later.withFrame ..).trans hl))

/-! ### Merging variables -/

theorem guards_mergeWithNil {name : String} (hd : (mergeWithNil name).Does setting s () s') :
    s'.frame.guards = s.frame.guards := by
  unfold mergeWithNil at hd
  rw [does_bind_of_ok outcome_frame] at hd
  split at hd
  · obtain ⟨-, rfl⟩ := does_pure.mp hd
    rfl
  · rw [does_bind_of_ok outcome_addVar] at hd
    obtain ⟨⟨⟩, s₁, hbind, hd⟩ := does_bind.mp hd
    obtain ⟨n, -, rfl⟩ := does_onNetwork.mp hbind
    cases hd
    rfl

theorem guards_forM_mergeWithNil {names : List String}
    (hd : (names.forM mergeWithNil).Does setting s () s') :
    s'.frame.guards = s.frame.guards := by
  induction names generalizing s with
  | nil => cases hd; rfl
  | cons name rest ih =>
    obtain ⟨s₁, hname, hrest⟩ := does_forM_cons.mp hd
    exact (ih hrest).trans (guards_mergeWithNil hname)

theorem guards_mergeCreatedVars {before : List String} {paths : List (Option ExprId)}
    (hd : (mergeCreatedVars before paths).Does setting s () s') :
    s'.frame.guards = s.frame.guards := by
  unfold mergeCreatedVars at hd
  rw [does_bind_of_ok outcome_program, does_bind_of_ok outcome_frame] at hd
  exact guards_forM_mergeWithNil hd

/-! ### Conditionals and loops -/

/-- The guards in force while a conditional is walked: `s₁` is the state after its condition, `s₂`
after the branch for a true one, `s₃` after the other, and `s₄` when it has been derived from
both. -/
structure GuardsBranches (setting : Setting) (walk : Step) (id cond : ExprId)
    (onTrue onFalse : Option ExprId) (s s₁ s₂ s₃ s₄ s' : WalkState) : Prop where
  walkCond : (walk cond).Does setting s () s₁
  walkTrue : (onTrue.forM fun branch => underGuard (s₁.program.guardOf cond)
    (walk branch)).Does setting s₁ () s₂
  walkFalse : (onFalse.forM walk).Does setting s₂ () s₃
  derive : (deriveFrom id [s₃.program.partNode onTrue, s₃.program.partNode onFalse]).Does
    setting s₃ () s₄
  afterCond : s.frame.guards.Assumes s₁.frame.guards
  afterTrue : s₁.frame.guards.Assumes s₂.frame.guards
  afterGuarded : s₁.program.guardOf cond ≠ none → s₂.frame.guards = s₁.frame.guards
  afterFalse : s₂.frame.guards.Assumes s₃.frame.guards
  /-- What the condition proves stays in force if the program does not come out of the other
  branch. -/
  after : s'.frame.guards = s₃.frame.guards ∨ ∃ branch other guard, onTrue = some branch ∧
    onFalse = some other ∧
    s₁.program.guardOf cond = some guard ∧ s₄.program.typeOf other = some .noReturn ∧
      s'.frame.guards = s₃.frame.guards.assume guard

/-- The guards in force while a loop is walked: `s₁` is the state after its condition. -/
structure GuardsLoop (setting : Setting) (walk : Step) (id cond : ExprId) (body : Option ExprId)
    (s s₁ s₂ s' : WalkState) : Prop where
  walkCond : (walk cond).Does setting s () s₁
  walkBody : (inLoop id (underGuard (s₁.program.guardOf cond) (body.forM walk))).Does
    setting s₁ () s₂
  afterCond : s.frame.guards.Assumes s₁.frame.guards
  afterBody : s₁.frame.guards.Assumes s₂.frame.guards
  afterGuarded : s₁.program.guardOf cond ≠ none → s₂.frame.guards = s₁.frame.guards
  after : s'.frame.guards = s₂.frame.guards

theorem guardsBranches {id cond : ExprId} {onTrue onFalse : Option ExprId}
    {operator : Option ShortCircuit} (hw : Walks setting walk) (hs : Ready none s) (hid : s.Has id)
    (hc : s.program.construct id = .conditional cond onTrue onFalse operator)
    (hd : (walkConditional walk id cond onTrue onFalse operator).Does setting s () s') :
    ∃ s₁ s₂ s₃ s₄, GuardsBranches setting walk id cond onTrue onFalse s s₁ s₂ s₃ s₄ s' := by
  have hparts := hs.parts hc
  have htrue : ∀ i ∈ onTrue, s.Has i :=
    fun i hi => hparts i (by simp [Construct.children, Option.mem_def.mp hi])
  have hfalse : ∀ i ∈ onFalse, s.Has i :=
    fun i hi => hparts i (by simp [Construct.children, Option.mem_def.mp hi])
  obtain ⟨before, s₅, hpaths, hmerge⟩ := does_bind.mp hd
  have hplain : s.Plain id := ⟨hid, by rw [hc]; rfl⟩
  obtain ⟨-, s₁, hcond, s₂, s₃, s₄, hwalked⟩ :=
    (goes_walkBranches hw hs hplain (hparts cond (by simp [Construct.children]))
    htrue hfalse operator).does hpaths
  obtain ⟨hl₁, hs₁⟩ := hcond.runs.ready hs
  have hguards := guards_mergeCreatedVars hmerge
  refine ⟨s₁, s₂, s₃, s₄, hcond.does, hwalked.walkTrue, hwalked.walkFalse,
    hwalked.derive, hcond.runs.assumes,
    hwalked.runsTrue.assumes, fun hguard => ?_, hwalked.runsFalse.assumes, ?_⟩
  · obtain ⟨guard, hguard⟩ := Option.ne_none_iff_exists'.mp hguard
    have hd₂ := hwalked.walkTrue
    rw [hguard] at hd₂
    cases onTrue with
    | none => cases hd₂; rfl
    | some branch =>
      have hunder := guards_underGuard guard hs₁
        fun s' hl' hs' => hw none s' branch hs' (hl'.has (hl₁.has (htrue branch rfl)))
      have houtcome : (underGuard (some guard) (walk branch)).outcome setting s₁ = (.ok (), s₂) :=
        hd₂
      rwa [houtcome] at hunder
  · rw [hguards]
    refine hwalked.frame.imp (congrArg Frame.guards) ?_
    rintro ⟨branch, other, guard, htrue, hfalse, hguard, hnever, hframe⟩
    exact ⟨branch, other, guard, htrue, hfalse, hguard, hnever, congrArg Frame.guards hframe⟩

theorem guardsLoop {id cond : ExprId} {body : Option ExprId} {runOnce : Bool}
    (hw : Walks setting walk) (hs : Ready none s)
    (hc : s.program.construct id = .loop cond body runOnce)
    (hd : (walkLoop walk id cond body).Does setting s () s') :
    ∃ s₁ s₂, GuardsLoop setting walk id cond body s s₁ s₂ s' := by
  have hparts := hs.parts hc
  have hbody : ∀ i ∈ body, s.Has i :=
    fun i hi => hparts i (by simp [Construct.children, Option.mem_def.mp hi])
  obtain ⟨before, s₂, hpaths, hrest⟩ := does_bind.mp hd
  obtain ⟨⟨⟩, s₃, hmerge, htype⟩ := does_bind.mp hrest
  rw [does_bind_of_ok outcome_program] at htype
  have hframe := (keepsFrame_giveType id _).does htype
  obtain ⟨-, s₁, hcond, hwalk, hruns⟩ :=
    (goes_walkLoopBody hw hs (hparts cond (by simp [Construct.children])) hbody).does hpaths
  obtain ⟨hl₁, hs₁⟩ := hcond.runs.ready hs
  refine ⟨s₁, s₂, hcond.does, hwalk, hcond.runs.assumes, hruns.assumes, fun hguard => ?_, ?_⟩
  · obtain ⟨guard, hguard⟩ := Option.ne_none_iff_exists'.mp hguard
    rw [hguard] at hwalk
    have hunder := guards_inLoop id guard hs₁
      fun s' hl' hs' => hw.optional hs' fun i hi => hl'.has (hl₁.has (hbody i hi))
    have houtcome : (inLoop id (underGuard (some guard) (body.forM walk))).outcome setting s₁ =
        (.ok (), s₂) := hwalk
    rwa [houtcome] at hunder
  · rw [hframe, guards_mergeCreatedVars hmerge]

end Infer

namespace WalkState.Reached
variable {setting : Setting} {s : WalkState}
open Infer

/-- However the walk of an expression ends, all that it does to the guards in force is to take some
to hold in the innermost region; nothing is left of them after a region that is entered under a
guard. -/
theorem scopesGuards (h : s.Reached) (htidy : setting.tools.Tidy) {id : ExprId} (hid : s.Has id)
    (fuel : Nat) :
    s.frame.guards.Assumes ((Infer.walk fuel id).outcome setting s).2.frame.guards ∧
    (∀ guard, ((underGuard (some guard) (Infer.walk fuel id)).outcome setting s).2.frame.guards =
      s.frame.guards) ∧
    ∀ s', (Infer.walk (fuel + 1) id).Does setting s () s' →
      (∀ cond onTrue onFalse operator, s.program.construct id =
          .conditional cond onTrue onFalse operator →
        ∃ s₁ s₂ s₃ s₄, GuardsBranches setting (Infer.walk fuel) id cond onTrue
          onFalse s s₁ s₂ s₃ s₄ s') ∧
      ∀ cond body runOnce, s.program.construct id = .loop cond body runOnce →
        ∃ s₁ s₂, GuardsLoop setting (Infer.walk fuel) id cond body s s₁ s₂ s' := by
  have hw := walks_walk htidy fuel
  have hs := h.ready
  refine ⟨(hw none s id hs hid).assumes, fun guard => ?_, fun s' hd => ?_⟩
  · exact guards_underGuard guard hs fun s' hl hs' => hw none s' id hs' (hl.has hid)
  obtain ⟨s₅, hconstruct, hresolve⟩ := does_walk_succ hd
  have hframe := (keepsFrame_resolvePending (Infer.walk fuel) fuel).does hresolve
  refine ⟨fun cond onTrue onFalse operator hc => ?_, fun cond body runOnce hc => ?_⟩
  · rw [hc] at hconstruct
    obtain ⟨s₁, s₂, s₃, s₄, hg⟩ := guardsBranches hw hs hid hc hconstruct
    exact ⟨s₁, s₂, s₃, s₄, { hg with after := by rw [hframe]; exact hg.after }⟩
  · rw [hc] at hconstruct
    obtain ⟨s₁, s₂, hg⟩ := guardsLoop hw hs hc hconstruct
    exact ⟨s₁, s₂, { hg with after := by rw [hframe]; exact hg.after }⟩

/-- `while a; if a then nil else break`. -/
def guardedLoop : Tree :=
  .loop (.var "a") (some (.conditional (.var "a") (some .nil) (some (.breakOut []))))

theorem scopesGuards_guardedLoop : (lowered guardedLoop).Reached ∧ Toolchain.standard.Tidy ∧
    (lowered guardedLoop).Has ⟨5⟩ ∧ ∃ s₁ s₂ s',
      (Infer.walk 9 ⟨5⟩).Does ⟨.standard, {}⟩ (lowered guardedLoop) () s' ∧
      GuardsLoop ⟨.standard, {}⟩ (Infer.walk 8) ⟨5⟩ ⟨0⟩ (some ⟨4⟩)
        (lowered guardedLoop) s₁ s₂ s' := by
  have hid : (lowered guardedLoop).Has ⟨5⟩ := by unfold WalkState.Has; decide +kernel
  have hd : (Infer.walk 9 ⟨5⟩).Does ⟨.standard, {}⟩ (lowered guardedLoop) () _ :=
    does_of_isOk (by decide +kernel)
  have hc : (lowered guardedLoop).program.construct ⟨5⟩ = .loop ⟨0⟩ (some ⟨4⟩) false := by
    decide +kernel
  obtain ⟨-, -, hwalk⟩ :=
    @scopesGuards ⟨.standard, {}⟩ _ (reached_lowered guardedLoop) Toolchain.tidy_standard _ hid 8
  obtain ⟨s₁, s₂, hloop⟩ := (hwalk _ hd).2 _ _ _ hc
  exact ⟨reached_lowered _, Toolchain.tidy_standard, hid, s₁, s₂, _, hd, hloop⟩

/-- `a = 1; a = nil; while true; if a then nil else break; a`. -/
def brokenLoop : Tree := .sequence
  [.assign (.var "a") (.int32 1), .assign (.var "a") .nil,
    .loop (.bool true) (some (.conditional (.var "a") (some .nil) (some (.breakOut [])))), .var "a"]

/-- The loop leaves `a` narrowed: its condition proves nothing, so its body has no region of its
own, and the conditional inside takes its guard to hold in the region that the loop is in. Read
after the loop, `a` is then `Int32` although `Nil` is in the type of the variable. -/
theorem brokenLoop_narrows :
    (∃ s', (lowered brokenLoop).program.construct ⟨11⟩ = .loop ⟨6⟩ (some ⟨10⟩) false ∧
      (Infer.walk 9 ⟨11⟩).Does ⟨.standard, {}⟩ (lowered brokenLoop) () s' ∧
      s'.frame.guards = ⟨[Guard.notNil "a"]⟩ ∧ (lowered brokenLoop).frame.guards = .initial) ∧
    ∃ s' node type, (Infer.walk 9 ⟨13⟩).Does ⟨.standard, {}⟩ (lowered brokenLoop) () s' ∧
      (lowered brokenLoop).program.construct ⟨12⟩ = .var "a" ∧
      s'.program.typeOf ⟨12⟩ = some .int32 ∧
      s'.frame.vars.get? "a" = some node ∧ s'.program.graph.typeOf node = some type ∧
      .nil ∈ s'.program.types.atoms type := by
  have hloop : (Infer.walk 9 ⟨11⟩).Does ⟨.standard, {}⟩ (lowered brokenLoop) () _ :=
    does_of_isOk (by decide +kernel)
  have hall : (Infer.walk 9 ⟨13⟩).Does ⟨.standard, {}⟩ (lowered brokenLoop) () _ :=
    does_of_isOk (by decide +kernel)
  have hend : let s' := ((Infer.walk 9 ⟨13⟩).outcome ⟨.standard, {}⟩ (lowered brokenLoop)).2
      s'.program.typeOf ⟨12⟩ = some .int32 ∧ s'.frame.vars.get? "a" = some ⟨15⟩ ∧
        s'.program.graph.typeOf ⟨15⟩ = some ⟨24⟩ ∧
        .nil ∈ s'.program.types.atoms ⟨24⟩ := by decide +kernel
  exact ⟨⟨_, by decide +kernel, hloop, by decide +kernel, rfl⟩, _, ⟨15⟩, ⟨24⟩,
    hall, by decide +kernel, hend⟩

end WalkState.Reached

end TypeFlow
