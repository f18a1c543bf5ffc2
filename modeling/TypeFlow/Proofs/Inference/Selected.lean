import TypeFlow.Proofs.Inference.Answered
import TypeFlow.Proofs.Inference.Bound
import TypeFlow.Proofs.Inference.Evaluated

/-!
# What calls are bound to in the end

When a program has been inferred no call waits in the queue, and so every call that was visited
depends on exactly the targets of its last resolution, at the end of which its inputs had the types
that they have now (`Session.infer_selects`). That the inputs had these types when the resolution
began cannot be said: the bodies that it types may have changed them
(`Session.outdated_widenedWithin`).
-/

namespace TypeFlow

namespace Infer
variable {setting : Setting} {walk : Step} {s s' : WalkState} {call : ExprId}

/-! ### Resolutions that are carried through -/

/-- The targets are those that dispatch finds for the types which a call sees at `m`: one for each
member of its receiver's type, and the node that takes the values which its block breaks with. -/
def Selects (setting : Setting) (walk : Step) (call : ExprId)
    (receiver : Option ExprId) (name : String)
    (args : List ExprId) (block : Option ExprId) (m : WalkState) (targets : List NodeId) : Prop :=
  ∃ types selected m', args.mapM m.program.typeOf = some types ∧
    (targetsFor walk { call, name, args := types, block, implicit := receiver.isNone } []
      (receiverTypes m.program call receiver)).Does setting m selected m' ∧
    targets = selected ++ block.toList.map fun b => (m'.program.breakNodeOf b).1

theorem does_rebind {targets : List NodeId} (hd : (rebind call targets).Does setting s () s') :
    s'.memo.targets.get? call = some targets := by
  unfold rebind at hd
  rw [does_bind_of_ok (outcome_nodeOf call), does_bind_of_ok outcome_get] at hd
  dsimp only at hd
  split at hd
  · rw [does_bind_of_ok (outcome_modifyGraph _), does_bind_of_ok (outcome_modifyMemo _),
      does_bind_of_ok (outcome_locationOf call), does_mapError] at hd
    obtain ⟨n, -, rfl⟩ := does_onNetwork.mp hd
    exact OrderedMap.get?_insert_self ..
  · rename_i hsame
    obtain ⟨-, rfl⟩ := does_pure.mp hd
    exact Decidable.not_not.mp hsame

/-- A call is bound to what is selected for it, unless it is expanded or one of its inputs has no
type. -/
theorem does_bindToTargets (hd : (bindToTargets walk call).Does setting s () s') :
    (s' = s ∧ ∀ receiver name args block, s.program.construct call =
        .call receiver name args block →
      s.program.expansions.get? call ≠ none ∨ args.mapM s.program.typeOf = none ∨
        receiverTypes s.program call receiver = []) ∨
      ∃ receiver name args block targets, s.program.construct call =
          .call receiver name args block ∧
        Selects setting walk call receiver name args block s targets ∧
        s'.memo.targets.get? call = some targets := by
  unfold bindToTargets at hd
  rw [does_bind_of_ok outcome_program] at hd
  dsimp only at hd
  split at hd
  · rename_i hexpanded
    obtain ⟨-, rfl⟩ := does_pure.mp hd
    exact .inl ⟨rfl, fun _ _ _ _ _ => .inl (Option.isSome_iff_ne_none.mp hexpanded)⟩
  split at hd
  · rename_i receiver name args block hc
    rcases htypes : args.mapM s.program.typeOf with _ | types <;> rw [htypes] at hd
    · obtain ⟨-, rfl⟩ := does_pure.mp hd
      refine .inl ⟨rfl, fun _ _ _ _ hc' => .inr (.inl ?_)⟩
      cases hc.symm.trans hc'
      exact htypes
    dsimp only at hd
    split at hd
    · rename_i hnone
      obtain ⟨-, rfl⟩ := does_pure.mp hd
      refine .inl ⟨rfl, fun _ _ _ _ hc' => .inr (.inr ?_)⟩
      cases hc.symm.trans hc'
      exact List.isEmpty_iff.mp hnone
    · obtain ⟨selected, m, hselect, hd⟩ := does_bind.mp hd
      refine .inr ⟨receiver, name, args, block, _, hc,
        ⟨types, selected, m, htypes, hselect, rfl⟩, ?_⟩
      cases block with
      | none => simpa using does_rebind hd
      | some b =>
        rw [does_bind_of_ok (outcome_updateProgram _)] at hd
        exact does_rebind hd
  · rename_i hnot
    obtain ⟨-, rfl⟩ := does_pure.mp hd
    exact .inl ⟨rfl, fun _ _ _ _ hc => absurd hc (hnot _ _ _ _)⟩

theorem does_resolve (hresolves : setting.tools.resolvesCalls = true)
    (hd : (resolve walk call).Does setting s () s') :
    ∃ m, Runs setting none true s m ∧ m.program = s.program ∧ m.memo = s.memo ∧
      (bindToTargets walk call).Does setting m () s' := by
  unfold resolve at hd
  rw [does_bind_of_ok outcome_program] at hd
  dsimp only at hd
  split at hd
  · obtain ⟨⟨⟩, m, hnote, hd⟩ := does_bind.mp hd
    rw [does_bind_of_ok outcome_read, if_pos hresolves] at hd
    obtain ⟨hruns, -⟩ := (runnable_modifyJournal _).does hnote
    exact ⟨m, hruns, by cases hnote; rfl, by cases hnote; rfl, hd⟩
  · rw [does_bind_of_ok outcome_read, if_pos hresolves] at hd
    exact ⟨s, .refl none s, rfl, rfl, hd⟩

/-! ### The queue -/

theorem does_resolvePending {count : Nat} (hd : (resolvePending walk count).Does setting s () s') :
    s'.program.graph.pending = [] := by
  induction count generalizing s with
  | zero => cases hd
  | succ count ih =>
    unfold resolvePending at hd
    rw [does_bind_of_ok outcome_program] at hd
    split at hd
    · rename_i hnone
      obtain ⟨-, rfl⟩ := does_pure.mp hd
      exact FlowGraph.nextCall?_eq_none.mp hnone
    · rw [does_bind_of_ok (outcome_modifyProgram _)] at hd
      obtain ⟨⟨⟩, m, -, hd⟩ := does_bind.mp hd
      exact ih hd

/-- No call waits after a walk. -/
theorem does_walk {fuel : Nat} {id : ExprId} (hd : (Infer.walk fuel id).Does setting s () s') :
    s'.program.graph.pending = [] := by
  cases fuel with
  | zero => cases hd
  | succ fuel =>
    obtain ⟨m, -, hd⟩ := does_walk_succ hd
    exact does_resolvePending hd

theorem pending_evaluateConstant {fuel : Nat} {reference : ExprId} {id : ConstantId}
    (hpending : (s.program.constant id).state = .pending)
    (hd : (evaluateConstant (Infer.walk fuel) reference id).Does setting s () s') :
    s'.program.graph.pending = [] := by
  rcases hvalue : (inFrame _ (Infer.walk fuel _)).outcome setting _ with ⟨result, m⟩
  have hends := outcome_evaluateConstant reference hpending hvalue
  rw [Does, hends] at hd
  cases result with
  | error e => cases hd
  | ok a =>
    cases hd
    rw [inFrame, outcome_within] at hvalue
    obtain ⟨hresult, rfl⟩ := Prod.mk.inj hvalue
    have hwalk : (Infer.walk fuel _).Does setting _ () _ := Prod.ext hresult rfl
    have hidle := does_walk hwalk
    exact hidle

theorem pending_evaluateRemaining {fuel : Nat} (hidle : s.program.graph.pending = [])
    (hd : (evaluateRemaining (Infer.walk fuel)).Does setting s () s') :
    s'.program.graph.pending = [] := by
  unfold evaluateRemaining at hd
  rw [does_bind_of_ok outcome_program] at hd
  generalize s.program.pendingConstants = ids at hd
  induction ids generalizing s with
  | nil => cases hd; exact hidle
  | cons id rest ih =>
    obtain ⟨m, hfirst, hrest⟩ := does_forM_cons.mp hd
    refine ih ?_ hrest
    rw [does_bind_of_ok outcome_program] at hfirst
    dsimp only at hfirst
    split at hfirst
    · rename_i hpending
      exact pending_evaluateConstant hpending hfirst
    · obtain ⟨-, rfl⟩ := does_pure.mp hfirst
      exact hidle

end Infer

namespace WalkState
open Infer
variable {setting : Setting} {s s' : WalkState} {call : ExprId}
  {receiver : Option ExprId} {name : String} {args : List ExprId} {block : Option ExprId}

/-! ### Requests -/

/-- A call that looks the same sees the same types. -/
theorem Stands.sees (h : s.Stands call s')
    (hc : s.program.construct call = .call receiver name args block) :
    args.mapM s'.program.typeOf = args.mapM s.program.typeOf ∧
      (receiverTypes s.program call receiver = [] →
        receiverTypes s'.program call receiver = []) := by
  have hc' := h.later.program.construct_eq hc (by simp) (by simp)
  have hrequest := h.request
  unfold requestOf at hrequest
  rw [hc, hc'] at hrequest
  obtain ⟨hreceiver, -, hargs⟩ := CallRequest.mk.inj (Option.some.inj hrequest)
  refine ⟨?_, fun hnone => ?_⟩
  · have hmap := congrArg (List.mapM id) hargs
    rwa [List.mapM_map, List.mapM_map] at hmap
  · cases receiver with
    | none =>
      unfold receiverTypes at hnone ⊢
      rwa [h.scope]
    | some receiver =>
      have htype : s'.program.typeOf receiver = s.program.typeOf receiver :=
        Option.some.inj hreceiver
      unfold receiverTypes at hnone ⊢
      dsimp only at hnone ⊢
      rw [htype]
      rcases ht : s.program.typeOf receiver with _ | type
      · rfl
      rw [ht] at hnone
      dsimp only at hnone ⊢
      -- a type beyond the table would be a receiver of its own
      have hlt : type.index < s.program.types.size := by
        refine Nat.lt_of_not_le fun hle => ?_
        rw [Types.kind_of_le hle] at hnone
        cases hnone
      rwa [h.later.program.kinds.kind_eq type hlt]

theorem isSome_requestOf (p : Program) (call : ExprId) :
    (requestOf p call).isSome = (p.construct call).isCall := by
  unfold requestOf
  cases p.construct call <;> rfl

theorem construct_of_later (hl : s.Later s') (hcall : (s.program.construct call).isCall = true) :
    s.program.construct call = s'.program.construct call := by
  have hid : s.Has call := has_of_construct rfl fun hnop => by rw [hnop] at hcall; cases hcall
  exact ((hl.program.construct call hid).eq_of_isCall hcall).symm

/-- The targets of a call that waits no longer are those that its last resolution has selected, and
at the end of that it looked as it does now. -/
theorem Attends.selects (h : s.Attends setting call) (htidy : setting.tools.Tidy)
    (hresolves : setting.tools.resolvesCalls = true) (hidle : s.program.graph.pending = [])
    (hc : s.program.construct call = .call receiver name args block)
    (hunexpanded : s.program.expansions.get? call = none)
    (hargs : args.mapM s.program.typeOf ≠ none)
    (hreceivers : receiverTypes s.program call receiver ≠ []) :
    ∃ fuel m m' targets, m.Reached ∧ (bindToTargets (walk fuel) call).Does setting m () m' ∧
      Selects setting (walk fuel) call receiver name args block m targets ∧ m'.Stands call s ∧
      s.memo.targets.get? call = some targets := by
  cases h.answered with
  | waits hp => rw [hidle] at hp; cases hp
  | @resolved m₀ m' hm₀ hres hstands =>
    obtain ⟨fuel, hd⟩ := hres
    obtain ⟨hruns, -⟩ := (runnable_resolve (walks_walk htidy fuel) hm₀.ready call).does hd
    obtain ⟨m, hnote, hprogram, hmemo, hd⟩ := does_resolve hresolves hd
    have hl : m.Later m' := by
      obtain ⟨hl, -⟩ := hruns.ready hm₀.ready
      exact ⟨hprogram ▸ hl.program, hmemo ▸ hl.instances⟩
    have hc' : m'.program.construct call = .call receiver name args block := by
      refine (construct_of_later hstands.later ?_).trans hc
      rw [← isSome_requestOf, ← hstands.request, isSome_requestOf, hc]
      rfl
    obtain ⟨hsees, hempty⟩ := hstands.sees hc'
    rcases does_bindToTargets hd with ⟨rfl, hnone⟩ | ⟨_, _, _, _, targets, hcm, hselects, htargets⟩
    · rcases hnone _ _ _ _ hc' with hexpanded | hnone | hnone
      · exact absurd hunexpanded (hstands.expanded hexpanded)
      · exact absurd (hsees.trans hnone) hargs
      · exact absurd (hempty hnone) hreceivers
    · have hcm' := construct_of_later hl (by rw [hcm]; rfl)
      cases hcm.symm.trans (hcm'.trans hc')
      exact ⟨fuel, m, m', targets, hm₀.runs hnote, hd, hselects, hstands,
        hstands.targets.trans htargets⟩

/-! ### Inference of a program -/

/-- What a walk that is carried through keeps of all calls. -/
structure Tended (setting : Setting) (s : WalkState) : Prop where
  reached : s.Reached
  quiet : s.Quiet
  minds : ∀ call, s.Minds setting call
  bound : ∀ call, s.Bound call

namespace Tended

theorem start : Tended setting ⟨{}, {}⟩ where
  reached := .start
  quiet := by
    have hempty : Network.Quiet ⟨.initial, .empty⟩ := .empty .initial
    have hdirty : ({ type := some .nil } : FlowNode).dirty = false := rfl
    exact (Network.quiet_push hdirty hempty).of_graph_eq rfl
  minds _ hv := absurd rfl hv
  bound _ := ⟨fun _ => rfl, fun hid => absurd hid (Nat.not_lt_zero _)⟩

theorem runs {kept : Kept} (h : Tended setting s) (hr : Runs setting kept true s s') :
    Tended setting s' where
  reached := h.reached.runs hr
  quiet := (hr.watches rfl h.quiet).2
  minds call := hr.minds rfl h.reached h.quiet (h.minds call)
  bound call := hr.bound h.reached.sound (h.bound call)

theorem topLevel (h : Tended setting s) : Tended setting ⟨s.session, {}⟩ where
  reached := h.reached.topLevel
  quiet := h.quiet
  minds call := Runs.minds_frame h.reached (h.minds call) {}
  bound call := (h.bound call).of_graph_eq (.withFrame s {}) rfl rfl rfl rfl

end Tended

end WalkState

/-- A program without blocks has no parameters of blocks. -/
theorem Program.not_isParameter_of_all {p : Program}
    (h : (p.exprs.all fun e => e.construct.kind ≠ .block) = true) (id : ExprId) :
    ¬ p.IsParameter id := by
  rintro ⟨block, params, body, hc, -⟩
  rw [construct, expr] at hc
  rcases he : p.exprs[block.index]? with _ | e <;> rw [he] at hc
  · cases hc
  · have hkind := of_decide_eq_true (Array.all_eq_true'.mp h e (Array.mem_of_getElem? he))
    have hc : e.construct = .block params body := hc
    rw [hc] at hkind
    exact hkind rfl

namespace Session

/-- Inference of a program up to its last phase, which gives a type to the nodes that have none. -/
def typed (s : Session) (setting : Setting) (tree : Tree) : Except Failure Unit × Session :=
  (do
    let root ← Phase.lower setting tree
    Phase.walk setting root
    Phase.constants setting : Phase Unit).run s

variable {setting : Setting}

theorem tended_typed (htidy : setting.tools.Tidy) {tree : Tree} {s : Session}
    (h : ({} : Session).typed setting tree = (.ok (), s)) :
    WalkState.Tended setting ⟨s, {}⟩ ∧ s.program.graph.pending = [] := by
  have hw := Infer.walks_walk htidy Infer.depthBudget
  obtain ⟨root, s₁, hlower, hrest⟩ := Phase.ok_of_run_bind h
  obtain ⟨⟨⟩, s₂, hwalk, hconstants⟩ := Phase.ok_of_run_bind hrest
  obtain ⟨f₁, hruns₁, hroot⟩ := Phase.runs_lower hlower
  have h₁ : WalkState.Tended setting ⟨s₁, {}⟩ := (WalkState.Tended.start.runs hruns₁).topLevel
  obtain ⟨f₂, hruns₂, hwalk⟩ := Phase.runs_walk htidy h₁.reached hroot hwalk
  have h₂ : WalkState.Tended setting ⟨s₂, {}⟩ := (h₁.runs hruns₂).topLevel
  have hidle : s₂.program.graph.pending = [] := Infer.does_walk hwalk
  unfold Phase.constants at hconstants
  split at hconstants
  · obtain ⟨f₃, hconstants⟩ := Phase.does_of_run_ofStep hconstants
    obtain ⟨hruns₃, -⟩ := (Infer.runnable_evaluateRemaining hw h₂.reached.ready).does hconstants
    exact ⟨(h₂.runs hruns₃).topLevel, Infer.pending_evaluateRemaining hidle hconstants⟩
  · cases hconstants
    exact ⟨h₂, hidle⟩

/-- When inference succeeds, the last phase starts where the others have ended. -/
theorem settled_of_infer {tree : Tree} {inferred : Inferred} {s s' : Session}
    (h : s.infer setting tree = (.ok inferred, s')) :
    ∃ m, s.typed setting tree = (.ok (), m) ∧ s'.program = m.program.settleUntyped.2 := by
  obtain ⟨root, s₁, hlower, hrest⟩ := Phase.ok_of_run_bind h
  obtain ⟨⟨⟩, s₂, hwalk, hrest⟩ := Phase.ok_of_run_bind hrest
  obtain ⟨⟨⟩, s₃, hconstants, hsettle⟩ := Phase.ok_of_run_bind hrest
  have hafter : (ExceptT.run (Phase.walk setting root >>= fun _ => Phase.constants setting)).run
      s₁ = (.ok (), s₃) :=
    (WalkState.Reached.run_bind_phase ..).trans (by rw [hwalk]; exact hconstants)
  cases hsettle
  exact ⟨s₃, (WalkState.Reached.run_bind_phase ..).trans (by rw [hlower]; exact hafter), rfl⟩

theorem typed_of_infer {tree : Tree} {inferred : Inferred} {s s' : Session}
    (h : s.infer setting tree = (.ok inferred, s')) : (s.typed setting tree).1 = .ok () := by
  obtain ⟨m, htyped, -⟩ := settled_of_infer h
  rw [htyped]

/-- When a program has been inferred, a call that was visited depends on exactly the targets that
its last resolution has selected for the types which it saw at `m`; at the end of that resolution,
`m'`, it looked as it does now. -/
theorem infer_selects (htidy : setting.tools.Tidy) (hresolves : setting.tools.resolvesCalls = true)
    {tree : Tree} {inferred : Inferred} {s s' : Session}
    (hinfer : ({} : Session).infer setting tree = (.ok inferred, s'))
    (hs : (({} : Session).typed setting tree).2 = s) {call : ExprId} {receiver : Option ExprId}
    {name : String} {args : List ExprId} {block : Option ExprId}
    (hc : s.program.construct call = .call receiver name args block)
    (hvisited : s.program.callScopes.get? call ≠ none)
    (hunexpanded : s.program.expansions.get? call = none)
    (hparameter : ¬ s.program.IsParameter call) (hargs : args.mapM s.program.typeOf ≠ none)
    (hreceivers : Infer.receiverTypes s.program call receiver ≠ []) :
    ∃ fuel m m' targets, m.Reached ∧
      (Infer.bindToTargets (Infer.walk fuel) call).Does setting m () m' ∧
      Infer.Selects setting (Infer.walk fuel) call receiver name args block m targets ∧
      m'.Stands call ⟨s, {}⟩ ∧ ∀ d, d ≠ s.program.nodeOf call →
        (d ∈ (s.program.graph.node (s.program.nodeOf call)).dependencies ↔ d ∈ targets) := by
  obtain ⟨htended, hidle⟩ := tended_typed htidy (Prod.ext (typed_of_infer hinfer) hs)
  rcases htended.minds call hvisited with hexpanded | hattends
  · exact absurd hunexpanded hexpanded
  obtain ⟨fuel, m, m', targets, hm, hd, hselects, hstands, htargets⟩ :=
    hattends.selects htidy hresolves hidle hc hunexpanded hargs hreceivers
  refine ⟨fuel, m, m', targets, hm, hd, hselects, hstands, fun d hd => ?_⟩
  have hleft : s.program.LeavesToResolution call := ⟨by rw [hc]; rfl, hunexpanded, hparameter⟩
  have hdeps := (htended.bound call).deps hattends.has hleft d hd
  rwa [htargets] at hdeps

/-- `def f(x) x end; $g = 1; f($g); $g = 'c'`. -/
def widenedLater : Tree := .sequence
  [.methodDef "f" ["x"] (some (.var "x")), .assign (.globalVar "$g") (.int32 1),
    .call none "f" [.globalVar "$g"], .assign (.globalVar "$g") (.char 'c')]

/-- When its argument is widened after it, the call is resolved again. -/
theorem infer_selects_widenedLater :
    Toolchain.standard.Tidy ∧ Toolchain.standard.resolvesCalls = true ∧ ∃ inferred s',
    ({} : Session).infer ⟨.standard, {}⟩ widenedLater = (.ok inferred, s') ∧ ∃ s,
    (({} : Session).typed ⟨.standard, {}⟩ widenedLater).2 = s ∧
    s.program.construct ⟨6⟩ = .call none "f" [⟨5⟩] none ∧
    s.program.callScopes.get? ⟨6⟩ ≠ none ∧ s.program.expansions.get? ⟨6⟩ = none ∧
    ¬ s.program.IsParameter ⟨6⟩ ∧
    s.typeNameOf ⟨5⟩ = some "Int32 | Char" ∧ s.typeNameOf ⟨6⟩ = some "Int32 | Char" ∧
    ∃ fuel m m' targets, m.Reached ∧
      (Infer.bindToTargets (Infer.walk fuel) ⟨6⟩).Does ⟨.standard, {}⟩ m () m' ∧
      Infer.Selects ⟨.standard, {}⟩ (Infer.walk fuel) ⟨6⟩ none "f" [⟨5⟩] none m targets ∧
      m'.Stands ⟨6⟩ ⟨s, {}⟩ ∧ ∀ d, d ≠ s.program.nodeOf ⟨6⟩ →
        (d ∈ (s.program.graph.node (s.program.nodeOf ⟨6⟩)).dependencies ↔ d ∈ targets) := by
  have hok : (({} : Session).infer ⟨.standard, {}⟩ widenedLater).1.isOk = true := by decide +kernel
  have hend : let s := (({} : Session).typed ⟨.standard, {}⟩ widenedLater).2
      s.program.construct ⟨6⟩ = .call none "f" [⟨5⟩] none ∧ s.program.callScopes.get? ⟨6⟩ ≠ none ∧
      s.program.expansions.get? ⟨6⟩ = none ∧ [⟨5⟩].mapM s.program.typeOf ≠ none ∧
      Infer.receiverTypes s.program ⟨6⟩ none ≠ [] ∧ s.typeNameOf ⟨5⟩ = some "Int32 | Char" ∧
      s.typeNameOf ⟨6⟩ = some "Int32 | Char" := by decide +kernel
  have hall : ((({} : Session).typed ⟨.standard, {}⟩ widenedLater).2.program.exprs.all
      fun e => e.construct.kind ≠ .block) = true := by decide +kernel
  obtain ⟨hc, hvisited, hunexpanded, hargs, hreceivers, htypes⟩ := hend
  have hparameter := Program.not_isParameter_of_all hall ⟨6⟩
  rcases h : ({} : Session).infer ⟨.standard, {}⟩ widenedLater with ⟨_ | inferred, s'⟩
  · rw [h] at hok; cases hok
  exact ⟨Toolchain.tidy_standard, rfl, inferred, s', rfl, _, rfl, hc, hvisited, hunexpanded,
    hparameter, htypes.1, htypes.2,
    infer_selects Toolchain.tidy_standard rfl h rfl hc hvisited hunexpanded
      hparameter hargs hreceivers⟩

/-- `def f(x) $g = 'c'; x end; $g = 1; f($g)`. -/
def widenedWithin : Tree := .sequence
  [.methodDef "f" ["x"] (some (.sequence [.assign (.globalVar "$g") (.char 'c'), .var "x"])),
    .assign (.globalVar "$g") (.int32 1), .call none "f" [.globalVar "$g"]]

/-- When the method that it calls widens its argument, the call is bound to the result of the method
for the type that the argument had before, and not to the one that is selected for its type. -/
theorem outdated_widenedWithin : ∃ inferred s',
    ({} : Session).infer ⟨.standard, {}⟩ widenedWithin = (.ok inferred, s') ∧ ∃ s,
    (({} : Session).typed ⟨.standard, {}⟩ widenedWithin).2 = s ∧
    s.program.construct ⟨10⟩ = .call none "f" [⟨9⟩] none ∧
    s.program.callScopes.get? ⟨10⟩ ≠ none ∧ s.program.expansions.get? ⟨10⟩ = none ∧
    s.typeNameOf ⟨9⟩ = some "Int32 | Char" ∧ s.typeNameOf ⟨10⟩ = some "Int32" ∧
    (s.program.graph.node (s.program.nodeOf ⟨10⟩)).dependencies = [⟨14⟩] ∧
    Infer.Selects ⟨.standard, {}⟩ (Infer.walk 1) ⟨10⟩ none "f" [⟨9⟩] none ⟨s, {}⟩ [⟨22⟩] := by
  have hok : (({} : Session).infer ⟨.standard, {}⟩ widenedWithin).1.isOk = true := by decide +kernel
  have hend : let s := (({} : Session).typed ⟨.standard, {}⟩ widenedWithin).2
      s.program.construct ⟨10⟩ = .call none "f" [⟨9⟩] none ∧ s.program.callScopes.get? ⟨10⟩ ≠ none ∧
      s.program.expansions.get? ⟨10⟩ = none ∧ s.typeNameOf ⟨9⟩ = some "Int32 | Char" ∧
      s.typeNameOf ⟨10⟩ = some "Int32" ∧
      (s.program.graph.node (s.program.nodeOf ⟨10⟩)).dependencies = [⟨14⟩] ∧
      [⟨9⟩].mapM s.program.typeOf = some [⟨24⟩] := by decide +kernel
  have hselect : (Infer.outcome (Infer.targetsFor (Infer.walk 1) ⟨⟨10⟩, "f", [⟨24⟩], none, true⟩ []
      (Infer.receiverTypes (({} : Session).typed ⟨.standard, {}⟩ widenedWithin).2.program
        ⟨10⟩ none)) ⟨.standard, {}⟩
        ⟨(({} : Session).typed ⟨.standard, {}⟩ widenedWithin).2, {}⟩).1.toOption = some
          [⟨22⟩] := by decide +kernel
  obtain ⟨hc, hvisited, hunexpanded, harg, hcall, hdeps, htypes⟩ := hend
  generalize (({} : Session).typed ⟨.standard, {}⟩ widenedWithin).2 = s at *
  rcases h : ({} : Session).infer ⟨.standard, {}⟩ widenedWithin with ⟨_ | inferred, s'⟩
  · rw [h] at hok; cases hok
  have hselects : Infer.Selects ⟨.standard, {}⟩ (Infer.walk 1) ⟨10⟩ none "f"
      [⟨9⟩] none ⟨s, {}⟩ [⟨22⟩] :=
    ⟨[⟨24⟩], [⟨22⟩], _, htypes, Infer.does_of_toOption hselect, rfl⟩
  exact ⟨inferred, s', rfl, s, rfl, hc, hvisited, hunexpanded, harg, hcall, hdeps, hselects⟩

end Session

end TypeFlow
