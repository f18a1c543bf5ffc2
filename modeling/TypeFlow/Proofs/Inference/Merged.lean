import TypeFlow.Proofs.Inference.Reached
import TypeFlow.Tree.Builder

/-!
# Variables that are merged with `Nil`

A local variable that a conditional or a loop has created, and that some path through it neither
assigns nor leaves for good, gets a new node that carries `Nil` (`does_mergeCreatedVars`). The new
node belongs to no expression and collects no method's results, so that nothing takes `Nil` away
from it again, whatever is resolved afterwards.
-/

namespace TypeFlow

/-- A node that is new among the nodes of expressions and of methods' results. -/
def WalkState.Fresh (s : WalkState) (node : NodeId) : Prop :=
  (∀ id, s.Has id → s.program.nodeOf id ≠ node) ∧ ∀ key, s.memo.instances.get? key ≠ some node

theorem WalkState.Sound.hold {s : WalkState} {held : NodeId → Prop} {node : NodeId}
    (hs : s.Sound held) (hfresh : s.Fresh node)
    (hnil : s.program.toNetwork.Source Program.nilNode .nil fun m => held m ∨ m = node) :
    s.Sound fun m => held m ∨ m = node := by
  refine ⟨hs.program.hold hnil fun id hid hheld => ?_, hs.vars, hs.result, hs.instances,
    fun key other hk hheld => ?_⟩
  · exact hheld.elim (hs.program.not_held id hid) (hfresh.1 id hid)
  · exact hheld.elim (hs.not_held key other hk) fun heq => hfresh.2 key (heq ▸ hk)

namespace Infer
variable {setting : Setting} {s s' : WalkState} {held : NodeId → Prop} {name : String}

/-- The variable has a held node, if it has any. -/
def HoldsVar (held : NodeId → Prop) (s : WalkState) (name : String) : Prop :=
  ∀ node, s.frame.vars.get? name = some node → held node

theorem does_bind_nil {deps : List NodeId} (hs : s.Sound held) (hdep : Program.nilNode ∈ deps)
    (hd : (bind s.program.addVar.1 deps).Does setting (s.withProgram s.program.addVar.2) () s') :
    s'.Sound (fun m => held m ∨ m = s.program.addVar.1) ∧ s'.program.Slot s.program.addVar.1 ∧
      s'.frame = s.frame := by
  obtain ⟨n, hn, rfl⟩ := does_onNetwork.mp hd
  have hnew : Act none true s (s.withProgram s.program.addVar.2) := .addNode s .identity
  obtain ⟨hl, hs₁⟩ := hnew.sound hs
  have hslot : (s.withProgram s.program.addVar.2).program.Slot s.program.addVar.1 :=
    hs.program.slot_addNode .identity
  have hbind : Runnable setting none _ (bind s.program.addVar.1 deps) := runnable_bind hslot deps
  obtain ⟨hrun, -⟩ := hbind.does hd
  obtain ⟨hl₂, hs₂⟩ := hrun.sound hs₁
  have hderiv : (s.program.addVar.2.graph.node s.program.addVar.1).derivation = .identity := by
    show ((s.program.graph.addNode .identity).2.node ⟨s.program.graph.size⟩).derivation = _
    rw [FlowGraph.node_addNode, if_pos rfl]
  have hheld := hs₁.program.nilSource.does_bindNode hslot.ne_nil hslot.lt hderiv hdep hn
  refine ⟨hs₂.hold ⟨fun id hid heq => ?_, fun key hk => ?_⟩ hheld, hl₂.program.slot hslot, rfl⟩
  · exact absurd (hs.program.node_lt id hid) (heq ▸ Nat.lt_irrefl _)
  · exact absurd (hs.instances key _ hk).lt (Nat.lt_irrefl _)

/-- What merging variables leads to: those that were held are, and no variable is new. -/
structure Merges (held : NodeId → Prop) (s : WalkState) (held' : NodeId → Prop) (s' : WalkState) :
    Prop where
  sound : s'.Sound held'
  holds : ∀ name, HoldsVar held s name → HoldsVar held' s' name
  absent : ∀ name, s.frame.vars.get? name = none → s'.frame.vars.get? name = none

theorem Merges.trans {held' held'' : NodeId → Prop} {s'' : WalkState} (h : Merges held s held' s')
    (h' : Merges held' s' held'' s'') : Merges held s held'' s'' :=
  ⟨h'.sound, fun name hv => h'.holds name (h.holds name hv), fun name hn =>
    h'.absent name (h.absent name hn)⟩

theorem does_mergeWithNil (hs : s.Sound held) (hd : (mergeWithNil name).Does setting s () s') :
    ∃ held', Merges held s held' s' ∧ HoldsVar held' s' name := by
  unfold mergeWithNil at hd
  rw [does_bind_of_ok outcome_frame] at hd
  split at hd
  · rename_i hnone
    obtain ⟨-, rfl⟩ := does_pure.mp hd
    exact ⟨held, ⟨hs, fun _ h => h, fun _ h => h⟩, fun node hn => by rw [hnone] at hn; cases hn⟩
  · rename_i old hold
    rw [does_bind_of_ok outcome_addVar] at hd
    obtain ⟨⟨⟩, s₂, hbind, hd⟩ := does_bind.mp hd
    obtain ⟨hs₂, hslot, hframe⟩ := does_bind_nil hs (by simp) hbind
    obtain rfl : s' = s₂.withFrame
      { s₂.frame with vars := s₂.frame.vars.insert name s.program.addVar.1 } :=
      (congrArg Prod.snd hd).symm
    refine ⟨_, ⟨hs₂.withFrame (fun other node hn => ?_) hs₂.result, fun other hother node hn => ?_,
      fun other hother => ?_⟩, fun node hn => ?_⟩
    · rw [OrderedMap.get?_insert] at hn
      split at hn
      · cases hn; exact hslot
      · exact hs₂.vars other node hn
    · rw [WalkState.withFrame_frame, OrderedMap.get?_insert] at hn
      split at hn
      · cases hn; exact .inr rfl
      · exact .inl (hother node (hframe ▸ hn))
    · have hne : other ≠ name := by
        rintro rfl
        rw [hold] at hother; cases hother
      rw [WalkState.withFrame_frame, OrderedMap.get?_insert_of_ne _ _ hne, hframe, hother]
    · rw [WalkState.withFrame_frame, OrderedMap.get?_insert_self] at hn
      cases hn; exact .inr rfl

theorem does_forM_mergeWithNil {names : List String} (hs : s.Sound held)
    (hd : (names.forM mergeWithNil).Does setting s () s') :
    ∃ held', Merges held s held' s' ∧ ∀ name ∈ names, HoldsVar held' s' name := by
  induction names generalizing s held with
  | nil =>
    cases hd
    exact ⟨held, ⟨hs, fun _ h => h, fun _ h => h⟩, fun name h => by cases h⟩
  | cons first rest ih =>
    obtain ⟨s₁, hfirst, hrest⟩ := does_forM_cons.mp hd
    obtain ⟨held₁, hm₁, hvar⟩ := does_mergeWithNil hs hfirst
    obtain ⟨held', hm, hvars⟩ := ih hm₁.sound hrest
    refine ⟨held', hm₁.trans hm, fun name hname => ?_⟩
    rcases List.mem_cons.mp hname with rfl | hname
    · exact hm.holds name hvar
    · exact hvars name hname

/-- A variable that is not among those there were before carries `Nil`, unless all paths are sure to
assign it. -/
theorem does_mergeCreatedVars {before : List String} {paths : List (Option ExprId)}
    (hs : s.Sound held) (hd : (mergeCreatedVars before paths).Does setting s () s') :
    ∃ held', s'.Sound held' ∧ ∀ name, name ∉ before →
      (∃ path ∈ paths, assignsOrDiverges s.program name path = false) → HoldsVar held' s' name := by
  unfold mergeCreatedVars at hd
  rw [does_bind_of_ok outcome_program, does_bind_of_ok outcome_frame] at hd
  obtain ⟨held', hm, hvars⟩ := does_forM_mergeWithNil hs hd
  refine ⟨held', hm.sound, fun name hbefore ⟨path, hpath, hmisses⟩ node hn => ?_⟩
  refine hvars name ?_ node hn
  have hkey : name ∈ s.frame.vars.keys := OrderedMap.mem_keys.mpr fun hnone => by
    rw [hm.absent name hnone] at hn; cases hn
  refine List.mem_filter.mpr ⟨List.mem_filter.mpr ⟨hkey, by simpa using hbefore⟩, ?_⟩
  rw [Bool.not_eq_true', List.all_eq_false]
  exact ⟨path, hpath, by rw [hmisses]; exact Bool.false_ne_true⟩

/-- `walkPaths` walks a condition and the paths that start after it. Every variable of `s'` that was
not there after the condition, and that one of the paths does not assign although it may complete,
has `Nil` as a member of its type. -/
def MergesNil (setting : Setting) (walk : Step) (cond : ExprId) (walkPaths : Infer (List String))
    (paths : List (Option ExprId)) (s s' : WalkState) : Prop :=
  ∃ s₁ s₂, (walk cond).Does setting s () s₁ ∧ walkPaths.Does setting s s₁.frame.vars.keys s₂ ∧
    ∀ name node, s₁.frame.vars.get? name = none → s'.frame.vars.get? name = some node →
      (∃ path ∈ paths, assignsOrDiverges s₂.program name path = false) →
        ∃ type, s'.program.graph.typeOf node = some type ∧ .nil ∈ s'.program.types.atoms type

/-- What is left to do after the merge keeps the frame and what is held. -/
theorem mergesNil_of_merge {walk : Step} {cond : ExprId} {walkPaths : Infer (List String)}
    {before : List String} {paths : List (Option ExprId)} {s₁ s₂ s₃ : WalkState}
    (hs : Ready none s₂) (hcond : AfterCondition setting walk none cond s s₁ before)
    (hd : walkPaths.Does setting s before s₂)
    (hmerge : (mergeCreatedVars before paths).Does setting s₂ () s₃)
    (hrest : Runs setting none true s₃ s') (hframe : s'.frame = s₃.frame) :
    MergesNil setting walk cond walkPaths paths s s' := by
  obtain ⟨hcond, -, rfl⟩ := hcond
  obtain ⟨held, hs₃, hvars⟩ := does_mergeCreatedVars hs.sound hmerge
  refine ⟨s₁, s₂, hcond, hd, fun name node hnone hn hmisses => ?_⟩
  have hheld :=
    hvars name (fun hkey => OrderedMap.mem_keys.mp hkey hnone) hmisses node (hframe ▸ hn)
  exact ((hrest.sound hs₃).2.program.nilSource.carried node hheld).member

end Infer

namespace WalkState.Reached
variable {setting : Setting} {s s' : WalkState}
open Infer

/-- After a conditional or a loop, and also after the calls that it has made to be resolved
again. -/
theorem mergesNil (h : s.Reached) (htidy : setting.tools.Tidy) {id : ExprId} {fuel : Nat}
    (hd : (Infer.walk (fuel + 1) id).Does setting s () s') :
    (∀ cond onTrue onFalse operator, s.program.construct id =
        .conditional cond onTrue onFalse operator →
      MergesNil setting (Infer.walk fuel) cond
        (walkBranches (Infer.walk fuel) id cond onTrue onFalse operator)
        [onTrue, onFalse] s s') ∧
    ∀ cond body runOnce, s.program.construct id = .loop cond body runOnce →
      MergesNil setting (Infer.walk fuel) cond (walkLoopBody (Infer.walk fuel) id cond body)
        [body, none] s s' := by
  have hw := walks_walk htidy fuel
  have hs := h.ready
  obtain ⟨s₄, hconstruct, hresolve⟩ := does_walk_succ hd
  have hframe := (keepsFrame_resolvePending (Infer.walk fuel) fuel).does hresolve
  have hafter : s.Has id → Runs setting none true s s₄ ∧
      Runs setting none true s₄ s' := fun hid => by
    obtain ⟨hrun, -⟩ := (runnable_walkConstruct hw htidy hs hid rfl).does hconstruct
    exact ⟨hrun, ((runnable_resolvePending hw (hrun.ready hs).2 fuel).does hresolve).1⟩
  refine ⟨fun cond onTrue onFalse operator hc => ?_, fun cond body runOnce hc => ?_⟩
  · have hid : s.Has id := has_of_construct hc (by simp)
    have hplain : s.Plain id := ⟨hid, by rw [hc]; rfl⟩
    have hparts := hs.parts hc
    rw [hc, walkConstruct, walkConditional] at hconstruct
    obtain ⟨before, s₂, hpaths, hmerge⟩ := does_bind.mp hconstruct
    obtain ⟨hrun, s₁, hcond, -⟩ :=
      (goes_walkBranches hw hs hplain (hparts cond (by simp [Construct.children]))
      (fun i hi => hparts i (by simp [Construct.children, Option.mem_def.mp hi]))
      (fun i hi => hparts i (by simp [Construct.children, Option.mem_def.mp hi]))
        operator).does hpaths
    exact mergesNil_of_merge (hrun.ready hs).2 hcond hpaths hmerge (hafter hid).2 hframe
  · have hid : s.Has id := has_of_construct hc (by simp)
    have hparts := hs.parts hc
    rw [hc, walkConstruct, walkLoop] at hconstruct
    obtain ⟨before, s₂, hpaths, hrest⟩ := does_bind.mp hconstruct
    obtain ⟨⟨⟩, s₃, hmerge, htype⟩ := does_bind.mp hrest
    rw [does_bind_of_ok outcome_program] at htype
    obtain ⟨hrun, s₁, hcond, -⟩ :=
      (goes_walkLoopBody hw hs (hparts cond (by simp [Construct.children]))
      fun i hi => hparts i (by simp [Construct.children, Option.mem_def.mp hi])).does hpaths
    obtain ⟨hl₂, hs₂⟩ := hrun.ready hs
    obtain ⟨hrun₃, -⟩ := (runnable_mergeCreatedVars hs₂ (hcond.frees hs) _).does hmerge
    obtain ⟨htyped, -⟩ : Runs setting none true s₃ s₄ ∧ True :=
      (runnable_giveType ((hrun₃.ready hs₂).1.has (hl₂.has hid)) _).does htype
    refine mergesNil_of_merge hs₂ hcond hpaths hmerge (htyped.trans (hafter hid).2) ?_
    exact hframe.trans ((keepsFrame_giveType id _).does htype)

/-- `if true then x = 1`, of which the condition may also fail. -/
def maybeAssigned : Tree := .conditional (.bool true) (some (.assign (.var "x") (.int32 1))) none

theorem mergesNil_maybeAssigned : ∃ s', (lowered maybeAssigned).Reached ∧ Toolchain.standard.Tidy ∧
    (Infer.walk 6 ⟨4⟩).Does ⟨.standard, {}⟩ (lowered maybeAssigned) () s' ∧
    MergesNil ⟨.standard, {}⟩ (Infer.walk 5) ⟨0⟩
      (walkBranches (Infer.walk 5) ⟨4⟩ ⟨0⟩ (some ⟨3⟩) none none)
      [some ⟨3⟩, none] (lowered maybeAssigned) s' := by
  have hd : (Infer.walk 6 ⟨4⟩).Does ⟨.standard, {}⟩ (lowered maybeAssigned) () _ :=
    does_of_isOk (by decide +kernel)
  have hc : (lowered maybeAssigned).program.construct ⟨4⟩ = .conditional ⟨0⟩
      (some ⟨3⟩) none none := by decide +kernel
  exact ⟨_, reached_lowered _, Toolchain.tidy_standard, hd,
    ((reached_lowered maybeAssigned).mergesNil Toolchain.tidy_standard hd).1 _ _ _ _ hc⟩

/-- `if true then (x; if false then x = 1) else x = 1`. -/
def assignedWithin : Tree :=
  .conditional (.bool true)
    (some (.sequence
      [.var "x", .conditional (.bool false) (some (.assign (.var "x") (.int32 1))) none]))
    (some (.assign (.var "x") (.int32 1)))

/-- There is no `x` before the conditional, and the path on which the inner condition fails does not
assign it, but it has the type `Int32` afterwards: an assignment anywhere inside of a path counts,
and the inner conditional does not merge `x` with `Nil` because it was read before. -/
theorem assignedWithin_int32 : ∃ s' node,
    (Infer.walk 9 ⟨11⟩).Does ⟨.standard, {}⟩ (lowered assignedWithin) () s' ∧
    (lowered assignedWithin).program.construct ⟨11⟩ = .conditional ⟨0⟩ (some ⟨7⟩) (some ⟨10⟩) none ∧
    (lowered assignedWithin).program.construct ⟨7⟩ = .sequence [⟨1⟩, ⟨6⟩] ∧
    (lowered assignedWithin).program.construct ⟨6⟩ = .conditional ⟨2⟩ (some ⟨5⟩) none none ∧
    (lowered assignedWithin).frame.vars.get? "x" = none ∧
    s'.frame.vars.get? "x" = some node ∧ s'.program.graph.typeOf node = some .int32 ∧
    .nil ∉ s'.program.types.atoms .int32 := by
  have hd : (Infer.walk 9 ⟨11⟩).Does ⟨.standard, {}⟩ (lowered assignedWithin) () _ :=
    does_of_isOk (by decide +kernel)
  have hend : let s' := ((Infer.walk 9 ⟨11⟩).outcome ⟨.standard, {}⟩ (lowered assignedWithin)).2
      s'.frame.vars.get? "x" = some ⟨13⟩ ∧ s'.program.graph.typeOf ⟨13⟩ = some .int32 ∧
        .nil ∉ s'.program.types.atoms .int32 := by decide +kernel
  exact ⟨_, ⟨13⟩, hd, by decide +kernel, by decide +kernel, by decide +kernel, rfl, hend⟩

end WalkState.Reached

end TypeFlow
