import TypeFlow.Proofs.Inference.Composed.Steps
import TypeFlow.Proofs.Inference.Known.Basic

/-!
# Steps that uphold what is proper

`Upholds setting s x Q`: taken in the state `s`, the step `x` leads from a proper state to a proper
one, however it ends, and if it is carried through, `Q` holds of its answer and of the state after
it. The rules put such steps together, as those for `Goes` do; nothing is asked of the expressions
that are walked.
-/

namespace TypeFlow.Infer
variable {α β γ : Type} {setting : Setting} {s s' : WalkState} {x : Infer α}
  {Q : α → WalkState → Prop}
  {R : β → WalkState → Prop} {node : NodeId}

structure Upholds (setting : Setting) (s : WalkState) (x : Infer α) (Q : α → WalkState → Prop) :
    Prop where
  state : s.Proper → s.Ages (x.outcome setting s).2 ∧ (x.outcome setting s).2.Proper
  does : s.Proper → ∀ a s', x.Does setting s a s' → Q a s'

/-- Nothing is said of the answer. -/
abbrev Proceeds (setting : Setting) (s : WalkState) (x : Infer α) : Prop :=
  Upholds setting s x fun _ _ => True

theorem upholds_of_outcome {a : α} (h : x.outcome setting s = (.ok a, s'))
    (hs : s.Proper → s.Ages s' ∧ s'.Proper) (hq : s.Proper → Q a s') : Upholds setting s x Q := by
  refine ⟨fun hp => ?_, fun hp b s'' hd => ?_⟩
  · rw [h]; exact hs hp
  · rw [Does, h] at hd
    cases hd; exact hq hp

theorem upholds_of_error {e : Failure} (h : x.outcome setting s = (.error e, s)) :
    Upholds setting s x Q := by
  refine ⟨fun hp => ?_, fun _ b s'' hd => ?_⟩
  · rw [h]; exact ⟨.refl s, hp⟩
  · rw [Does, h] at hd
    cases hd

theorem upholds_pure {a : α} (hq : s.Proper → Q a s) : Upholds setting s (pure a) Q :=
  upholds_of_outcome rfl (fun hp => ⟨.refl s, hp⟩) hq

theorem proceeds_pure (a : α) : Proceeds setting s (pure a : Infer α) :=
  upholds_pure fun _ => trivial

theorem Upholds.bind {f : α → Infer β} (h : Upholds setting s x Q)
    (hf : ∀ a s', s.Ages s' → s'.Proper → Q a s' → Upholds setting s' (f a) R) :
    Upholds setting s (x >>= f) R := by
  have hrest : ∀ (hp : s.Proper) {a s'}, x.outcome setting s = (.ok a, s') →
      s.Ages s' ∧ s'.Proper ∧ Upholds setting s' (f a) R := fun hp a s' hx => by
    have hstate := h.state hp
    rw [hx] at hstate
    exact ⟨hstate.1, hstate.2, hf a s' hstate.1 hstate.2 (h.does hp a s' hx)⟩
  refine ⟨fun hp => ?_, fun hp b s'' hd => ?_⟩
  · have hstate := h.state hp
    rw [outcome_bind]
    rcases hx : x.outcome setting s with ⟨e | a, s'⟩
    · rwa [hx] at hstate
    · obtain ⟨hages, hp', hrest⟩ := hrest hp hx
      exact ⟨hages.trans (hrest.state hp').1, (hrest.state hp').2⟩
  · obtain ⟨a, s', hx, hfa⟩ := does_bind.mp hd
    obtain ⟨-, hp', hrest⟩ := hrest hp hx
    exact hrest.does hp' b s'' hfa

/-- The step only looks at the state. -/
theorem upholds_of_ok {a : α} {f : α → Infer β} (hx : x.outcome setting s = (.ok a, s))
    (hf : Upholds setting s (f a) R) : Upholds setting s (x >>= f) R := by
  have hxf : (x >>= f).outcome setting s = (f a).outcome setting s := by rw [outcome_bind, hx]
  refine ⟨fun hp => hxf ▸ hf.state hp, fun hp b s' hd => hf.does hp b s' ?_⟩
  rwa [Does, hxf] at hd

theorem upholds_read {a : α} {f : α → Infer β} (h : Reads setting s x a)
    (hf : Upholds setting s (f a) R) : Upholds setting s (x >>= f) R :=
  upholds_of_ok (h s.memo) hf

theorem proceeds_of_reads {a : α} (h : Reads setting s x a) : Proceeds setting s x := by
  rw [← bind_pure x]
  exact upholds_read h (proceeds_pure a)

/-- What is known of the state may be used. -/
theorem upholds_of_proper (h : s.Proper → Upholds setting s x Q) : Upholds setting s x Q :=
  ⟨fun hp => (h hp).state hp, fun hp => (h hp).does hp⟩

theorem Upholds.imp {Q' : α → WalkState → Prop} (h : Upholds setting s x Q)
    (hq : ∀ a s', Q a s' → Q' a s') :
    Upholds setting s x Q' :=
  ⟨h.state, fun hp a s' hd => hq a s' (h.does hp a s' hd)⟩

theorem Upholds.proceeds (h : Upholds setting s x Q) : Proceeds setting s x :=
  h.imp fun _ _ _ => trivial

/-! ### Errors -/

theorem upholds_throw (e : Failure) : Upholds setting s (throw e : Infer α) Q :=
  upholds_of_error rfl

theorem upholds_fail (e : Diagnostic) : Upholds setting s (fail e : Infer α) Q :=
  upholds_of_error rfl

theorem upholds_problemAt (id : ExprId) (problem : Problem) :
    Upholds setting s (problemAt id problem : Infer α) Q :=
  upholds_of_error (outcome_problemAt id problem)

theorem upholds_defectAt (id : ExprId) (defect : Defect) :
    Upholds setting s (defectAt id defect : Infer α) Q :=
  upholds_of_error (outcome_defectAt id defect)

theorem upholds_problemAt_bind {f : α → Infer β} (id : ExprId) (problem : Problem) :
    Upholds setting s (problemAt id problem >>= f) R := by
  refine upholds_of_error
    (e := .error (.typeError problem (some id) (s.program.location id) none)) ?_
  rw [outcome_bind, outcome_problemAt]

theorem upholds_check {c : Prop} [Decidable c] {f : Unit → Infer β} {id : ExprId}
    {problem : Problem} (hf : Upholds setting s (f ()) R) :
    Upholds setting s (if c then problemAt id problem >>= f else f ()) R := by
  split
  · exact upholds_problemAt_bind id problem
  · exact hf

theorem Upholds.mapError (h : Upholds setting s x Q) (f : Diagnostic → Diagnostic) :
    Upholds setting s (mapError f x) Q := by
  refine ⟨fun hp => ?_, fun hp a s' hd => h.does hp a s' (does_mapError.mp hd)⟩
  rw [outcome_mapError]
  exact h.state hp

theorem Upholds.doing (h : Upholds setting s x Q) (id : ExprId) (problem : Problem) :
    Upholds setting s (doing id problem x) Q :=
  upholds_read (reads_locationOf id) (h.mapError _)

theorem upholds_ofBinding {r : Except GraphFailure α} (hq : ∀ a, r = .ok a → Q a s) :
    Upholds setting s (ofBinding r) Q := by
  cases r with
  | error failure => exact upholds_throw _
  | ok a => exact upholds_pure fun _ => hq a rfl

/-! ### Lists -/

theorem proceeds_forM {f : γ → Infer Unit} (cs : List γ) (hf : ∀ c s, Proceeds setting s (f c)) :
    Proceeds setting s (cs.forM f) := by
  induction cs generalizing s with
  | nil => exact proceeds_pure ()
  | cons c cs ih =>
    rw [show (c :: cs).forM f = (f c >>= fun _ => cs.forM f) from rfl]
    exact (hf c s).bind fun _ _ _ _ _ => ih

theorem proceeds_mapM {f : γ → Infer α} (cs : List γ) (hf : ∀ c s, Proceeds setting s (f c)) :
    Proceeds setting s (cs.mapM f) := by
  induction cs generalizing s with
  | nil => exact proceeds_pure []
  | cons c cs ih =>
    rw [List.mapM_cons]
    exact (hf c s).bind fun _ _ _ _ _ => ih.bind fun _ _ _ _ _ => proceeds_pure _

theorem proceeds_option {f : γ → Infer Unit} (c : Option γ) (hf : ∀ c s, Proceeds setting s (f c)) :
    Proceeds setting s (c.forM f) := by
  cases c with
  | none => exact proceeds_pure ()
  | some c => exact hf c s

/-! ### The frame, and what is remembered -/

theorem proceeds_of_eq {a : α} (h : x.outcome setting s = (.ok a, s'))
    (hprogram : s'.program = s.program) (hinstances : s'.memo.instances = s.memo.instances)
    (hvalues : s'.memo.values = s.memo.values) (hframe : s'.frame = s.frame) :
    Proceeds setting s x := by
  have hages : s.Ages s' := .of_eq hprogram hvalues
  refine upholds_of_outcome h
    (fun hp => ⟨hages, fun node hn => hages.loose (hp.loose node ?_), ?_, ?_, ?_⟩) fun _ => trivial
  · cases hn with
    | expr id hid => exact .expr id (hprogram ▸ hid)
    | kept hk => exact .kept (hprogram ▸ hk)
    | var hn => exact .var (hframe ▸ hn)
    | result hn => exact .result (hframe ▸ hn)
    | «instance» hn => exact .instance (hinstances ▸ hn)
  · rw [hprogram]; exact hp.formed
  · rw [hprogram, hframe]; exact hp.vars
  · rw [hprogram, hvalues]; exact hp.values

theorem proceeds_modifyJournal (f : Journal → Journal) : Proceeds setting s (modifyJournal f) :=
  proceeds_of_eq (a := ()) rfl rfl rfl rfl rfl

theorem proceeds_noteTargets (call : ExprId) (targets : List NodeId) :
    Proceeds setting s (modifyMemo fun m => { m with targets := m.targets.insert call targets }) :=
  proceeds_of_eq (outcome_modifyMemo _) rfl rfl rfl rfl

/-- The variables and the result stay. -/
theorem proceeds_modifyFrame {f : Frame → Frame} (hvars : (f s.frame).vars = s.frame.vars)
    (hresult : (f s.frame).result = s.frame.result) : Proceeds setting s (modifyFrame f) :=
  upholds_of_outcome (outcome_modifyFrame f)
    (fun hp => ⟨.of_eq rfl rfl, hp.of_frame_eq hvars hresult⟩) fun _ => trivial

theorem proceeds_insertVar (name : String) (hn : s.Joining node) :
    Proceeds setting s (modifyFrame fun f => { f with vars := f.vars.insert name node }) :=
  upholds_of_outcome (outcome_modifyFrame _)
    (fun hp => ⟨.of_eq rfl rfl, hp.insertVar name hn⟩) fun _ => trivial

theorem proceeds_insertInstance (key : MethodInstance) (hn : s.Loose node) :
    Proceeds setting s (modifyMemo fun m => { m with instances := m.instances.insert key node }) :=
  upholds_of_outcome (outcome_modifyMemo _)
    (fun hp => ⟨.of_eq rfl rfl, hp.insertInstance key hn⟩) fun _ => trivial

/-- A region that is left with the variables and the result that it was entered with. -/
theorem Upholds.within {enter : Frame → Frame} {leave : Frame → Frame → Frame}
    (hx : Proceeds setting (s.withFrame (enter s.frame)) x)
    (henter : s.Proper → (s.withFrame (enter s.frame)).Proper)
    (hleave : ∀ s', s.Proper → s.Ages s' → s'.Proper →
      (s'.withFrame (leave s.frame s'.frame)).Proper) :
    Proceeds setting s (within enter leave x) := by
  refine ⟨fun hp => ?_, fun _ _ _ _ => trivial⟩
  rw [outcome_within]
  obtain ⟨hages, hproper⟩ := hx.state (henter hp)
  have hin : s.Ages _ :=
    (WalkState.Ages.of_eq rfl rfl : s.Ages (s.withFrame (enter s.frame))).trans hages
  exact ⟨hin.trans (.of_eq rfl rfl), hleave _ hp hin hproper⟩

theorem proceeds_inFrame {frame : Frame} (hx : Proceeds setting (s.withFrame frame) x)
    (hvars : ∀ name node, frame.vars.get? name = some node → s.Joining node)
    (hresult : ∀ node, frame.result = some node → s.Loose node) :
    Proceeds setting s (inFrame frame x) :=
  hx.within (fun hp => hp.of_frame hvars hresult) fun _ hp hages hp' => hp.of_left hages hp' rfl rfl

/-- The frame changes in what concerns no nodes. -/
theorem proceeds_region {enter : Frame → Frame} {leave : Frame → Frame → Frame}
    (hx : ∀ s, Proceeds setting s x)
    (henter : ∀ f, (enter f).vars = f.vars ∧ (enter f).result = f.result)
    (hleave : ∀ before f, (leave before f).vars = f.vars ∧ (leave before f).result = f.result) :
    Proceeds setting s (within enter leave x) :=
  (hx _).within (fun hp => hp.of_frame_eq (henter _).1 (henter _).2) fun _ _ _ hp' =>
    hp'.of_frame_eq (hleave _ _).1 (hleave _ _).2

theorem proceeds_underGuard (guard : Option Guard) (hx : ∀ s, Proceeds setting s x) :
    Proceeds setting s (underGuard guard x) := by
  cases guard with
  | none => exact hx s
  | some guard =>
    unfold underGuard
    exact proceeds_region hx (fun _ => ⟨rfl, rfl⟩) fun _ _ => ⟨rfl, rfl⟩

theorem proceeds_inType (id : TypeId) (hx : ∀ s, Proceeds setting s x) :
    Proceeds setting s (inType id x) :=
  proceeds_region hx (fun _ => ⟨rfl, rfl⟩) fun _ _ => ⟨rfl, rfl⟩

theorem proceeds_inLoop (id : ExprId) (hx : ∀ s, Proceeds setting s x) :
    Proceeds setting s (inLoop id x) :=
  proceeds_region hx (fun _ => ⟨rfl, rfl⟩) fun _ _ => ⟨rfl, rfl⟩

/-! ### Changes to the program -/

theorem upholds_updateProgram {f : Program → α × Program}
    (h : s.Proper → s.Ages (s.withProgram (f s.program).2) ∧ (s.withProgram (f s.program).2).Proper)
    (hq : s.Proper → Q (f s.program).1 (s.withProgram (f s.program).2)) :
    Upholds setting s (updateProgram f) Q :=
  upholds_of_outcome (outcome_updateProgram f) h hq

/-- What the program records beside nodes. -/
theorem proceeds_records {f : Program → Program}
    (hnetwork : (f s.program).toNetwork = s.program.toNetwork)
    (hexprs : (f s.program).exprs = s.program.exprs)
    (hglobals : (f s.program).globals = s.program.globals)
    (hbreaks : (f s.program).blockBreaks = s.program.blockBreaks) :
    Proceeds setting s (modifyProgram f) :=
  upholds_updateProgram (fun hp => hp.records hnetwork hexprs hglobals hbreaks) fun _ => trivial

theorem proceeds_updateTypes {f : Types → α × Types}
    (h : Relation.ReflTransGen Types.Act s.program.types (f s.program.types).2) :
    Proceeds setting s (updateTypes f) :=
  upholds_updateProgram (fun hp => hp.types (Types.keepsVars_of_acts h)) fun _ => trivial

theorem proceeds_modifyTypes {f : Types → Types}
    (h : s.program.types.KeepsVars (f s.program.types)) :
    Proceeds setting s (modifyProgram fun p => p.modifyTypes f) :=
  upholds_updateProgram (fun hp => hp.types h) fun _ => trivial

theorem proceeds_metaclassOf (id : TypeId) : Proceeds setting s (metaclassOf id) :=
  proceeds_updateTypes (Types.acts_metaclassOf id)

theorem proceeds_modifyGraph {f : FlowGraph → FlowGraph}
    (h : s.program.graph.KeepsNodes (f s.program.graph)) :
    Proceeds setting s (modifyGraph f) :=
  upholds_of_outcome (outcome_modifyGraph f) (fun hp => hp.graph h) fun _ => trivial

theorem proceeds_setGuard (node : NodeId) (guard : Option Guard) :
    Proceeds setting s (setGuard node guard) :=
  proceeds_modifyGraph (FlowGraph.Touch.setGuard _ node guard).keepsNodes

theorem proceeds_setExprGuard (id : ExprId) (guard : Option Guard) :
    Proceeds setting s (setExprGuard id guard) :=
  upholds_read (reads_nodeOf id) (proceeds_setGuard _ guard)

theorem proceeds_freeze (node : NodeId) : Proceeds setting s (modifyGraph fun g => g.freeze node) :=
  proceeds_modifyGraph (FlowGraph.Touch.freeze _ node).keepsNodes

theorem proceeds_copyExpr (id : ExprId) :
    Proceeds setting s (updateProgram fun p => p.copyExpr id) :=
  upholds_updateProgram
    (fun hp => hp.grows (Program.grows_copyWithin (id.index + 1) id s.program)) fun _ => trivial

/-! ### Nodes -/

theorem upholds_addVar : Upholds setting s addVar fun node s' => s'.Joining node :=
  upholds_updateProgram (fun hp => hp.addNode .identity) fun hp => hp.joining_addVar

theorem upholds_addValue (type : TypeId) :
    Upholds setting s (addValue type) fun node s' => s'.Joining node :=
  upholds_updateProgram (fun hp => hp.addValue type) fun hp => hp.joining_addValue type

theorem upholds_addNode (derivation : Derivation) :
    Upholds setting s (updateProgram fun p => p.addNode derivation) fun node s' => s'.Loose node :=
  upholds_updateProgram (fun hp => hp.addNode derivation) fun hp =>
    hp.loose_new (FlowGraph.size_addNode ..)

theorem upholds_breakNodeOf (block : ExprId) :
    Upholds setting s (updateProgram fun p => p.breakNodeOf block) fun node s' => s'.Loose node :=
  upholds_updateProgram (fun hp => ⟨(hp.breakNodeOf block).1, (hp.breakNodeOf block).2.1⟩)
    fun hp => (hp.breakNodeOf block).2.2

theorem proceeds_onNetwork {change : Binding α}
    (h : s.Proper → s.Ages (s.withProgram (afterwards s.program change)) ∧
      (s.withProgram (afterwards s.program change)).Proper) :
    Proceeds setting s (onNetwork change) :=
  (upholds_updateProgram (f := fun p => p.onNetwork change) (Q := fun _ _ => True) h fun _ =>
    trivial).bind fun _ _ _ _ _ => upholds_ofBinding fun _ _ => trivial

theorem proceeds_bind (hn : s.Loose node) (deps : List NodeId) :
    Proceeds setting s (bind node deps) :=
  proceeds_onNetwork fun hp => hp.bind hn deps

theorem proceeds_setType (hn : s.Loose node) (type : TypeId) :
    Proceeds setting s (onNetwork (Binding.setType node type)) :=
  proceeds_onNetwork fun hp => hp.setType hn type

theorem proceeds_deriveFrom (id : ExprId) (deps : List NodeId) :
    Proceeds setting s (deriveFrom id deps) :=
  upholds_read (reads_nodeOf id) (proceeds_onNetwork fun hp => hp.bind (hp.nodeOf id) deps)

theorem proceeds_giveType (id : ExprId) (type : TypeId) : Proceeds setting s (giveType id type) :=
  upholds_read (reads_nodeOf id) (proceeds_onNetwork fun hp => hp.setType (hp.nodeOf id) type)

/-! ### Scopes and variables -/

theorem proceeds_typeOfSelf : Proceeds setting s typeOfSelf := by
  refine upholds_read reads_frame ?_
  split
  · exact proceeds_pure _
  · exact upholds_read reads_innermostType (proceeds_metaclassOf _)

theorem upholds_localVar (name : String) :
    Upholds setting s (localVar name) fun node s' => s'.Joining node := by
  refine upholds_read reads_frame ?_
  split
  · rename_i node hnode
    exact upholds_pure fun hp => hp.joining hnode
  · refine upholds_addVar.bind fun node s₁ _ _ hn =>
      (proceeds_insertVar name hn).bind fun _ s₂ hl _ _ => ?_
    exact upholds_pure fun _ => hl.joining hn

theorem upholds_globalVar (name : String) :
    Upholds setting s (globalVar name) fun node s' => s'.Loose node := by
  refine upholds_read reads_program ?_
  split
  · rename_i node hnode
    exact upholds_pure fun hp => hp.loose node (.kept (.global hnode))
  · refine upholds_addVar.bind fun node s₁ _ _ hn =>
      Upholds.bind (Q := fun _ _ => True) ?_ fun _ s₂ hl _ _ => ?_
    · exact upholds_updateProgram (fun hp => hp.insertGlobal name hn.toLoose) fun _ => trivial
    · exact upholds_pure fun _ => hl.loose hn.toLoose

end TypeFlow.Infer
