import TypeFlow.Proofs.Inference.Composed.Basic

/-!
# Putting steps together

Reads, errors, the changes that the walk makes and the regions it goes through, as they are
composed. The rules are those for `Goes`, but nothing is asked of the state.
-/

namespace TypeFlow

namespace WalkState

/-- The type of `self`, and the table of types that it is in. -/
def selfType (s : WalkState) : TypeId × Types :=
  match s.frame.scope with
  | some scope => (scope, s.program.types)
  | none => s.program.types.metaclassOf s.frame.innermostType

/-- The state in which the macro is looked for: it has been noted what `self` is to the call. -/
def calling (s : WalkState) (call : ExprId) : WalkState :=
  s.withProgram (Program.noteScope { s.program with types := s.selfType.2 } call s.selfType.1)

end WalkState

namespace Infer
variable {α β γ : Type} {setting : Setting} {stage : Stage} {s s' : WalkState}

/-! ### Reads -/

theorem reads_program : Reads setting s program s.program := fun _ => rfl

theorem reads_frame : Reads setting s frame s.frame := fun _ => rfl

theorem reads_types : Reads setting s types s.program.types := fun _ => rfl

theorem reads_read : Reads setting s read setting := fun _ => rfl

theorem reads_innermostType : Reads setting s innermostType s.frame.innermostType := fun _ => rfl

theorem reads_locationOf (id : ExprId) : Reads setting s (locationOf id) (s.program.location id) :=
  fun _ => rfl

theorem reads_nodeOf (id : ExprId) : Reads setting s (nodeOf id) (s.program.nodeOf id) :=
  fun _ => rfl

theorem reads_typeOf (id : ExprId) : Reads setting s (typeOf id) (s.program.typeOf id) :=
  fun _ => rfl

theorem reads_guardOf (id : ExprId) : Reads setting s (guardOf id) (s.program.guardOf id) :=
  fun _ => rfl

theorem reads_construct (id : ExprId) : Reads setting s (construct id) (s.program.construct id) :=
  fun _ => rfl

theorem reads_partNode (id : Option ExprId) :
    Reads setting s (partNode id) (s.program.partNode id) := fun _ => rfl

theorem reads_resultNodes (values : List ExprId) : Reads setting s (resultNodes values)
    (if values.isEmpty then [Program.nilNode] else values.map s.program.nodeOf) := fun _ => rfl

theorem reads_declaredHere (name : String) : Reads setting s (declaredHere name)
    ((s.program.types.get s.frame.innermostType).types.get? name) := fun _ => rfl

theorem reads_nameOf (id : TypeId) : Reads setting s (nameOf id) (s.program.types.name id) :=
  fun _ => rfl

theorem reads_nameScope : Reads setting s nameScope s.nameScope := by
  intro m
  unfold nameScope WalkState.nameScope
  rw [outcome_bind, outcome_frame]
  dsimp only [WalkState.withMemo_frame]
  rcases s.frame.scope with _ | scope <;> rfl

theorem composed_of_reads {x : Infer α} {a : α} (h : Reads setting s x a) :
    Composes setting stage s x := by
  rw [← bind_pure x]
  exact .read h (.pure s a)

/-! ### Errors -/

theorem composed_fail {e : Diagnostic} (he : e.causes = []) :
    Composes setting stage s (fail e : Infer α) :=
  .throw s fun _ h => by cases h; exact he

theorem composed_problemAt (id : ExprId) (problem : Problem) :
    Composes setting stage s (problemAt id problem : Infer α) :=
  .read (reads_locationOf id) (composed_fail rfl)

theorem composed_defectAt (id : ExprId) (defect : Defect) :
    Composed setting s (defectAt id defect : Infer α) :=
  .read (reads_locationOf id) (composed_fail rfl)

/-- After an error nothing is done. -/
theorem composed_problemAt_bind {f : α → Infer β} (id : ExprId) (problem : Problem) :
    Composes setting stage s (problemAt id problem >>= f) := by
  refine (composed_problemAt id problem).bind fun _ _ hd => ?_
  rw [Does, outcome_problemAt] at hd
  cases hd

/-- After a check it is known what has been checked. -/
theorem composed_unless {c : Prop} [Decidable c] {f : Unit → Infer β} {id : ExprId}
    {problem : Problem} (hf : ¬ c → Composed setting s (f ())) :
    Composed setting s (if c then problemAt id problem >>= f else f ()) := by
  split
  · exact composed_problemAt_bind id problem
  · exact hf ‹_›

theorem composed_check {c : Prop} [Decidable c] {f : Unit → Infer β} {id : ExprId}
    {problem : Problem} (hf : Composed setting s (f ())) :
    Composed setting s (if c then problemAt id problem >>= f else f ()) :=
  composed_unless fun _ => hf

theorem Composes.doing {x : Infer α} (hx : Composed setting s x) (id : ExprId) (problem : Problem) :
    Composed setting s (doing id problem x) :=
  .read (reads_locationOf id) (hx.mapError (.chain ..))

theorem composed_ofBinding (r : Except GraphFailure α) :
    Composes setting stage s (ofBinding r) := by
  cases r with
  | error failure =>
    refine .throw s fun d h => ?_
    cases failure <;> cases h
    rfl
  | ok a => exact .pure s a

/-! ### Lists -/

theorem composed_forM {f : γ → Infer Unit} (cs : List γ)
    (hf : ∀ c ∈ cs, ∀ s, Composed setting s (f c)) :
    Composed setting s (cs.forM f) := by
  induction cs generalizing s with
  | nil => exact .pure s ()
  | cons c cs ih =>
    rw [show (c :: cs).forM f = (f c >>= fun _ => cs.forM f) from rfl]
    exact (hf c (by simp) s).bind fun _ _ _ => ih fun d hd => hf d (List.mem_cons_of_mem _ hd)

theorem composed_mapM {f : γ → Infer α} (cs : List γ) (hf : ∀ c s, Composed setting s (f c)) :
    Composed setting s (cs.mapM f) := by
  induction cs generalizing s with
  | nil => exact .pure s []
  | cons c cs ih =>
    rw [List.mapM_cons]
    exact (hf c s).bind fun _ _ _ => ih.bind fun _ s _ => .pure s _

theorem composed_option {f : γ → Infer Unit} (c : Option γ) (hf : ∀ c s, Composed setting s (f c)) :
    Composed setting s (c.forM f) := by
  cases c with
  | none => exact .pure s ()
  | some c => exact hf c s

/-! ### Changes to the program -/

/-- Constants are not touched, and no methods are registered. -/
theorem quiet_of_constants {p : Program}
    (hcourse : ∃ deeds, Course {setting.tools} s deeds (s.withProgram p))
    (he : p.evaluating = s.program.evaluating) (hd : p.expansionDepth = s.program.expansionDepth)
    (hc : p.constants = s.program.constants) (hf : s.program.Forest → p.Forest)
    (ht : s.program.types.Respects p.types) : Quiet setting s p where
  course _ := hcourse
  evaluating := he
  depth := hd
  declares := Program.declares_of_eq hc
  registers _ := Program.registers_of_keeps ht.methods
  names := ht.names
  forest := hf

/-- Neither are expressions. -/
theorem quiet_of_exprs {p : Program}
    (hcourse : ∃ deeds, Course {setting.tools} s deeds (s.withProgram p))
    (he : p.evaluating = s.program.evaluating) (hd : p.expansionDepth = s.program.expansionDepth)
    (hc : p.constants = s.program.constants) (hexprs : p.exprs = s.program.exprs)
    (ht : s.program.types.Respects p.types) : Quiet setting s p :=
  quiet_of_constants hcourse he hd hc (fun h => h.of_exprs_eq hexprs) ht

theorem composed_change {f : Program → α × Program} {deed : Deed}
    (h : Change {setting.tools} deed s (s.withProgram (f s.program).2))
    (he : (f s.program).2.evaluating = s.program.evaluating)
    (hd : (f s.program).2.expansionDepth = s.program.expansionDepth)
    (hc : (f s.program).2.constants = s.program.constants)
    (hexprs : (f s.program).2.exprs = s.program.exprs)
    (hb : (f s.program).2.brokenLoops = s.program.brokenLoops)
    (ht : s.program.types.Respects (f s.program).2.types) :
    Composes setting stage s (updateProgram f) :=
  .update (quiet_of_exprs ⟨_, .single h⟩ he hd hc hexprs ht) hb

theorem composed_modifyGraph {f : FlowGraph → FlowGraph} {deed : Deed}
    (h : Change {setting.tools} deed s (s.withProgram (s.program.modifyGraph f))) :
    Composes setting stage s (modifyGraph f) := by
  unfold modifyGraph modifyProgram
  exact composed_change h rfl rfl rfl rfl rfl (.refl _)

theorem composed_types {f : Types → α × Types}
    (h : Relation.ReflTransGen Types.Act s.program.types (f s.program.types).2)
    (hn : s.program.types.KeepsNames (f s.program.types).2) :
    Composes setting stage s (updateTypes f) :=
  .update (quiet_of_exprs (course_types h) rfl rfl rfl rfl ⟨Types.keepsMethods_of_acts h, hn⟩) rfl

theorem composed_modifyTypes {f : Types → Types} (h : Types.Act s.program.types (f s.program.types))
    (hn : s.program.types.KeepsNames (f s.program.types)) :
    Composes setting stage s (modifyProgram fun p => p.modifyTypes f) :=
  composed_change (.types h) rfl rfl rfl rfl rfl ⟨h.keepsMethods, hn⟩

theorem grows_same {p p' : Program} (h : p.Grows p') :
    p'.constants = p.constants ∧ p'.expansionDepth = p.expansionDepth ∧ p'.types = p.types := by
  induction h with
  | refl => exact ⟨rfl, rfl, rfl⟩
  | add _ _ _ ih => exact ih

theorem grows_brokenLoops {p p' : Program} (h : p.Grows p') : p'.brokenLoops = p.brokenLoops := by
  induction h with
  | refl => rfl
  | add _ _ _ ih => exact ih

theorem composed_grows {f : Program → α × Program} (h : s.program.Grows (f s.program).2)
    (hf : s.program.Forest → (f s.program).2.Forest) : Composed setting s (updateProgram f) := by
  obtain ⟨hcourse, he⟩ : (∃ deeds, Course {setting.tools} s deeds (s.withProgram (f s.program).2)) ∧
    _ := course_grows h
  obtain ⟨hconstants, hdepth, htypes⟩ := grows_same h
  exact .update (quiet_of_constants hcourse he hdepth hconstants hf (htypes ▸ .refl _))
    (grows_brokenLoops h)

theorem composed_copyExpr (id : ExprId) :
    Composed setting s (updateProgram fun p => p.copyExpr id) :=
  composed_grows (Program.grows_copyWithin (id.index + 1) id s.program) fun h => h.copyExpr id

/-! ### Nodes -/

theorem composed_addNode (derivation : Derivation) :
    Composed setting s (updateProgram fun p => p.addNode derivation) :=
  composed_change (.addNode s derivation) rfl rfl rfl rfl rfl (.refl _)

theorem composed_addVar : Composed setting s addVar := composed_addNode .identity

theorem composed_addValue (type : TypeId) : Composed setting s (addValue type) :=
  composed_change (.addValue s type) rfl rfl rfl rfl rfl (.refl _)

theorem composed_breakNodeOf (block : ExprId) :
    Composes setting stage s (updateProgram fun p => p.breakNodeOf block) := by
  unfold Program.breakNodeOf
  rcases hnode : s.program.blockBreaks.get? block with _ | node
  · have hchange : Change {setting.tools} .other s _ := .breakNode hnode
    refine .update (quiet_of_exprs ⟨[.other], .single ?_⟩ ?_ ?_ ?_ ?_ ?_) ?_ <;> rw [hnode]
    exacts [hchange, rfl, rfl, rfl, rfl, .refl _, rfl]
  · refine .update (quiet_of_exprs ⟨[], ?_⟩ ?_ ?_ ?_ ?_ ?_) ?_ <;> rw [hnode]
    exacts [.nil s, .refl _]

theorem growsTo_bind (p : Program) (node : NodeId) (deps : List NodeId) :
    p.types.GrowsTo (afterwards p (Binding.bind node deps)).types :=
  (Network.Extends.outcome_bindNode p.toNetwork node deps).types

theorem growsTo_setType (p : Program) (node : NodeId) (type : TypeId) :
    p.types.GrowsTo (afterwards p (Binding.setType node type)).types :=
  (Network.Extends.keeps_setType p.toNetwork node type _ (.refl _)).types

/-- The network of a changed program is changed. -/
theorem Quiet.afterwards {p : Program} {change : Binding α} (h : Quiet setting s p)
    (hchange : Change {setting.tools} .other (s.withProgram p)
      (s.withProgram (afterwards p change)))
    (ht : p.types.GrowsTo (Infer.afterwards p change).types) :
    Quiet setting s (Infer.afterwards p change) := by
  refine ⟨fun htidy => ?_, h.evaluating, h.depth,
    ⟨h.declares.1, h.declares.2, h.declares.3⟩, fun htidy => ?_,
    h.names.trans ht.keepsNames, fun hs => (h.forest hs).of_exprs_eq rfl⟩
  · obtain ⟨deeds, hcourse⟩ := h.course htidy
    exact ⟨_, hcourse.append (.single hchange)⟩
  · exact fun _ _ _ hd => h.registers htidy _ _ _ (ht.keepsMethods _ _ _ hd)

theorem composed_onNetwork {change : Binding α}
    (h : Change {setting.tools} .other s (s.withProgram (afterwards s.program change)))
    (ht : s.program.types.GrowsTo (afterwards s.program change).types) :
    Composes setting stage s (onNetwork change) :=
  (composed_change (f := fun p => p.onNetwork change) h rfl rfl rfl rfl rfl
    ht.respects).bind fun r _ _ =>
    composed_ofBinding r

theorem composed_bind (node : NodeId) (deps : List NodeId) :
    Composes setting stage s (bind node deps) :=
  composed_onNetwork (.bind s node deps) (growsTo_bind _ _ _)

theorem composed_setType (node : NodeId) (type : TypeId) :
    Composes setting stage s (onNetwork (Binding.setType node type)) :=
  composed_onNetwork (.setType s node type) (growsTo_setType _ _ _)

theorem composed_deriveFrom (id : ExprId) (deps : List NodeId) :
    Composes setting stage s (deriveFrom id deps) :=
  .read (reads_nodeOf id) (composed_bind _ _)

theorem composed_giveType (id : ExprId) (type : TypeId) :
    Composes setting stage s (giveType id type) :=
  .read (reads_nodeOf id) (composed_setType _ _)

theorem composed_freeze (node : NodeId) : Composed setting s (modifyGraph fun g => g.freeze node) :=
  composed_modifyGraph (.freeze s node)

theorem composed_setExprGuard (id : ExprId) (guard : Option Guard) :
    Composed setting s (setExprGuard id guard) :=
  .read (reads_nodeOf id) (composed_modifyGraph (.prove s id guard))

/-! ### Scopes and variables -/

theorem composed_metaclassOf (id : TypeId) : Composed setting s (metaclassOf id) :=
  composed_types (Types.acts_metaclassOf id) (Types.growsTo_metaclassOf _ id).keepsNames

theorem outcome_typeOfSelf : typeOfSelf.outcome setting s =
    (.ok s.selfType.1, s.withProgram { s.program with types := s.selfType.2 }) := by
  unfold typeOfSelf
  rw [outcome_bind, outcome_frame, WalkState.selfType]
  dsimp only
  rcases s.frame.scope with _ | scope
  · dsimp only
    rw [outcome_bind, outcome_innermostType]
    rfl
  · rfl

theorem composed_typeOfSelf : Composed setting s typeOfSelf := by
  refine .read reads_frame ?_
  split
  · exact .pure s _
  · exact .read reads_innermostType (composed_metaclassOf _)

theorem composed_localVar (name : String) : Composed setting s (localVar name) := by
  refine .read reads_frame ?_
  split
  · exact .pure s _
  · exact composed_addVar.bind fun _ s _ => (Composes.frame s rfl rfl).bind fun _ s _ => .pure s _

/-! ### Regions -/

theorem composed_region (r : Region) (hr : r.Sealed) {enter : Frame → Frame}
    {leave : Frame → Frame → Frame} {x : Infer α} (henter : enter s.frame = r.enter s.frame)
    (hleave : leave s.frame = r.leave s.frame)
    (hx : Composed setting (s.withFrame (enter s.frame)) x) :
    Composed setting s (within enter leave x) :=
  .within enter leave ⟨henter, hleave, hr⟩ hx

theorem composed_inFrame (frame : Frame) {x : Infer α} (hsealed : (Region.own frame).Sealed)
    (hx : Composed setting (s.withFrame frame) x) : Composed setting s (inFrame frame x) :=
  composed_region (.own frame) hsealed rfl rfl hx

theorem composed_underGuard (guard : Option Guard) {x : Infer α} (hx : ∀ s, Composed setting s x) :
    Composed setting s (underGuard guard x) := by
  cases guard with
  | none => exact hx s
  | some guard =>
    unfold underGuard
    exact composed_region (.guarded guard) trivial rfl rfl (hx _)

theorem composed_inType (id : TypeId) {x : Infer α} (hx : ∀ s, Composed setting s x) :
    Composed setting s (inType id x) :=
  composed_region (.inType id) trivial rfl rfl (hx _)

theorem composed_inLoop (id : ExprId) {x : Infer α} (hx : ∀ s, Composed setting s x) :
    Composed setting s (inLoop id x) :=
  composed_region (.inLoop id) trivial rfl rfl (hx _)

end Infer

end TypeFlow
