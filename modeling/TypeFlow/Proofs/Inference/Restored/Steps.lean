import TypeFlow.Proofs.Inference.Guards

/-!
# What a step gives back

A step restores its context (`Restores`) when, however it ends, it is where it was: in the same
method, block, types and loops, and inside as many expansions. What it may leave behind are guards
that hold for the rest of the innermost region and variables after those there were. Nothing is
assumed of the state it starts in.
-/

namespace TypeFlow

/-! ### Variables -/

namespace OrderedMap
variable {κ ν : Type} {m m' : OrderedMap κ ν} {k : κ} {v w : ν}

theorem keys_subset_of_prefix (h : m.entries <+: m'.entries) : m.keys ⊆ m'.keys :=
  List.map_subset Prod.fst h.subset

variable [DecidableEq κ]

theorem lookupIn_append_of_some {es more : List (κ × ν)} (h : lookupIn k es = some v) :
    lookupIn k (es ++ more) = some v := by
  induction es with
  | nil => cases h
  | cons e es ih =>
    rw [lookupIn] at h
    rw [List.cons_append, lookupIn]
    split at h
    · rename_i heq
      rw [if_pos heq]; exact h
    · rename_i hne
      rw [if_neg hne]; exact ih h

theorem get?_of_prefix (h : m.entries <+: m'.entries) (hk : m.get? k = some v) :
    m'.get? k = some v := by
  obtain ⟨more, hmore⟩ := h
  show lookupIn k m'.entries = some v
  rw [← hmore]
  exact lookupIn_append_of_some hk

theorem insertIn_append {es more : List (κ × ν)} (h : k ∉ es.map Prod.fst) :
    insertIn k w (es ++ more) = es ++ insertIn k w more := by
  induction es with
  | nil => rfl
  | cons e es ih =>
    obtain ⟨hne, hrest⟩ := not_or.mp (mt List.mem_cons.mpr h)
    rw [List.cons_append, insertIn, if_neg hne, ih hrest, List.cons_append]

/-- A key that is new to the old entries is inserted after them. -/
theorem prefix_insert (h : m.entries <+: m'.entries) (hk : k ∉ m.keys) :
    m.entries <+: (m'.insert k w).entries := by
  obtain ⟨more, hmore⟩ := h
  show m.entries <+: insertIn k w m'.entries
  rw [← hmore, insertIn_append hk]
  exact List.prefix_append ..

end OrderedMap

/-! ### The context -/

/-- The frame is the same, but for guards that hold in the innermost region and for new
variables. -/
structure Frame.Restored (f f' : Frame) : Prop where
  scope : f'.scope = f.scope
  result : f'.result = f.result
  block : f'.block = f.block
  yieldTypes : f'.yieldTypes = f.yieldTypes
  insideBlock : f'.insideBlock = f.insideBlock
  enclosing : f'.enclosing = f.enclosing
  loops : f'.loops = f.loops
  guards : f.guards.Assumes f'.guards
  vars : f.vars.entries <+: f'.vars.entries

namespace Frame.Restored
variable {f f' f'' : Frame}

protected theorem refl (f : Frame) : f.Restored f :=
  ⟨rfl, rfl, rfl, rfl, rfl, rfl, rfl, .refl _, List.prefix_rfl⟩

theorem trans (h : f.Restored f') (h' : f'.Restored f'') : f.Restored f'' where
  scope := h'.scope.trans h.scope
  result := h'.result.trans h.result
  block := h'.block.trans h.block
  yieldTypes := h'.yieldTypes.trans h.yieldTypes
  insideBlock := h'.insideBlock.trans h.insideBlock
  enclosing := h'.enclosing.trans h.enclosing
  loops := h'.loops.trans h.loops
  guards := h.guards.trans h'.guards
  vars := h.vars.trans h'.vars

/-- A variable that is new is given a node. -/
theorem insert (h : f.Restored f') {name : String} (hname : name ∉ f.vars.keys) (node : NodeId) :
    f.Restored { f' with vars := f'.vars.insert name node } :=
  { h with vars := OrderedMap.prefix_insert h.vars hname }

end Frame.Restored

/-- The walk is where it was, and inside as many expansions. -/
structure WalkState.Restored (s s' : WalkState) : Prop where
  frame : s.frame.Restored s'.frame
  depth : s'.program.expansionDepth = s.program.expansionDepth

namespace WalkState.Restored
variable {s s' s'' : WalkState}

protected theorem refl (s : WalkState) : s.Restored s := ⟨.refl _, rfl⟩

theorem trans (h : s.Restored s') (h' : s'.Restored s'') : s.Restored s'' :=
  ⟨h.frame.trans h'.frame, h'.depth.trans h.depth⟩

end WalkState.Restored

namespace Infer
variable {α β γ : Type} {setting : Setting} {s s' : WalkState}

structure Restores (setting : Setting) (x : Infer α) : Prop where
  restored : ∀ s : WalkState, s.Restored (x.outcome setting s).2

/-! ### Putting steps together -/

theorem restores_of_state_eq {x : Infer α} (h : ∀ s, (x.outcome setting s).2 = s) :
    Restores setting x :=
  ⟨fun s => by rw [h s]; exact .refl s⟩

theorem restores_pure (a : α) : Restores setting (pure a : Infer α) :=
  restores_of_state_eq fun _ => rfl

theorem restores_throw (e : Failure) : Restores setting (throw e : Infer α) :=
  restores_of_state_eq fun _ => rfl

theorem restores_fail (e : Diagnostic) : Restores setting (fail e : Infer α) :=
  restores_of_state_eq fun _ => rfl

theorem restores_problemAt (id : ExprId) (problem : Problem) :
    Restores setting (problemAt id problem : Infer α) :=
  restores_of_state_eq fun _ => rfl

theorem restores_defectAt (id : ExprId) (defect : Defect) :
    Restores setting (defectAt id defect : Infer α) :=
  restores_of_state_eq fun _ => rfl

theorem Restores.bind {x : Infer α} {f : α → Infer β} (hx : Restores setting x)
    (hf : ∀ a, Restores setting (f a)) : Restores setting (x >>= f) := by
  refine ⟨fun s => ?_⟩
  have hx := hx.restored s
  rw [outcome_bind]
  rcases h : x.outcome setting s with ⟨_ | a, s'⟩ <;> rw [h] at hx
  · exact hx
  · exact hx.trans ((hf a).restored s')

/-- A step that only looks at the state comes first. -/
theorem restores_read {x : Infer α} {f : α → Infer β} (hx : ∀ s, (x.outcome setting s).2 = s)
    (hf : ∀ a, Restores setting (f a)) : Restores setting (x >>= f) :=
  (restores_of_state_eq hx).bind hf

theorem restores_check {c : Prop} [Decidable c] {f : Unit → Infer β} {id : ExprId}
    {problem : Problem} (hf : Restores setting (f ())) :
    Restores setting (if c then problemAt id problem >>= f else f ()) := by
  split
  · exact (restores_problemAt id problem).bind fun _ => hf
  · exact hf

theorem Restores.mapError {x : Infer α} (hx : Restores setting x) (f : Diagnostic → Diagnostic) :
    Restores setting (mapError f x) := by
  refine ⟨fun s => ?_⟩
  rw [outcome_mapError]
  exact hx.restored s

theorem Restores.doing {x : Infer α} (hx : Restores setting x) (id : ExprId) (problem : Problem) :
    Restores setting (doing id problem x) :=
  restores_read (fun _ => rfl) fun _ => hx.mapError _

theorem restores_forM {f : γ → Infer Unit} (cs : List γ) (hf : ∀ c ∈ cs, Restores setting (f c)) :
    Restores setting (cs.forM f) := by
  induction cs with
  | nil => exact restores_pure ()
  | cons c cs ih =>
    rw [show (c :: cs).forM f = (f c >>= fun _ => cs.forM f) from rfl]
    exact (hf c (by simp)).bind fun _ => ih fun d hd => hf d (List.mem_cons_of_mem _ hd)

theorem restores_mapM {f : γ → Infer α} (cs : List γ) (hf : ∀ c, Restores setting (f c)) :
    Restores setting (cs.mapM f) := by
  induction cs with
  | nil => exact restores_pure []
  | cons c cs ih =>
    rw [List.mapM_cons]
    exact (hf c).bind fun _ => ih.bind fun _ => restores_pure _

theorem restores_option {f : γ → Infer Unit} (c : Option γ) (hf : ∀ c, Restores setting (f c)) :
    Restores setting (c.forM f) := by
  cases c with
  | none => exact restores_pure ()
  | some c => exact hf c

/-! ### Changes -/

theorem restores_updateProgram {f : Program → α × Program}
    (h : ∀ p, (f p).2.expansionDepth = p.expansionDepth) : Restores setting (updateProgram f) :=
  ⟨fun s => ⟨.refl _, h s.program⟩⟩

theorem restores_modifyProgram {f : Program → Program}
    (h : ∀ p, (f p).expansionDepth = p.expansionDepth) :
    Restores setting (modifyProgram f) :=
  restores_updateProgram h

/-- A change to the program comes first. -/
theorem restores_change {f : Program → α × Program} {g : α → Infer β}
    (h : ∀ p, (f p).2.expansionDepth = p.expansionDepth) (hg : ∀ a, Restores setting (g a)) :
    Restores setting (updateProgram f >>= g) :=
  (restores_updateProgram h).bind hg

theorem restores_updateTypes (f : Types → α × Types) : Restores setting (updateTypes f) :=
  restores_updateProgram fun _ => rfl

theorem restores_modifyGraph (f : FlowGraph → FlowGraph) : Restores setting (modifyGraph f) :=
  restores_modifyProgram fun _ => rfl

theorem restores_modifyMemo (f : CallMemo → CallMemo) : Restores setting (modifyMemo f) :=
  ⟨fun _ => ⟨.refl _, rfl⟩⟩

theorem restores_modifyJournal (f : Journal → Journal) : Restores setting (modifyJournal f) :=
  ⟨fun _ => ⟨.refl _, rfl⟩⟩

theorem restores_modifyFrame {f : Frame → Frame} (h : ∀ frame : Frame, frame.Restored (f frame)) :
    Restores setting (modifyFrame f) :=
  ⟨fun s => ⟨h s.frame, rfl⟩⟩

theorem restores_ofBinding (r : Except GraphFailure α) : Restores setting (ofBinding r) := by
  refine restores_of_state_eq fun s => ?_
  rw [outcome_ofBinding]

theorem restores_onNetwork (change : Binding α) : Restores setting (onNetwork change) :=
  (restores_updateProgram fun _ => rfl).bind fun r => restores_ofBinding r

theorem restores_addVar : Restores setting addVar := restores_updateProgram fun _ => rfl

theorem restores_addValue (type : TypeId) : Restores setting (addValue type) :=
  restores_updateProgram fun _ => rfl

theorem restores_bind (node : NodeId) (deps : List NodeId) : Restores setting (bind node deps) :=
  restores_onNetwork _

theorem restores_deriveFrom (id : ExprId) (deps : List NodeId) :
    Restores setting (deriveFrom id deps) :=
  restores_read (fun _ => rfl) fun _ => restores_bind _ _

theorem restores_giveType (id : ExprId) (type : TypeId) : Restores setting (giveType id type) :=
  restores_read (fun _ => rfl) fun _ => restores_onNetwork _

theorem restores_setGuard (node : NodeId) (guard : Option Guard) :
    Restores setting (setGuard node guard) :=
  restores_modifyGraph _

theorem restores_setExprGuard (id : ExprId) (guard : Option Guard) :
    Restores setting (setExprGuard id guard) :=
  restores_read (fun _ => rfl) fun _ => restores_setGuard _ _

theorem restores_metaclassOf (id : TypeId) : Restores setting (metaclassOf id) :=
  restores_updateTypes _

/-! ### Scopes -/

theorem restores_typeOfSelf : Restores setting typeOfSelf := by
  refine restores_read (fun _ => rfl) fun f => ?_
  split
  · exact restores_pure _
  · exact restores_read (fun _ => rfl) fun _ => restores_metaclassOf _

theorem restores_nameScope : Restores setting nameScope := by
  refine restores_read (fun _ => rfl) fun f => ?_
  split
  · exact restores_read (fun _ => rfl) fun _ => restores_pure _
  · exact restores_of_state_eq fun _ => rfl

/-- A variable is only added if there is none of its name. -/
theorem restores_localVar (name : String) : Restores setting (localVar name) := by
  refine ⟨fun s => ?_⟩
  unfold localVar
  rw [outcome_bind, outcome_frame]
  dsimp only
  split
  · exact .refl s
  · rename_i hnone
    have hnew : name ∉ s.frame.vars.keys := fun h => OrderedMap.mem_keys.mp h hnone
    rw [outcome_bind, outcome_addVar]
    exact ⟨(Frame.Restored.refl _).insert hnew _, rfl⟩

/-! ### Regions -/

/-- The step ends inside as many expansions as it starts in, wherever else it ends. -/
structure KeepsDepth (setting : Setting) (x : Infer α) : Prop where
  depth_eq : ∀ s, (x.outcome setting s).2.program.expansionDepth = s.program.expansionDepth

theorem Restores.keepsDepth {x : Infer α} (hx : Restores setting x) : KeepsDepth setting x :=
  ⟨fun s => (hx.restored s).depth⟩

theorem KeepsDepth.bind {x : Infer α} {f : α → Infer β} (hx : KeepsDepth setting x)
    (hf : ∀ a, KeepsDepth setting (f a)) : KeepsDepth setting (x >>= f) := by
  refine ⟨fun s => ?_⟩
  have hx := hx.depth_eq s
  rw [outcome_bind]
  rcases h : x.outcome setting s with ⟨_ | a, s'⟩ <;> rw [h] at hx
  · exact hx
  · exact ((hf a).depth_eq s').trans hx

theorem restores_within {enter : Frame → Frame} {leave : Frame → Frame → Frame} {x : Infer α}
    (hx : Restores setting x)
    (hleave : ∀ before after, (enter before).Restored after →
      before.Restored (leave before after)) :
    Restores setting (within enter leave x) := by
  refine ⟨fun s => ?_⟩
  rw [outcome_within]
  have h := hx.restored (s.withFrame (enter s.frame))
  exact ⟨hleave s.frame _ h.frame, h.depth⟩

/-- What happens to a frame of its own does not matter. -/
theorem restores_inFrame (frame : Frame) {x : Infer α} (hx : KeepsDepth setting x) :
    Restores setting (inFrame frame x) := by
  refine ⟨fun s => ?_⟩
  unfold inFrame
  rw [outcome_within]
  exact ⟨.refl _, hx.depth_eq (s.withFrame frame)⟩

theorem restores_underGuard (guard : Option Guard) {x : Infer α} (hx : Restores setting x) :
    Restores setting (underGuard guard x) := by
  cases guard with
  | none => exact hx
  | some guard =>
    unfold underGuard
    refine restores_within hx fun before after h => ?_
    have hpop : after.guards.pop = before.guards := GuardStack.Assumes.pop h.guards
    exact { h with guards := hpop ▸ .refl _ }

theorem restores_inType (id : TypeId) {x : Infer α} (hx : Restores setting x) :
    Restores setting (inType id x) :=
  restores_within hx fun before after h => { h with enclosing := by rw [h.enclosing]; rfl }

theorem restores_inLoop (id : ExprId) {x : Infer α} (hx : Restores setting x) :
    Restores setting (inLoop id x) :=
  restores_within hx fun before after h => { h with loops := by rw [h.loops]; rfl }

end Infer

end TypeFlow
