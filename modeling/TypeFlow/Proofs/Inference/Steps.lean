import TypeFlow.Proofs.Inference.Going

/-!
# Basic steps run

The steps that the others are put together from. New nodes are slots, and so are the nodes of
variables.
-/

namespace TypeFlow.Infer
variable {α : Type} {setting : Setting} {kept : Kept} {s s' : WalkState}

theorem goes_act {x : Infer α} {Q : α → WalkState → Prop} {a : α}
    (h : x.outcome setting s = (.ok a, s')) (ha : Act kept true s s') (hq : Q a s') :
    Goes setting kept s x Q :=
  goes_of_ok h (.act ha) hq

/-! ### Nodes -/

theorem goes_addVar (hs : Ready kept s) :
    Goes setting kept s addVar fun node s' => s'.program.Slot node :=
  goes_act (outcome_updateProgram Program.addVar) (.addNode s .identity)
    (hs.sound.program.slot_addNode .identity)

theorem goes_addValue (hs : Ready kept s) (type : TypeId) :
    Goes setting kept s (addValue type) fun node s' => s'.program.Slot node :=
  goes_act (outcome_updateProgram _) (.addValue s type) (hs.sound.program.slot_addValue type)

theorem goes_addNode (hs : Ready kept s) (derivation : Derivation) :
    Goes setting kept s (updateProgram fun p => p.addNode derivation) fun node s' =>
      s'.program.Slot node :=
  goes_act (outcome_updateProgram _) (.addNode s derivation)
    (hs.sound.program.slot_addNode derivation)

theorem goes_onNetwork {change : Binding α} (h : Act kept (wentWell s.program change) s
    (s.withProgram (afterwards s.program change))) :
    Runnable setting kept s (onNetwork change) := by
  revert h
  simp only [Runnable, goes_iff]
  rw [outcome_onNetwork]
  unfold wentWell afterwards
  rcases s.program.onNetwork change with ⟨_ | a, p⟩
  · exact fun h => .act h
  · exact fun h => ⟨.act h, trivial⟩

theorem runnable_bind {node : NodeId} (hn : s.program.Slot node) (deps : List NodeId) :
    Runnable setting kept s (bind node deps) :=
  goes_onNetwork (.bindSlot deps hn)

theorem runnable_derive {id : ExprId} {deps : List NodeId} (hid : s.Has id)
    (hd : s.program.Derives id deps) : Runnable setting kept s (deriveFrom id deps) :=
  goes_read (outcome_nodeOf id) (goes_onNetwork (.derive hid hd))

theorem runnable_deriveFrom {id : ExprId} (hid : s.Plain id) (deps : List NodeId) :
    Runnable setting kept s (deriveFrom id deps) :=
  runnable_derive hid.has (.plain hid.isCall)

theorem runnable_giveType {id : ExprId} (hid : s.Has id) (type : TypeId) :
    Runnable setting kept s (giveType id type) :=
  goes_read (outcome_nodeOf id) (goes_onNetwork (.giveType type hid))

theorem runnable_touch {f : FlowGraph → FlowGraph} (h : s.program.graph.Touch (f s.program.graph)) :
    Runnable setting kept s (modifyGraph f) :=
  goes_act (outcome_modifyGraph f) (.touch h) trivial

theorem runnable_setGuard (node : NodeId) (guard : Option Guard) :
    Runnable setting kept s (setGuard node guard) :=
  runnable_touch (.setGuard _ node guard)

theorem runnable_setExprGuard (id : ExprId) (guard : Option Guard) :
    Runnable setting kept s (setExprGuard id guard) :=
  goes_read (outcome_nodeOf id) (runnable_setGuard _ guard)

theorem runnable_note {f : Program → Program} (h : s.program.Note (f s.program)) :
    Runnable setting kept s (modifyProgram f) :=
  goes_act (outcome_modifyProgram f) (.note h) trivial

theorem runnable_modifyJournal (f : Journal → Journal) :
    Runnable setting kept s (modifyJournal f) := by
  have hact : Act kept true s _ := .journal s f
  exact goes_act rfl hact trivial

/-! ### Types -/

/-- A change to the table of types that is made of several. -/
theorem runs_types {t : Types} (h : Relation.ReflTransGen Types.Act s.program.types t) :
    Runs setting kept true s (s.withProgram { s.program with types := t }) := by
  induction h with
  | refl => exact .refl kept s
  | @tail t t' _ hact ih =>
    have hlast : Act kept true (s.withProgram { s.program with types := t })
        (s.withProgram { s.program with types := t' }) := .types hact
    exact .trans ih (.act hlast)

theorem runnable_updateTypes {f : Types → α × Types}
    (h : Relation.ReflTransGen Types.Act s.program.types (f s.program.types).2) :
    Runnable setting kept s (updateTypes f) :=
  goes_of_ok (outcome_updateTypes f) (runs_types h) trivial

end TypeFlow.Infer

namespace TypeFlow.Types
variable {t : Types}

theorem acts_apply (generic : TypeId) (args : List TypeId) :
    Relation.ReflTransGen Act t (t.apply generic args).2 :=
  .single (.grow (growsTo_apply t generic args))

theorem acts_pointersTo (id : TypeId) (count : Nat) :
    Relation.ReflTransGen Act t (t.pointersTo id count).2 :=
  .single (.grow (growsTo_pointersTo t id count))

theorem acts_metaclassOf (id : TypeId) : Relation.ReflTransGen Act t (t.metaclassOf id).2 :=
  .single (.grow (growsTo_metaclassOf t id))

theorem acts_join (ids : List TypeId) : Relation.ReflTransGen Act t (t.join ids).2 :=
  .single (.grow (growsTo_join t ids))

end TypeFlow.Types

namespace TypeFlow.Infer
variable {setting : Setting} {kept : Kept} {s s' : WalkState}

theorem runnable_metaclassOf (id : TypeId) : Runnable setting kept s (metaclassOf id) :=
  runnable_updateTypes (Types.acts_metaclassOf id)

/-! ### Scopes -/

theorem runnable_typeOfSelf : Runnable setting kept s typeOfSelf := by
  unfold typeOfSelf
  refine goes_read outcome_frame ?_
  split
  · exact runnable_pure _
  · exact goes_read outcome_innermostType (runnable_metaclassOf _)

theorem runnable_innermostType : Runnable setting kept s innermostType :=
  goes_of_ok outcome_innermostType (.refl _ _) trivial

theorem runnable_nameScope : Runnable setting kept s nameScope := by
  unfold nameScope
  refine goes_read outcome_frame ?_
  split
  · exact goes_read outcome_types (runnable_pure _)
  · exact runnable_innermostType

/-- A new variable takes no name that has to be kept. -/
theorem Ready.frees (hs : Ready kept s) {name : String} (h : s.frame.vars.get? name = none) :
    kept.Frees name := by
  intro vars hkept
  refine Option.eq_none_iff_forall_ne_some.mpr fun node hn => ?_
  rw [hs.within vars hkept name node hn] at h
  cases h

theorem goes_localVar (hs : Ready kept s) (name : String) :
    Goes setting kept s (localVar name) fun node s' => s'.program.Slot node := by
  unfold localVar
  refine goes_read outcome_frame ?_
  split
  · rename_i node hn
    exact goes_pure (hs.sound.vars name node hn)
  · rename_i hnone
    have hf := hs.frees hnone
    refine (goes_addVar hs).bind hs fun node s' _ hs' hslot => ?_
    have hinsert : Runnable setting kept s'
        (modifyFrame fun f => { f with vars := f.vars.insert name node }) :=
      goes_act (outcome_modifyFrame _) (.local hf hslot) trivial
    exact hinsert.bind hs' fun _ _ hl _ _ => goes_pure (hl.program.slot hslot)

end TypeFlow.Infer
