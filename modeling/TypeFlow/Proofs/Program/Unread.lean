import TypeFlow.Proofs.Program.Intact

/-!
# Constants and trees in intact programs

What is still to be done moves between a walk and the constants: a declared constant takes its
value, and gives it back when it is read. New trees, from sources or as copies, are to be walked by
those who plant them.
-/

namespace TypeFlow.Program
variable {p p' : Program} {X : List NodeId} {L : List Duty} {id : ExprId} {const : ConstantId}

/-! ### Constants that have not been read -/

theorem constants_setConstantState (hlt : const.index < p.constants.size) (state : ConstantState) :
    ∃ before after, p.constants.toList = before ++ p.constant const :: after ∧
      (p.setConstantState const state).constants.toList = before ++
        { p.constant const with state } :: after := by
  have hlist : const.index < p.constants.toList.length := hlt
  have hget : p.constants.toList[const.index] = p.constant const := by
    rw [constant, Array.getElem?_eq_getElem hlt]; rfl
  refine ⟨p.constants.toList.take const.index, p.constants.toList.drop (const.index + 1), ?_, ?_⟩
  · rw [← hget]; exact (List.take_append_drop const.index p.constants.toList).symm.trans
      (by rw [List.drop_eq_getElem_cons hlist])
  · rw [setConstantState, Array.toList_modify, List.modify_eq_take_cons_drop hlist, hget]

/-- A constant that is read gives its value back. -/
theorem unread_beginConstant (hpending : (p.constant const).state = .pending) :
    p.unread.Perm (.whole (p.constant const).value :: (p.beginConstant const).unread) := by
  have hlt : const.index < p.constants.size := by
    by_contra hle
    rw [constant, Array.getElem?_eq_none (Nat.le_of_not_lt hle)] at hpending
    cases hpending
  obtain ⟨before, after, hold, hnew⟩ := constants_setConstantState hlt .evaluating
  have hunread : (p.beginConstant const).unread = (p.setConstantState const .evaluating).unread :=
    rfl
  rw [hunread, unread, unread, hold, hnew]
  simp only [List.filter_append, List.filter_cons, hpending, beq_self_eq_true, if_true,
    List.map_append, List.map_cons]
  exact List.perm_middle

theorem unread_endConstant (p : Program) (const : ConstantId) :
    (p.endConstant const).unread.Sublist p.unread := by
  rw [show (p.endConstant const).unread = (p.setConstantState const .done).unread from rfl]
  rcases Nat.lt_or_ge const.index p.constants.size with hlt | hle
  · obtain ⟨before, after, hold, hnew⟩ := constants_setConstantState hlt .done
    rw [unread, unread, hold, hnew]
    refine List.Sublist.map _ ?_
    simp only [List.filter_append, List.filter_cons, Bool.false_eq_true, if_false,
      show (ConstantState.done == ConstantState.pending) = false from rfl]
    refine (List.Sublist.refl _).append ?_
    split
    · exact List.sublist_cons_self ..
    · exact .refl _
  · rw [unread, unread, setConstantState, Array.toList_modify, List.modify_eq_self hle]

theorem mem_constants_setConstantState {c : Constant} {state : ConstantState}
    (hc : c ∈ (p.setConstantState const state).constants.toList) :
    ∃ old ∈ p.constants.toList, c = old ∨ c = { old with state } := by
  rcases Nat.lt_or_ge const.index p.constants.size with hlt | hle
  · obtain ⟨before, after, hold, hnew⟩ := constants_setConstantState (p := p) hlt state
    rw [hnew, List.mem_append, List.mem_cons] at hc
    rw [hold]
    rcases hc with hc | rfl | hc
    · exact ⟨c, by simp [hc], .inl rfl⟩
    · exact ⟨p.constant const, by simp, .inr rfl⟩
    · exact ⟨c, by simp [hc], .inl rfl⟩
  · rw [setConstantState, Array.toList_modify, List.modify_eq_self hle] at hc
    exact ⟨c, hc, .inl rfl⟩

theorem unread_addConstant {c : Constant} (hpending : c.state = .pending) :
    (p.addConstant c).unread = p.unread ++ [.whole c.value] := by
  rw [unread, unread, addConstant, Array.toList_push, List.filter_append, List.map_append]
  simp [hpending]

namespace Intact

/-- A constant takes its value; the walk that declares it leaves that alone. -/
theorem addConstant {c : Constant} (h : p.Intact X (.whole c.value :: L))
    (hpending : c.state = .pending) (hc : c.Within p.types.size) :
    p.Later (p.addConstant c) ∧ (p.addConstant c).Intact X L := by
  have hs := h.sound.addConstant (c := c) h.has
  have hperm : (L ++ (p.addConstant c).unread).Perm (.whole c.value :: (L ++ p.unread)) := by
    rw [unread_addConstant hpending, ← List.append_assoc]
    exact List.perm_append_comm
  have hprecedes : p.types.Precedes (p.types.addConstant c.owner c.name ⟨p.constants.size⟩) :=
    Types.precedes_setName _ c.owner c.name _
  have hwhole : (p.types.addConstant c.owner c.name ⟨p.constants.size⟩).Whole :=
    h.whole.setName c.owner c.name fun _ heq => nomatch heq
  refine ⟨hs.1, h.of_exprs rfl hs (h.orderly.types hprecedes hwhole)
    (Awaits.perm h.awaits hperm.symm) (fun _ _ _ hv => hv)
    (fun _ _ hs => hs) (fun node hk => .inl ?_) (fun _ _ hc => .inl hc) fun c' hc' => ?_⟩
  · cases hk with
    | global hk => exact .global hk
    | instanceVar hk => exact .instanceVar ((Types.keepsVars_setName ..).instanceVars _ _ _ hk)
    | breakNode hk => exact .breakNode hk
  · rw [Program.addConstant, Array.toList_push, List.mem_append, List.mem_singleton] at hc'
    rcases hc' with hc' | rfl
    · exact h.constants c' hc'
    · exact hc

/-- A change of the state of a constant, and of what is left to be done. -/
theorem constantState {M : List Duty} (h : p.Intact X L) (const : ConstantId)
    (state : ConstantState) (evaluating : List ConstantId)
    (ha : p.Awaits (M ++ (p.setConstantState const state).unread)) :
    p.Later { p.setConstantState const state with evaluating } ∧
      Intact X M { p.setConstantState const state with evaluating } := by
  have hs := h.sound.constantState const state evaluating
  refine ⟨hs.1, h.of_exprs rfl hs h.orderly ha (fun _ _ _ hv => hv) (fun _ _ hs => hs)
    (fun node hk => .inl ?_) (fun _ _ hc => .inl hc) fun c hc => ?_⟩
  · cases hk with
    | global hk => exact .global hk
    | instanceVar hk => exact .instanceVar hk
    | breakNode hk => exact .breakNode hk
  · obtain ⟨old, hold, rfl | rfl⟩ := mem_constants_setConstantState hc
    · exact h.constants _ hold
    · exact ⟨(h.constants old hold).scope, (h.constants old hold).enclosing⟩

theorem beginConstant (h : p.Intact X L) (hpending : (p.constant const).state = .pending) :
    p.Later (p.beginConstant const) ∧
      (p.beginConstant const).Intact X (.whole (p.constant const).value :: L) := by
  refine h.constantState const .evaluating (const :: p.evaluating) (h.awaits.perm ?_)
  exact ((unread_beginConstant hpending).append_left L).trans List.perm_middle

theorem endConstant (h : p.Intact X L) (const : ConstantId) :
    p.Later (p.endConstant const) ∧ (p.endConstant const).Intact X L :=
  h.constantState const .done p.evaluating.tail
    (h.awaits.sublist ((List.Sublist.refl L).append (unread_endConstant p const)))

theorem constant_within (h : p.Intact X L) (hpending : (p.constant const).state = .pending) :
    (p.constant const).Within p.types.size := by
  have hlt : const.index < p.constants.size := by
    by_contra hle
    rw [constant, Array.getElem?_eq_none (Nat.le_of_not_lt hle)] at hpending
    cases hpending
  rw [constant, Array.getElem?_eq_getElem hlt]
  exact h.constants _ (Array.getElem_mem_toList hlt)

/-! ### Expressions -/

theorem truncate (h : p.Intact X L) (id : ExprId) (count : Nat) :
    p.Later (p.truncate id count) ∧ (p.truncate id count).Intact X L := by
  obtain ⟨hl, hs⟩ := h.sound.truncate id count
  have hforest := h.forest.truncate id count
  have hparam : ∀ e, (p.truncate id count).IsParameter e → p.IsParameter e := by
    rintro e ⟨block, params, body, hc, hmem⟩
    refine ⟨block, params, body, ?_, hmem⟩
    rcases (expr_truncate p id block count).2 with heq | ⟨items, n, -, heq⟩
    · exact heq.symm.trans hc
    · rw [heq] at hc; cases hc
  have hnode : ∀ e, (p.truncate id count).nodeOf e = p.nodeOf e :=
    fun e => (expr_truncate p id e count).1
  have hhas : ∀ e, ¬ (p.truncate id count).Has e → ¬ p.Has e := fun e he hp => he (hl.lt hp)
  refine ⟨hl, hs, h.orderly, hforest, ?_, fun call hcall =>
    h.silent call (hhas call hcall), fun node hk => ?_,
    h.scopes, h.constants⟩
  · refine h.awaits.later hforest hl (fun e _ _ hidle => ⟨?_, hidle.silent⟩)
      (fun e _ => hparam e) h.forest
    rw [hnode]; exact hidle.vacant
  · refine hl.spare (h.spare node ?_)
    cases hk with
    | global hk => exact .global hk
    | instanceVar hk => exact .instanceVar hk
    | breakNode hk => exact .breakNode hk

theorem targets_derivationOf {α : Type} (c : Construct α) : (derivationOf c).targets = [] := by
  unfold derivationOf
  split <;> rfl

/-- A tree is planted, which is to be walked. -/
theorem plants {root : ExprId} (h : p.Intact X L) (hr : p.Plants p' [root]) :
    p.Later p' ∧ p'.Intact X (.whole root :: L) := by
  have hl := hr.adds.later
  have hrest : p'.toNetwork.Orderly X ∧ p'.unread = p.unread ∧ p'.callScopes = p.callScopes ∧
      p'.types = p.types ∧
      p'.constants = p.constants ∧ ∀ node, p'.Keeps node → p.Keeps node := by
    have hadds := hr.adds
    clear hr hl
    induction hadds with
    | refl => exact ⟨h.orderly, rfl, rfl, rfl, rfl, fun _ hk => hk⟩
    | add location _ _ ih =>
      refine ⟨ih.1.addNode (by rw [targets_derivationOf]; exact List.forall_mem_nil _), ih.2.1,
        ih.2.2.1, ih.2.2.2.1, ih.2.2.2.2.1, fun node hk => ih.2.2.2.2.2 node ?_⟩
      cases hk with
      | global hk => exact .global hk
      | instanceVar hk => exact .instanceVar hk
      | breakNode hk => exact .breakNode hk
  obtain ⟨horderly, hunread, hscopes, htypes, hconstants, hkeeps⟩ := hrest
  have hawaits := h.awaits.plants h.forest hr (fun e he => h.node_lt he) h.silent
  refine ⟨hl, hr.adds.sound h.sound, horderly, hr.forest, ?_, fun call hcall => ?_,
    fun node hk => ?_, ?_, ?_⟩
  · rw [hunread]; exact hawaits
  · exact hr.adds.silent (h.silent call fun hp => hcall (hl.lt hp))
  · exact hl.spare (h.spare node (hkeeps node hk))
  · rw [hscopes, htypes]; exact h.scopes
  · rw [hconstants, htypes]; exact h.constants

end Intact

theorem orderly_initial : Program.initial.toNetwork.Orderly [] := by
  have hempty : Network.Orderly [] ⟨.initial, .empty⟩ := by
    refine ⟨⟨Types.whole_initial, fun _ => FlowNode.within_default _, fun _ _ hd => (nomatch hd)⟩,
      fun id => ?_, fun _ hd => nomatch hd⟩
    have hknown : FlowGraph.empty.Known id .initial :=
      ⟨fun _ hd => (nomatch hd), fun _ ht => nomatch ht⟩
    exact .inl ⟨.initial, Types.solid_initial, hknown, .refl _, fun _ ha => nomatch ha⟩
  exact hempty.addTyped (by decide +kernel)

theorem intact_initial : Program.initial.Intact [] [] where
  sound := .initial
  orderly := orderly_initial
  forest := .initial
  awaits := ⟨fun _ h => (nomatch h), fun _ h => (nomatch h), fun _ he =>
    (nomatch he.choose_spec.1), List.Pairwise.nil⟩
  silent call _ := by
    have hempty : FlowGraph.Silent call .empty := ⟨fun _ ho => (nomatch ho), fun h => nomatch h⟩
    exact hempty.push rfl
  spare node hk := by
    cases hk with
    | global h => cases h
    | breakNode h => cases h
    | @instanceVar owner name h =>
      rw [show Program.initial.types = .initial from rfl, Sound.instanceVars_initial] at h
      cases h
  scopes _ _ h := nomatch h
  constants _ h := nomatch h

end TypeFlow.Program
