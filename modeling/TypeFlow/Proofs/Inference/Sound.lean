import TypeFlow.Proofs.Inference.Acts

/-!
# Sound states

A state of the walk is sound if its program is, the variables of its frame have slots, and methods
collect their results in slots of their own. Every walk keeps a state sound, whether it succeeds or
not (`Runs.sound`): what there was is still there, and the variables that the walk has to keep have
their nodes (`Runs.within`).
-/

namespace TypeFlow

namespace WalkState

structure Later (s s' : WalkState) : Prop where
  program : s.program.Later s'.program
  instances : ∀ key node, s.memo.instances.get? key = some node →
    s'.memo.instances.get? key = some node

structure Sound (held : NodeId → Prop) (s : WalkState) : Prop where
  program : s.program.Sound held
  vars : ∀ name node, s.frame.vars.get? name = some node → s.program.Slot node
  result : ∀ node, s.frame.result = some node → ∃ key, s.memo.instances.get? key = some node
  instances : ∀ key node, s.memo.instances.get? key = some node → s.program.Slot node
  not_held : ∀ key node, s.memo.instances.get? key = some node → ¬ held node

variable {s s' s'' : WalkState} {held : NodeId → Prop}

theorem Later.refl (s : WalkState) : s.Later s := ⟨.refl _, fun _ _ h => h⟩

theorem Later.withFrame (s : WalkState) (f : Frame) : s.Later (s.withFrame f) :=
  ⟨.refl _, fun _ _ h => h⟩

theorem Later.trans (h : s.Later s') (h' : s'.Later s'') : s.Later s'' :=
  ⟨h.program.trans h'.program, fun key node hk => h'.instances key node (h.instances key node hk)⟩

namespace Sound

theorem result_slot (h : s.Sound held) {node : NodeId} (hn : s.frame.result = some node) :
    s.program.Slot node := by
  obtain ⟨key, hk⟩ := h.result node hn
  exact h.instances key node hk

theorem withProgram {p : Program} (h : s.Sound held) (hl : s.program.Later p) (hp : p.Sound held) :
    s.Later (s.withProgram p) ∧ (s.withProgram p).Sound held :=
  ⟨⟨hl, fun _ _ h => h⟩, ⟨hp, fun name node hn => hl.slot (h.vars name node hn), h.result,
    fun key node hk => hl.slot (h.instances key node hk), h.not_held⟩⟩

/-- A frame may be changed as long as its variables and its result stay what they have to be. -/
theorem withFrame {f : Frame} (h : s.Sound held)
    (hvars : ∀ name node, f.vars.get? name = some node → s.program.Slot node)
    (hresult : ∀ node, f.result = some node → ∃ key, s.memo.instances.get? key = some node) :
    (s.withFrame f).Sound held :=
  ⟨h.program, hvars, hresult, h.instances, h.not_held⟩

end Sound

end WalkState

namespace Infer
variable {setting : Setting} {kept : Kept} {ok : Bool} {s s' : WalkState} {held : NodeId → Prop}

/-- What is kept is there. -/
def Kept.Within (kept : Kept) (s : WalkState) : Prop :=
  ∀ vars, kept = some vars → ∀ name node, vars.get? name = some node →
    s.frame.vars.get? name = some node

theorem Act.sound (h : Act kept ok s s') (hs : s.Sound held) : s.Later s' ∧ s'.Sound held := by
  have hprogram : ∀ {p : Program}, s.program.Later p ∧ p.Sound held →
      s.Later (s.withProgram p) ∧ (s.withProgram p).Sound held := fun hp => hs.withProgram hp.1 hp.2
  cases h with
  | types ht => exact hprogram (hs.program.types ht.keepsVars)
  | touch hg => exact hprogram (hs.program.graph hg.keepsNodes)
  | note hn => exact hprogram (hs.program.note hn)
  | method => exact hprogram (hs.program.addMethod ..)
  | constant hc => exact hprogram (hs.program.addConstant hc)
  | addExpr location hparts => exact hprogram (hs.program.addExpr location hparts)
  | truncate => exact hprogram (hs.program.truncate ..)
  | addNode => exact hprogram (hs.program.addNode _)
  | addValue => exact hprogram (hs.program.addValue _)
  | derive hid => exact hprogram (hs.program.bind (hs.program.node_ne_nil _ hid) _)
  | bindSlot deps hn => exact hprogram (hs.program.bind hn.ne_nil deps)
  | giveType type hid =>
    exact hprogram
      (hs.program.setType (hs.program.node_ne_nil _ hid) (hs.program.not_held _ hid) type)
  | fixResult type hk =>
    exact hprogram (hs.program.setType (hs.instances _ _ hk).ne_nil (hs.not_held _ _ hk) type)
  | «local» hfree hn =>
    refine ⟨.withFrame .., hs.withFrame (fun key other hk => ?_) hs.result⟩
    rw [OrderedMap.get?_insert] at hk
    split at hk
    · cases hk; exact hn
    · exact hs.vars key other hk
  | global name hn => exact hprogram (hs.program.global hn)
  | instanceVar => exact hprogram (hs.program.instanceVarNode ..)
  | breakNode => exact hprogram (hs.program.breakNodeOf _)
  | assume | yieldTypes => exact ⟨.withFrame .., hs.withFrame hs.vars hs.result⟩
  | «instance» hnew =>
    rename_i key
    obtain ⟨hl, hp⟩ := hs.program.addNode .identity
    have hslot := hs.program.slot_addNode .identity
    have hold : ∀ other node, s.memo.instances.get? other = some node →
        (s.memo.instances.insert key s.program.addVar.1).get? other = some node :=
      fun _ _ hk => OrderedMap.get?_insert_of_new hnew hk
    have hcases : ∀ other node,
        (s.memo.instances.insert key s.program.addVar.1).get? other = some node →
        node = s.program.addVar.1 ∨ s.memo.instances.get? other = some node := by
      intro other node hk
      rw [OrderedMap.get?_insert] at hk
      split at hk
      · cases hk; exact .inl rfl
      · exact .inr hk
    refine ⟨⟨hl, hold⟩, ⟨hp, fun name node hn => hl.slot (hs.vars name node hn), ?_, ?_, ?_⟩⟩
    · intro node hn
      obtain ⟨other, hk⟩ := hs.result node hn
      exact ⟨other, hold other node hk⟩
    · intro other node hk
      rcases hcases other node hk with rfl | hk
      · exact hslot
      · exact hl.slot (hs.instances other node hk)
    · intro other node hk hheld
      rcases hcases other node hk with rfl | hk
      · exact absurd (hs.program.nilSource.carried _ hheld).lt (Nat.lt_irrefl _)
      · exact hs.not_held other node hk hheld
  | value =>
    exact ⟨⟨.refl _, fun _ _ h => h⟩, ⟨hs.program, hs.vars, hs.result, hs.instances, hs.not_held⟩⟩
  | journal | expander =>
    exact ⟨⟨.refl _, fun _ _ h => h⟩, ⟨hs.program, hs.vars, hs.result, hs.instances, hs.not_held⟩⟩

theorem CallAct.sound {call : ExprId} (h : CallAct call ok s s') (hs : s.Sound held) :
    s.Later s' ∧ s'.Sound held := by
  cases h with
  | stay => exact ⟨.refl _, hs⟩
  | take hnext =>
    obtain ⟨hl, hp⟩ := hs.program.nextCall hnext
    exact hs.withProgram hl hp
  | rebind targets hcall =>
    have hne := hs.program.node_ne_nil _ hcall
    obtain ⟨hl, hp⟩ :=
      hs.program.unbind hne (hs.program.not_held _ hcall) ((s.memo.targets.get? call).getD [])
    obtain ⟨hl', hp'⟩ := hp.bind hne targets
    obtain ⟨⟨hl, -⟩, hs'⟩ := hs.withProgram (hl.trans hl') hp'
    exact ⟨⟨hl, fun _ _ h => h⟩, ⟨hs'.program, hs'.vars, hs'.result, hs'.instances, hs'.not_held⟩⟩

theorem CallAct.frame_eq {call : ExprId} (h : CallAct call ok s s') : s'.frame = s.frame := by
  cases h <;> rfl

theorem Act.within (h : Act kept ok s s') (hw : kept.Within s) : kept.Within s' := by
  cases h with
  | «local» hfree =>
    intro vars hkept key node hk
    rw [WalkState.withFrame_frame]
    refine (OrderedMap.get?_insert_of_ne _ _ ?_).trans (hw vars hkept key node hk)
    rintro rfl
    rw [hfree vars hkept] at hk
    cases hk
  | _ => exact hw

theorem Region.sound_enter {r : Region} (hr : r.Fits s) (hs : s.Sound held) :
    (s.withFrame (r.enter s.frame)).Sound held := by
  cases r with
  | own frame => exact hs.withFrame hr.1 hr.2
  | block id vars => exact hs.withFrame hr hs.result
  | guarded | inType | inLoop => exact hs.withFrame hs.vars hs.result

theorem Region.sound_leave {r : Region} (hs : s.Sound held) (hl : s.Later s')
    (hs' : s'.Sound held) : (s'.withFrame (r.leave s.frame s'.frame)).Sound held := by
  have hvars : ∀ name node, s.frame.vars.get? name = some node → s'.program.Slot node :=
    fun name node hn => hl.program.slot (hs.vars name node hn)
  cases r with
  | own frame =>
    refine hs'.withFrame hvars fun node hn => ?_
    obtain ⟨key, hk⟩ := hs.result node hn
    exact ⟨key, hl.instances key node hk⟩
  | block id vars => exact hs'.withFrame hvars hs'.result
  | guarded | inType | inLoop => exact hs'.withFrame hs'.vars hs'.result

/-- A walk keeps its state sound. -/
theorem Runs.sound (h : Runs setting kept ok s s') (hs : s.Sound held) :
    s.Later s' ∧ s'.Sound held := by
  induction h with
  | refl | failed => exact ⟨.refl _, hs⟩
  | act h => exact h.sound hs
  | trans _ _ ih ih' =>
    obtain ⟨hl, hs⟩ := ih hs
    obtain ⟨hl', hs'⟩ := ih' hs
    exact ⟨hl.trans hl', hs'⟩
  | evaluation _ _ ih =>
    obtain ⟨hbegin, hp⟩ := hs.program.beginConstant _
    obtain ⟨hl, hs⟩ := hs.withProgram hbegin hp
    obtain ⟨hl', hs'⟩ := ih hs
    obtain ⟨hend, hp'⟩ := hs'.program.endConstant _
    obtain ⟨hl'', hs''⟩ := hs'.withProgram hend hp'
    exact ⟨(hl.trans hl').trans hl'', hs''⟩
  | region r hr _ ih =>
    obtain ⟨hl, hs'⟩ := ih (r.sound_enter hr hs)
    exact ⟨⟨hl.program, hl.instances⟩, r.sound_leave hs ⟨hl.program, hl.instances⟩ hs'⟩
  | resolution h _ h' _ ih =>
    obtain ⟨hl₁, hs⟩ := h.sound hs
    obtain ⟨hl₂, hs⟩ := ih hs
    obtain ⟨hl₃, hs⟩ := h'.sound hs
    exact ⟨(hl₁.trans hl₂).trans hl₃, hs⟩
  | visit scope _ _ _ _ ih ih' =>
    obtain ⟨hnote, hp⟩ := hs.program.noteScope _ scope
    obtain ⟨hl₁, hs⟩ := hs.withProgram hnote hp
    obtain ⟨hl₂, hs⟩ := ih hs
    obtain ⟨hl₃, hs⟩ := ih' hs
    exact ⟨(hl₁.trans hl₂).trans hl₃, hs⟩

theorem Runs.within (h : Runs setting kept ok s s') (hw : kept.Within s) : kept.Within s' := by
  induction h with
  | refl | failed => exact hw
  | act h => exact h.within hw
  | trans _ _ ih ih' => exact ih' (ih hw)
  | evaluation _ _ ih => exact ih hw
  | region r _ _ ih =>
    cases r with
    | own | block => exact hw
    | guarded | inType | inLoop => exact ih hw
  | resolution h _ h' _ ih =>
    exact fun vars hk => h'.frame_eq ▸ ih (fun vars hk => h.frame_eq ▸ hw vars hk) vars hk
  | visit _ _ _ _ _ ih ih' => exact ih' (ih hw)

end Infer

end TypeFlow
