import TypeFlow.Inference.Resolution
import TypeFlow.Proofs.Inference.Primitives
import TypeFlow.Proofs.Program.Added

/-!
# Resolving calls runs

A method is typed in a frame of its own: copies of the types that it declares and of its body are
walked there, and its result collects the value of the body in a node that only the instance has.
-/

namespace TypeFlow.Infer
variable {α : Type} {setting : Setting} {kept : Kept} {s s' : WalkState} {walk : Step} {id : ExprId}

/-! ### Copies -/

theorem runs_adds {p : Program} (h : s.program.Adds p) :
    Runs setting kept true s (s.withProgram p) := by
  induction h with
  | refl => exact .refl kept s
  | @add p' construct location _ hparts ih =>
    have hlast : Act kept true (s.withProgram p')
        (s.withProgram (p'.addExpr construct location).2) :=
      .addExpr location hparts
    exact .trans ih (.act hlast)

theorem goes_copyExpr (hs : Ready kept s) (hid : s.Has id) :
    Goes setting kept s (updateProgram fun p => p.copyExpr id) fun copy s' => s'.Has copy := by
  obtain ⟨hadds, hhas⟩ := Program.adds_copyExpr hs.sound.program hid
  exact goes_of_ok (outcome_updateProgram _) (runs_adds hadds) hhas

/-- A step that comes to the same as another after a run. -/
theorem Runs.goes {x y : Infer α} {Q : α → WalkState → Prop} (h : Runs setting kept true s s')
    (hxy : x.outcome setting s = y.outcome setting s') (hy : Goes setting kept s' y Q) :
    Goes setting kept s x Q := by
  revert hy
  rw [goes_iff, goes_iff, hxy]
  rcases y.outcome setting s' with ⟨_ | a, s''⟩
  · exact fun hy => h.trans hy
  · exact fun hy => ⟨h.trans hy.1, hy.2⟩

theorem runnable_knownValue (hs : Ready kept s) (type : TypeId) :
    Runnable setting kept s (knownValue type) := by
  unfold knownValue
  refine goes_read outcome_get ?_
  split
  · exact runnable_pure _
  · refine (goes_addValue hs type).bind hs fun node s₁ _ hs₁ _ => ?_
    have hinsert : Runnable setting kept s₁
        (modifyMemo fun m => { m with values := m.values.insert type node }) :=
      goes_act (outcome_modifyMemo _) (.value s₁ type node) trivial
    exact hinsert.bind hs₁ fun _ _ _ _ _ => runnable_pure _

/-! ### Method instances -/

theorem runnable_declaredType (hw : Walks setting walk) (hs : Ready kept s) (hid : s.Has id)
    (unknown : Problem) : Runnable setting kept s (declaredType walk id unknown) := by
  unfold declaredType
  refine (goes_copyExpr hs hid).bind hs fun copy s₁ _ hs₁ hcopy => ?_
  refine (hw kept s₁ copy hs₁ hcopy).bind hs₁ fun _ _ _ _ _ => goes_read outcome_program ?_
  split
  · exact runnable_pure _
  · exact goes_problemAt ..

theorem runnable_fixResult (hw : Walks setting walk) (hs : Ready kept s) {key : MethodInstance}
    {result : NodeId} (hresult : s.memo.instances.get? key = some result)
    {returnType : Option ExprId} (hreturn : ∀ i ∈ returnType, s.Has i) :
    Runnable setting kept s (fixResult walk result returnType) := by
  unfold fixResult
  split
  · exact runnable_pure _
  · refine (runnable_declaredType hw hs (hreturn _ rfl) _).bind hs fun type s₁ hl₁ hs₁ _ => ?_
    refine (goes_onNetwork (.fixResult type (hl₁.instances key result hresult))).bind
      hs₁ fun _ _ _ _ _ => ?_
    exact runnable_touch (.freeze _ result)

theorem runnable_typeYields (hw : Walks setting walk) (hs : Ready none s)
    {blockParam : Option (BlockParam ExprId)}
    (hinputs : ∀ p ∈ blockParam, ∀ i ∈ p.inputs, s.Has i) :
    Runnable setting none s (typeYields walk blockParam) := by
  unfold typeYields
  split
  · exact runnable_pure _
  · refine (runnable_mapM _ hs fun i hi s' hl hs' => ?_).bind hs fun types s₁ _ _ _ => ?_
    · exact runnable_declaredType hw hs' (hl.has (hinputs _ rfl i hi)) _
    · exact goes_act (outcome_modifyFrame _) (.yieldTypes s₁ types rfl) trivial

theorem runnable_bodyNode (hw : Walks setting walk) (hs : Ready kept s) {body : Option ExprId}
    (hbody : ∀ i ∈ body, s.Has i) : Runnable setting kept s (bodyNode walk body) := by
  unfold bodyNode
  split
  · exact runnable_pure _
  · refine (goes_copyExpr hs (hbody _ rfl)).bind hs fun copy s₁ _ hs₁ hcopy => ?_
    refine (hw kept s₁ copy hs₁ hcopy).bind hs₁ fun _ _ _ _ _ => ?_
    exact goes_of_ok (outcome_nodeOf copy) (.refl _ _) trivial

theorem runnable_typeMethod (hw : Walks setting walk) (hs : Ready none s) {key : MethodInstance}
    {result : NodeId} (hresult : s.memo.instances.get? key = some result)
    {body returnType : Option ExprId} {blockParam : Option (BlockParam ExprId)}
    (hbody : ∀ i ∈ body, s.Has i) (hreturn : ∀ i ∈ returnType, s.Has i)
    (hinputs : ∀ p ∈ blockParam, ∀ i ∈ p.inputs, s.Has i) :
    Runnable setting none s (typeMethod walk result body returnType blockParam) := by
  unfold typeMethod
  refine (runnable_fixResult hw hs hresult hreturn).bind hs fun _ s₁ hl₁ hs₁ _ => ?_
  refine (runnable_typeYields hw hs₁ fun p hp i hi => hl₁.has (hinputs p hp i hi)).bind hs₁
    fun _ s₂ hl₂ hs₂ _ => ?_
  refine (runnable_bodyNode hw hs₂ fun i hi => hl₂.has (hl₁.has (hbody i hi))).bind hs₂
    fun value s₃ hl₃ hs₃ _ => goes_read outcome_program ?_
  have hresult₃ :=
    hl₃.instances key result (hl₂.instances key result (hl₁.instances key result hresult))
  exact (runnable_bind (hs₃.sound.instances key result hresult₃) _).mapError

/-- All variables of a method have slots. -/
theorem goes_paramVars (hs : Ready kept s) (params : List (String × TypeId))
    {vars : OrderedMap String NodeId}
    (hvars : ∀ name node, vars.get? name = some node → s.program.Slot node) :
    Goes setting kept s (paramVars params vars) fun vars s' =>
      ∀ name node, vars.get? name = some node → s'.program.Slot node := by
  induction params generalizing s vars with
  | nil => exact goes_pure hvars
  | cons param rest ih =>
    obtain ⟨name, type⟩ := param
    refine (goes_addValue hs type).bind hs fun node s₁ hl₁ hs₁ hslot =>
      ih hs₁ fun other node' hn => ?_
    rw [OrderedMap.get?_insert] at hn
    split at hn
    · cases hn; exact hslot
    · exact hl₁.program.slot (hvars other node' hn)

/-- A new instance has a new node for its result. -/
theorem goes_newInstance {f : NodeId → Infer α} {Q : α → WalkState → Prop} (hs : Ready kept s)
    {key : MethodInstance} (hnew : s.memo.instances.get? key = none)
    (hf : ∀ result s', s.Later s' → Ready kept s' → s'.memo.instances.get? key = some result →
      Goes setting kept s' (f result) Q) :
    Goes setting kept s (do
      let result ← addVar
      modifyMemo fun m => { m with instances := m.instances.insert key result }
      f result) Q := by
  have hinstance : Runs setting kept true s ((s.withProgram s.program.addVar.2).withMemo
      { s.memo with instances := s.memo.instances.insert key s.program.addVar.1 }) :=
        .act (.instance hnew)
  obtain ⟨hl, hs'⟩ := hinstance.ready hs
  refine hinstance.goes (y := f s.program.addVar.1) rfl (hf _ _ hl hs' ?_)
  exact OrderedMap.get?_insert_self ..

theorem runnable_methodResult (hw : Walks setting walk) (hs : Ready kept s) (call : ExprId)
    (owner : TypeId) (definition : ExprId) (args : List TypeId) (block : Option ExprId) :
    Runnable setting kept s (methodResult walk call owner definition args block) := by
  unfold methodResult
  refine goes_read outcome_get ?_
  split
  · exact runnable_pure _
  · rename_i hnew
    refine goes_read (outcome_construct definition) ?_
    split
    · rename_i receiver name params body returnType blockParam hc
      have hparts := hs.parts hc
      refine goes_newInstance hs hnew fun result s₁ hl₁ hs₁ hresult => ?_
      refine (goes_paramVars hs₁ _ fun _ _ hn => by cases hn).bind hs₁
        fun vars s₂ hl₂ hs₂ hvars => ?_
      refine goes_read outcome_types ?_
      have hresult₂ := hl₂.instances _ _ hresult
      have hfits :
          (Region.own { vars, scope := some owner, result := some result, block }).Fits s₂ :=
        ⟨hvars, fun node hn => by cases hn; exact ⟨_, hresult₂⟩⟩
      have hhas :
          ∀ part ∈ (Construct.methodDef receiver name params body returnType blockParam).children,
          (s₂.withFrame { vars, scope := some owner, result := some result, block }).Has part :=
        fun part hp => hl₂.has (hl₁.has (hparts part hp))
      have hframe : Runnable setting kept s₂
          (inFrame { vars, scope := some owner, result := some result, block }
            (typeMethod walk result body returnType blockParam)) := by
        refine runnable_inFrame hs₂ hfits fun hs' => runnable_typeMethod hw hs' hresult₂ ?_ ?_ ?_
        · exact fun i hi => hhas i (by simp [Construct.children, Option.mem_toList.mpr hi])
        · exact fun i hi => hhas i (by simp [Construct.children, Option.mem_toList.mpr hi])
        · rintro p hp i hi
          cases hp
          exact hhas i (by simp [Construct.children, hi])
      exact hframe.doing.bind hs₂ fun _ _ _ _ _ => runnable_pure _
    · exact goes_defectAt ..

/-! ### Built-in calls -/

theorem runnable_allocation (hs : Ready kept s) (call : ExprId) (type : TypeId) :
    Runnable setting kept s (allocation call type) :=
  (runnable_requireAllocatable call type).bind hs fun _ _ _ hs' _ => runnable_knownValue hs' type

theorem runnable_construction (hw : Walks setting walk) (hs : Ready kept s) (call : ExprId)
    (type : TypeId) (args : List TypeId) :
    Runnable setting kept s (construction walk call type args) := by
  unfold construction
  refine (runnable_allocation hs call type).bind hs fun _ s₁ _ hs₁ _ => goes_read outcome_types ?_
  dsimp only
  split
  · exact (runnable_methodResult hw hs₁ ..).bind hs₁ fun _ _ _ _ _ => runnable_pure _
  · exact goes_check (runnable_pure _)

theorem runnable_checkArguments (call : ExprId) (method : String) (position : Nat)
    (pairs : List (TypeId × TypeId)) :
    Runnable setting kept s (checkArguments call method position pairs) := by
  induction pairs generalizing position with
  | nil => exact runnable_pure _
  | cons pair rest ih =>
    obtain ⟨actual, expected⟩ := pair
    unfold checkArguments
    dsimp only
    split
    · exact goes_read (outcome_nameOf _) (goes_read (outcome_nameOf _) (goes_problemAt_bind ..))
    · exact ih _

theorem runnable_externalCall (hs : Ready kept s) (call : ExprId) (lib : TypeId) (name : String)
    (signature : Signature) (args : List TypeId) :
    Runnable setting kept s (externalCall call lib name signature args) := by
  unfold externalCall
  refine goes_read (outcome_nameOf lib) (goes_check ?_)
  exact (runnable_checkArguments ..).bind hs fun _ _ _ hs' _ => runnable_knownValue hs' _

theorem runnable_fieldCall (hs : Ready kept s) (call : ExprId) (receiver : TypeId)
    (fields : OrderedMap String TypeId) (name : String) (args : List TypeId) :
    Runnable setting kept s (fieldCall call receiver fields name args) := by
  have hvalue : ∀ type : TypeId,
      Runnable setting kept s
        (do return some (← knownValue type) : Infer (Option NodeId)) := fun type =>
    (runnable_knownValue hs type).bind hs fun _ _ _ _ _ => runnable_pure _
  unfold fieldCall
  split
  · exact hvalue _
  · split
    · exact runnable_pure _
    · split
      · exact runnable_pure _
      · dsimp only
        split
        · exact goes_read outcome_types (goes_problemAt_bind ..)
        · exact hvalue _
  · exact runnable_pure _

theorem runnable_builtinCall (hw : Walks setting walk) (hs : Ready kept s) (r : Resolution)
    (receiver : TypeId) : Runnable setting kept s (builtinCall walk r receiver) := by
  unfold builtinCall
  refine goes_read outcome_types ?_
  split
  · split
    · exact (runnable_allocation hs ..).bind hs fun _ _ _ _ _ => runnable_pure _
    · split
      · exact (runnable_construction hw hs ..).bind hs fun _ _ _ _ _ => runnable_pure _
      · split
        · split
          · exact (runnable_externalCall hs ..).bind hs fun _ _ _ _ _ => runnable_pure _
          · exact runnable_pure _
        · exact runnable_pure _
  · exact runnable_fieldCall hs ..
  · exact runnable_fieldCall hs ..
  · exact runnable_pure _

/-! ### Targets -/

theorem runnable_targetFor (hw : Walks setting walk) (hs : Ready kept s) (r : Resolution)
    (receiver : TypeId) : Runnable setting kept s (targetFor walk r receiver) := by
  unfold targetFor
  refine (runnable_builtinCall hw hs r receiver).bind hs fun target s₁ _ hs₁ _ => ?_
  split
  · exact runnable_pure _
  · refine goes_read outcome_types ?_
    split
    · exact runnable_methodResult hw hs₁ ..
    · exact goes_problemAt ..

theorem runnable_targetsFor (hw : Walks setting walk) (hs : Ready kept s) (r : Resolution)
    (targets : List NodeId) (receivers : List TypeId) :
    Runnable setting kept s (targetsFor walk r targets receivers) := by
  induction receivers generalizing s targets with
  | nil => exact runnable_pure _
  | cons receiver rest ih =>
    exact (runnable_targetFor hw hs r receiver).bind hs fun _ _ _ hs' _ => ih hs' _

/-! ### Resolutions -/

/-- From `s` to `s'` targets are looked for, and the call is bound in the end. -/
def Binds (setting : Setting) (kept : Kept) (call : ExprId) (ok : Bool) (s s' : WalkState) : Prop :=
  ∃ ok₁ ok₂ s₁, Runs setting kept ok₁ s s₁ ∧ CallAct call ok₂ s₁ s' ∧ (ok₁ && ok₂) = ok

/-- The step looks for targets and binds the call in the end. -/
def Rebinds (setting : Setting) (kept : Kept) (call : ExprId) (s : WalkState)
    (x : Infer Unit) : Prop :=
  Binds setting kept call (x.outcome setting s).1.isOk s (x.outcome setting s).2

section
variable {call : ExprId} {x : Infer α} {y : Infer Unit} {f : α → Infer Unit}
  {Q : α → WalkState → Prop}

theorem rebinds_of_runnable (h : Runnable setting kept s y) : Rebinds setting kept call s y := by
  unfold Rebinds
  rw [Runnable, goes_iff] at h
  rcases hy : y.outcome setting s with ⟨e | a, s'⟩ <;> rw [hy] at h
  · exact ⟨false, true, s', h, .stay s', rfl⟩
  · exact ⟨true, true, s', h.1, .stay s', rfl⟩

theorem Goes.rebinds (h : Goes setting kept s x Q) (hs : Ready kept s)
    (hf : ∀ a s', s.Later s' → Ready kept s' → Q a s' → Rebinds setting kept call s' (f a)) :
    Rebinds setting kept call s (x >>= f) := by
  unfold Rebinds
  rw [outcome_bind]
  rw [goes_iff] at h
  rcases hx : x.outcome setting s with ⟨e | a, s'⟩ <;> rw [hx] at h
  · exact ⟨false, true, s', h, .stay s', rfl⟩
  · obtain ⟨hl, hs'⟩ := h.1.ready hs
    obtain ⟨ok₁, ok₂, s₁, hruns, hcall, hok⟩ := hf a s' hl hs' h.2
    exact ⟨true && ok₁, ok₂, s₁, h.1.trans hruns, hcall, hok⟩

theorem rebinds_read {a : α} (h : x.outcome setting s = (.ok a, s))
    (hf : Rebinds setting kept call s (f a)) : Rebinds setting kept call s (x >>= f) := by
  unfold Rebinds
  rwa [outcome_bind, h]

theorem rebinds_rebind (hcall : s.Has call) (targets : List NodeId) :
    Rebinds setting kept call s (rebind call targets) := by
  unfold rebind
  refine rebinds_read (outcome_nodeOf call) (rebinds_read outcome_get ?_)
  dsimp only
  split
  · -- the call is unbound and bound again in one act
    have hrebind : CallAct call _ s _ := .rebind targets hcall
    have houtcome : (do
        modifyGraph fun g => g.unbind (s.program.nodeOf call) ((s.memo.targets.get? call).getD [])
        modifyMemo fun m => { m with targets := m.targets.insert call targets }
        mapError (Diagnostic.placedAt (← locationOf call))
          (bind (s.program.nodeOf call) targets)).outcome setting s =
        (mapError (Diagnostic.placedAt (s.program.location call))
          (bind (s.program.nodeOf call) targets)).outcome
          setting (unbound s call targets) := rfl
    unfold Rebinds
    rw [houtcome, outcome_mapError, bind, outcome_onNetwork]
    refine ⟨true, _, s, .refl kept s, hrebind, ?_⟩
    unfold wentWell
    rcases ((unbound s call targets).program.onNetwork
      (Binding.bind (s.program.nodeOf call) targets)).1 with _ | _ <;> rfl
  · exact rebinds_of_runnable (runnable_pure _)

end

/-- An expression with a construct other than the one of unknown expressions is there. -/
theorem has_of_construct {c : Construct ExprId}
    (hc : s.program.construct id = c) (hnop : c ≠ .nop) :
    s.Has id := by
  by_contra hid
  rw [Program.construct, Program.expr, Array.getElem?_eq_none (Nat.le_of_not_lt hid)] at hc
  exact hnop hc.symm

theorem rebinds_bindToTargets (hw : Walks setting walk) (hs : Ready kept s) (call : ExprId) :
    Rebinds setting kept call s (bindToTargets walk call) := by
  unfold bindToTargets
  refine rebinds_read outcome_program ?_
  split
  · exact rebinds_of_runnable (runnable_pure _)
  · split
    · rename_i hc
      have hcall : s.Has call := has_of_construct hc (by simp)
      split
      · exact rebinds_of_runnable (runnable_pure _)
      · dsimp only
        split
        · exact rebinds_of_runnable (runnable_pure _)
        · refine (runnable_targetsFor hw hs ..).rebinds hs fun targets s₁ hl₁ hs₁ _ => ?_
          split
          · exact rebinds_rebind (hl₁.has hcall) _
          · refine (goes_breakNodeOf hs₁ _).rebinds hs₁ fun _ s₂ hl₂ hs₂ _ => ?_
            exact rebinds_rebind (hl₂.has (hl₁.has hcall)) _
    · exact rebinds_of_runnable (runnable_pure _)

theorem rebinds_resolve (hw : Walks setting walk) (hs : Ready kept s) (call : ExprId) :
    Rebinds setting kept call s (resolve walk call) := by
  have hbind : ∀ s', Ready kept s' → Rebinds setting kept call s'
      (do if (← read).tools.resolvesCalls then bindToTargets walk call) := fun s' hs' => by
    refine rebinds_read outcome_read ?_
    split
    · exact rebinds_bindToTargets hw hs' call
    · exact rebinds_of_runnable (runnable_pure _)
  unfold resolve
  refine rebinds_read outcome_program ?_
  dsimp only
  split
  · exact (runnable_modifyJournal _).rebinds hs fun _ s' _ hs' _ => hbind s' hs'
  · exact hbind s hs

/-- A call that has been taken from the queue, or is being visited, is resolved. -/
theorem goes_resolution {fuel : Nat} (hw : Walks setting (Infer.walk fuel)) {s₁ : WalkState}
    {call : ExprId} (hs : Ready kept s) (htake : CallAct call true s s₁) {x : Infer Unit}
    (hx : x.outcome setting s = (resolve (Infer.walk fuel) call).outcome setting s₁) :
    Runnable setting kept s x := by
  obtain ⟨hl, hsound⟩ := htake.sound hs.sound
  have hs₁ : Ready kept s₁ := ⟨hsound, fun vars hk => htake.frame_eq ▸ hs.within vars hk⟩
  have hbinds := rebinds_resolve hw hs₁ call
  unfold Rebinds at hbinds
  rw [Runnable, goes_iff, hx]
  rcases ho : (resolve (Infer.walk fuel) call).outcome setting s₁ with ⟨e | ⟨⟩, s'⟩ <;>
    rw [ho] at hbinds <;>
    obtain ⟨ok₁, ok₂, s₂, hruns, hcall, hok⟩ := hbinds
  · have hok : (ok₁ && ok₂) = false := hok
    have hresolution := Runs.resolution htake hruns hcall fun h => by rw [hok] at h; cases h
    rwa [hok] at hresolution
  · have hok : (ok₁ && ok₂) = true := hok
    have hresolution := Runs.resolution htake hruns hcall fun _ => ⟨fuel, ho⟩
    rw [hok] at hresolution
    exact ⟨hresolution, trivial⟩

theorem runnable_resolve {fuel : Nat} (hw : Walks setting (Infer.walk fuel)) (hs : Ready kept s)
    (call : ExprId) :
    Runnable setting kept s (resolve (Infer.walk fuel) call) :=
  goes_resolution hw hs (.stay s) rfl

theorem runnable_resolvePending {fuel : Nat} (hw : Walks setting (Infer.walk fuel))
    (hs : Ready kept s) (count : Nat) :
    Runnable setting kept s (resolvePending (Infer.walk fuel) count) := by
  induction count generalizing s with
  | zero => exact goes_throw _
  | succ count ih =>
    unfold resolvePending
    refine goes_read outcome_program ?_
    split
    · exact runnable_pure _
    · rename_i call graph hnext
      have hnext : Runnable setting kept s (do
          modifyProgram fun p => { p with graph }
          resolve (Infer.walk fuel) call) := goes_resolution hw hs (.take hnext) rfl
      have hrest := hnext.bind hs fun _ s' _ hs' _ => ih hs'
      rwa [bind_assoc] at hrest

end TypeFlow.Infer
