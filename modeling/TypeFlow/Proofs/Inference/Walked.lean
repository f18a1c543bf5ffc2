import TypeFlow.Inference.JsonToolchain
import TypeFlow.Inference.Walk
import TypeFlow.Proofs.Inference.Branches
import TypeFlow.Proofs.Inference.Resolved

/-!
# The walk runs

Every construct is walked by a run of acts and regions (`walks_walk`), expansions of macros
included, as long as the normalizer takes nothing from the program but names for temporary
variables.
-/

namespace TypeFlow

/-- A normalizer that does nothing to the program but count the temporary names that it takes. -/
def Toolchain.Tidy (tools : Toolchain) : Prop :=
  ∀ p tree, ∃ count, (tools.normalize p tree).2 = { p with temporaries := count }

namespace Toolchain

theorem tidy_standard : standard.Tidy := fun p _ => ⟨p.temporaries, rfl⟩

theorem tidy_json : json.Tidy := fun p _ => ⟨p.temporaries, rfl⟩

end Toolchain

namespace Infer
variable {α : Type} {setting : Setting} {kept : Kept} {s s' : WalkState} {walk : Step} {id : ExprId}

/-! ### Expansions -/

theorem runnable_expanderFor (hs : Ready kept s) (definition : ExprId) (args : List ExprId) :
    Runnable setting kept s (expanderFor definition args) := by
  unfold expanderFor
  refine goes_read outcome_get ?_
  dsimp only
  split
  · exact runnable_pure _
  · refine goes_read outcome_read ?_
    refine (runnable_modifyJournal _).bind hs fun _ s₁ _ hs₁ _ => ?_
    have hact : ∀ key expander, Act kept true s₁ _ := fun key expander => .expander s₁ key expander
    exact goes_act rfl (hact _ _) trivial

theorem runnable_expand (hs : Ready kept s) (expander : Expander) (call : ExprId) :
    Runnable setting kept s (expand expander call) := by
  unfold expand
  refine (runnable_modifyJournal _).bind hs fun _ s₁ _ _ _ => goes_read outcome_program ?_
  split
  · exact runnable_pure _
  · exact goes_fail _

theorem runnable_parseGenerated (hs : Ready kept s) (source file : String) :
    Runnable setting kept s (parseGenerated source file) := by
  unfold parseGenerated
  refine goes_read outcome_frame ((runnable_modifyJournal _).bind hs fun _ s₁ _ _ _ => ?_)
  refine goes_read outcome_read ?_
  split
  · exact runnable_pure _
  · exact goes_fail _

theorem goes_lowerTree (tree : Tree) :
    Goes setting kept s (lowerTree tree) fun id s' => s'.Has id := by
  obtain ⟨hadds, hhas⟩ := s.program.adds_lower tree
  have hrun : Runs setting kept true s (s.withProgram (s.program.lower tree).2) := runs_adds hadds
  rw [goes_iff]
  unfold lowerTree
  rw [outcome_bind, outcome_updateProgram]
  dsimp only
  rcases hl : (s.program.lower tree).1 with e | id
  · exact hrun.trans (.failed kept _)
  · exact ⟨hrun, hhas id hl⟩

theorem runnable_normalize (htidy : setting.tools.Tidy) (tree : Tree) :
    Runnable setting kept s (updateProgram fun p => setting.tools.normalize p tree) := by
  obtain ⟨count, hcount⟩ := htidy s.program tree
  refine goes_act (outcome_updateProgram _) (.note ?_) trivial
  rw [hcount]
  exact .temporaries ..

def atDepth (s : WalkState) (depth : Nat) : WalkState :=
  s.withProgram { s.program with expansionDepth := depth }

theorem runs_atDepth (depth : Nat) : Runs setting kept true s (atDepth s depth) :=
  .act (.note (.expansionDepth ..))

theorem outcome_inExpansion (x : Infer α) : (inExpansion x).outcome setting s =
    ((x.outcome setting (atDepth s (s.program.expansionDepth + 1))).1,
      atDepth (x.outcome setting (atDepth s (s.program.expansionDepth + 1))).2
        ((x.outcome setting
          (atDepth s (s.program.expansionDepth + 1))).2.program.expansionDepth - 1)) := by
  show StateT.run (do
      modify (inExpansion.changeDepth (· + 1))
      let result ← (ExceptT.run (x setting))
      modify (inExpansion.changeDepth (· - 1))
      return result) s = _
  rfl

theorem runnable_inExpansion {x : Infer α} (hs : Ready kept s)
    (hx : ∀ s', s.Later s' → Ready kept s' → Runnable setting kept s' x) :
    Runnable setting kept s (inExpansion x) := by
  have hdown : Runs setting kept true s _ := runs_atDepth (s.program.expansionDepth + 1)
  obtain ⟨hl, hs'⟩ := hdown.ready hs
  have h := hx _ hl hs'
  revert h
  simp only [Runnable, goes_iff]
  rw [outcome_inExpansion]
  rcases x.outcome setting (atDepth s (s.program.expansionDepth + 1)) with ⟨_ | a, s''⟩
  · exact fun h => (hdown.trans h).trans (runs_atDepth _)
  · exact fun h => ⟨(hdown.trans h.1).trans (runs_atDepth _), trivial⟩

theorem goes_typeExpansion (hw : Walks setting walk) (htidy : setting.tools.Tidy)
    (hs : Ready kept s) (source file : String) :
    Runnable setting kept s (typeExpansion walk source file) := by
  unfold typeExpansion
  refine (runnable_parseGenerated hs source file).bind hs fun tree s₁ _ hs₁ _ =>
    goes_read outcome_read ?_
  refine (runnable_normalize htidy tree).bind hs₁ fun tree s₂ _ hs₂ _ => ?_
  refine (goes_lowerTree tree).bind hs₂ fun generated s₃ _ hs₃ hhas => ?_
  refine Goes.bind (runnable_inExpansion hs₃ fun s' hl hs' => ?_) hs₃ fun _ _ _ _ _ =>
    runnable_pure _
  exact hw kept s' generated hs' (hl.has hhas)

theorem goes_expandCall (hw : Walks setting walk) (htidy : setting.tools.Tidy) (hs : Ready kept s)
    {call : ExprId} (hcall : s.Has call) (definition : ExprId) (name : String)
    (args : List ExprId) :
    Goes setting kept s (expandCall walk call definition name args) fun _ s' =>
      s'.program.expansions.get? call ≠ none := by
  unfold expandCall
  refine goes_read outcome_read (goes_read outcome_program (goes_check ?_))
  refine (runnable_expanderFor hs definition args).bind hs fun expander s₁ hl₁ hs₁ _ => ?_
  refine (runnable_expand hs₁ expander call).bind hs₁ fun source s₂ hl₂ hs₂ _ => ?_
  refine goes_read (outcome_locationOf call) ?_
  refine (goes_typeExpansion hw htidy hs₂ source _).mapError.bind hs₂
    fun generated s₃ hl₃ hs₃ _ => ?_
  have hnote : Goes setting kept s₃
      (modifyProgram fun p => { p with expansions := p.expansions.insert call generated })
      fun _ s' => s'.program.expansions.get? call ≠ none := by
    refine goes_act (outcome_modifyProgram _) (.note (.expansion _ call generated)) ?_
    rw [WalkState.withProgram_program, OrderedMap.get?_insert_self]
    exact Option.some_ne_none _
  refine hnote.bind hs₃ fun _ s₄ hl₄ _ hexpanded => goes_read (outcome_nodeOf generated) ?_
  have hcall₄ : s₄.Has call := hl₄.has (hl₃.has (hl₂.has (hl₁.has hcall)))
  refine (runnable_derive hcall₄ (.expanded hexpanded)).traced.imp fun _ s₅ ⟨hd, _⟩ => ?_
  rw [deriveFrom, does_bind_of_ok (outcome_nodeOf call)] at hd
  obtain ⟨n, -, rfl⟩ := does_onNetwork.mp hd
  exact hexpanded

theorem runnable_macroFor (hs : Ready kept s) (receiver : Option ExprId) (name : String)
    (args : List ExprId) : Runnable setting kept s (macroFor receiver name args) := by
  unfold macroFor
  split
  · exact runnable_pure _
  · exact goes_read outcome_types (runnable_nameScope.bind hs fun _ _ _ _ _ => runnable_pure _)

/-- Tells a call of changes to its inputs. -/
def observeInputs (call : ExprId) (inputs : List ExprId) : Infer Unit :=
  inputs.forM fun input => do
    let node ← nodeOf input
    modifyGraph fun g => g.addObserver node (.call call)

/-- What a visit does to a call before its inputs are walked; answers whether the call was
expanded. -/
def visitCall (walk : Step) (call : ExprId) (receiver : Option ExprId) (name : String)
    (args : List ExprId) (scope : TypeId) : Infer Bool := do
  modifyProgram fun p => p.noteScope call scope
  match ← macroFor receiver name args with
  | some definition =>
    expandCall walk call definition name args
    return true
  | none =>
    observeInputs call (receiver.toList ++ args)
    resolve walk call
    return false

theorem walkCall_eq (receiver : Option ExprId) (name : String) (args : List ExprId)
    (block : Option ExprId) : walkCall walk id receiver name args block = (do
      let scope ← typeOfSelf
      let expanded ← visitCall walk id receiver name args scope
      if expanded then return
      receiver.forM walk
      args.forM walk
      block.forM fun block => doing id (.givingBlockTo name) (walk block)) := by
  unfold walkCall visitCall
  refine congrArg _ (funext fun scope => ?_)
  rw [bind_assoc]
  refine congrArg _ (funext fun _ => ?_)
  rw [bind_assoc]
  refine congrArg _ (funext fun definition => ?_)
  cases definition with
  | none => simp only [bind_assoc, pure_bind]; rfl
  | some definition => simp only [bind_assoc, pure_bind]; exact (bind_pure _).symm

theorem goes_observeInputs (hs : Ready kept s) (call : ExprId) {inputs : List ExprId}
    (hinputs : ∀ i ∈ inputs, s.Has i) : Goes setting kept s (observeInputs call inputs) fun _ s' =>
      (∀ input ∈ inputs, .call call ∈ (s'.program.graph.node (s'.program.nodeOf input)).observers) ∧
        ∀ node, .call call ∈ (s.program.graph.node node).observers →
          .call call ∈ (s'.program.graph.node node).observers := by
  induction inputs generalizing s with
  | nil => exact goes_pure ⟨fun _ h => (nomatch h), fun _ h => h⟩
  | cons first rest ih =>
    have hfirst := hinputs first (by simp)
    have hnode := hs.sound.program.node_lt first hfirst
    have hobserve : Goes setting kept s (do
        let node ← nodeOf first
        modifyGraph fun g => g.addObserver node (.call call)) fun _ s' =>
          ∀ node, .call call ∈ (s'.program.graph.node node).observers ↔
            .call call ∈ (s.program.graph.node node).observers ∨ node = s.program.nodeOf first := by
      refine goes_read (outcome_nodeOf first)
        (goes_act (outcome_modifyGraph _) (.touch (.observe ..)) fun node => ?_)
      refine FlowGraph.mem_observers_addObserver.trans (or_congr .rfl ?_)
      exact ⟨fun h => h.1, fun h => ⟨h, hnode, rfl⟩⟩
    refine hobserve.bind hs fun _ s₁ hl₁ hs₁ hobs => ?_
    refine (ih hs₁ (hl₁.has_all fun i hi => hinputs i (by simp [hi]))).traced.imp
      fun _ s₂ ⟨_, hruns, hrest, hkeeps⟩ => ?_
    have hl₂ := (hruns.ready hs₁).1
    refine ⟨fun input hinput => ?_, fun node h => hkeeps node ((hobs node).mpr (.inl h))⟩
    rcases List.mem_cons.mp hinput with rfl | hinput
    · rw [hl₂.program.nodeOf_eq _ (hl₁.has hfirst), hl₁.program.nodeOf_eq _ hfirst]
      exact hkeeps _ ((hobs _).mpr (.inr rfl))
    · exact hrest input hinput

theorem runnable_visitCall {fuel : Nat} (hw : Walks setting (Infer.walk fuel))
    (htidy : setting.tools.Tidy) (hs : Ready kept s) {receiver : Option ExprId} {name : String}
    {args : List ExprId} {block : Option ExprId}
    (hc : s.program.construct id = .call receiver name args block) (scope : TypeId) :
    Runnable setting kept s (visitCall (Infer.walk fuel) id receiver name args scope) := by
  have hid : s.Has id := has_of_construct hc (by simp)
  obtain ⟨hl₀, hp₀⟩ := hs.sound.program.noteScope id scope
  obtain ⟨hl₀, hsound₀⟩ := hs.sound.withProgram hl₀ hp₀
  have hs₀ : Ready kept (s.withProgram (s.program.noteScope id scope)) := ⟨hsound₀, hs.within⟩
  -- what is done once the scope has been noted
  have hhead : Goes setting kept (s.withProgram (s.program.noteScope id scope)) (do
      match ← macroFor receiver name args with
      | some definition =>
        expandCall (Infer.walk fuel) id definition name args
        return true
      | none =>
        observeInputs id (receiver.toList ++ args)
        resolve (Infer.walk fuel) id
        return false) fun _ s' => s'.program.expansions.get? id ≠ none ∨
          ∃ s₁, Runs setting kept true (s.withProgram (s.program.noteScope id scope)) s₁ ∧
            s₁.program.Observes id ∧
            Runs setting kept true s₁ s' ∧ Resolves setting id s₁ s' := by
    refine (runnable_macroFor hs₀ receiver name args).traced.bind hs₀
      fun definition s₁ hl₁ hs₁ ⟨_, hr₁, _⟩ => ?_
    cases definition with
    | some definition =>
      refine (goes_expandCall hw htidy hs₁ (hl₁.has (hl₀.has hid)) ..).bind hs₁
        fun _ s₂ _ _ hexpanded => ?_
      exact goes_pure (.inl hexpanded)
    | none =>
      have hinputs : ∀ i ∈ receiver.toList ++ args, s₁.Has i := fun i hi =>
        hl₁.has (hl₀.has (hs.parts hc i (List.mem_append_left _ hi)))
      refine (goes_observeInputs hs₁ id hinputs).traced.bind hs₁
        fun _ s₂ hl₂ hs₂ ⟨_, hr₂, hobs, _⟩ => ?_
      refine (runnable_resolve hw hs₂ id).traced.bind hs₂ fun _ s₃ _ _ ⟨hd₃, hr₃, _⟩ => ?_
      have hc₂ : s₂.program.construct id = .call receiver name args block :=
        ((hl₀.trans hl₁).trans hl₂).program.construct_eq hc (by simp) (by simp)
      refine goes_pure (.inr ⟨s₂, hr₁.trans hr₂, fun input hinput => hobs input ?_, hr₃, fuel, hd₃⟩)
      rwa [hc₂] at hinput
  rw [goes_iff] at hhead
  unfold visitCall
  rw [Runnable, goes_iff, outcome_bind, outcome_modifyProgram]
  dsimp only
  rcases ho : outcome _ setting (s.withProgram (s.program.noteScope id scope)) with
    ⟨e | expanded, s'⟩ <;> rw [ho] at hhead
  · exact .visit scope hid hhead (.refl kept s') fun h => by cases h
  · obtain ⟨hruns, hexpanded | ⟨s₁, hr₁, hobs, hr₂, hres⟩⟩ := hhead
    · exact ⟨.visit scope hid hruns (.refl kept s') fun _ => .inl hexpanded, trivial⟩
    · exact ⟨.visit scope hid hr₁ hr₂ fun _ => .inr ⟨hobs, hres⟩, trivial⟩

theorem runnable_walkCall {fuel : Nat} (hw : Walks setting (Infer.walk fuel))
    (htidy : setting.tools.Tidy) (hs : Ready kept s) {receiver : Option ExprId} {name : String}
    {args : List ExprId} {block : Option ExprId}
    (hc : s.program.construct id = .call receiver name args block) :
    Runnable setting kept s (walkCall (Infer.walk fuel) id receiver name args block) := by
  have hparts := hs.parts hc
  rw [walkCall_eq]
  refine runnable_typeOfSelf.bind hs fun scope s₁ hl₁ hs₁ _ => ?_
  have hc₁ := hl₁.program.construct_eq hc (by simp) (by simp)
  refine (runnable_visitCall hw htidy hs₁ hc₁ scope).bind hs₁ fun expanded s₂ hl₂ hs₂ _ => ?_
  have hhas : ∀ i ∈ receiver.toList ++ args ++ block.toList, s₂.Has i := fun i hi =>
    hl₂.has (hl₁.has (hparts i hi))
  split
  · exact runnable_pure _
  · refine (hw.optional hs₂ fun i hi => hhas i (by simp [Option.mem_toList.mpr hi])).bind hs₂
      fun _ s₃ hl₃ hs₃ _ => ?_
    refine (hw.all hs₃ fun i hi => hl₃.has (hhas i (by simp [hi]))).bind hs₃
      fun _ s₄ hl₄ hs₄ _ => ?_
    refine runnable_option _ fun i hi => Goes.doing ?_
    exact hw kept s₄ i hs₄ (hl₄.has (hl₃.has (hhas i (by simp [Option.mem_toList.mpr hi]))))

/-! ### All constructs -/

theorem runnable_walkConstruct {fuel : Nat} (hw : Walks setting (Infer.walk fuel))
    (htidy : setting.tools.Tidy) (hs : Ready kept s) (hid : s.Has id) {c : Construct ExprId}
    (hc : s.program.construct id = c) :
    Runnable setting kept s (walkConstruct (Infer.walk fuel) id c) := by
  have hparts := hs.parts hc
  have hplain : c.isCall = false → s.Plain id := fun h => ⟨hid, hc ▸ h⟩
  have hlist : ∀ ids : List ExprId, (∀ i ∈ ids, i ∈ c.children) → ∀ i ∈ ids, s.Has i :=
    fun _ h i hi => hparts i (h i hi)
  have hoption : ∀ o : Option ExprId, (∀ i ∈ o.toList, i ∈ c.children) → ∀ i ∈ o, s.Has i :=
    fun _ h i hi => hparts i (h i (Option.mem_toList.mpr hi))
  cases c with
  | nop | nilLiteral | boolLiteral | charLiteral | numberLiteral | stringLiteral =>
    exact runnable_giveType hid _
  | symbolLiteral =>
    exact (runnable_note (.symbol ..)).bind hs fun _ _ hl _ _ => runnable_giveType (hl.has hid) _
  | sequence items => exact runnable_walkSequence hw hs (hplain rfl) hparts
  -- names
  | var => exact runnable_walkVar hs (hplain rfl) _
  | instanceVar => exact runnable_walkInstanceVar hs (hplain rfl) _
  | globalVar => exact runnable_walkGlobalVar (hplain rfl) _
  | path => exact runnable_walkPath hw hs (hplain rfl) _ _
  | declareVar =>
    exact runnable_walkDeclareVar hw hs (hplain rfl) (hparts _ (by simp [Construct.children])) _
  | assign =>
    exact runnable_walkAssign hw hs (hplain rfl) (hparts _ (by simp [Construct.children]))
      (hparts _ (by simp [Construct.children]))
  | multiAssign targets values =>
    exact runnable_walkMultiAssign hw hs (hplain rfl)
      (hlist targets (by simp +contextual [Construct.children]))
      (hlist values (by simp +contextual [Construct.children]))
  -- control flow
  | conditional cond onTrue onFalse operator =>
    exact runnable_walkConditional hw hs (hplain rfl) (hparts cond (by simp [Construct.children]))
      (hoption onTrue (by simp +contextual [Construct.children]))
      (hoption onFalse (by simp +contextual [Construct.children])) operator
  | loop cond body =>
    exact runnable_walkLoop hw hs hid (hparts cond (by simp [Construct.children]))
      (hoption body (by simp +contextual [Construct.children]))
  | breakOut => exact runnable_walkBreak hw hs hid hparts
  | returnFrom => exact runnable_walkReturn hw hs hid hparts
  | yieldTo => exact runnable_walkYield hw hs (hplain rfl) hparts
  | call => exact runnable_walkCall hw htidy hs hc
  | block params body =>
    exact runnable_walkBlock hw hs (hplain rfl)
      (hlist params (by simp +contextual [Construct.children]))
      (hoption body (by simp +contextual [Construct.children]))
  -- declarations
  | methodDef receiver =>
    exact runnable_walkMethodDef hw hs hid
      (hoption receiver (by simp +contextual [Construct.children])) _ _
  | macroDef receiver =>
    exact runnable_walkMacroDef hw hs hid
      (hoption receiver (by simp +contextual [Construct.children])) _ _
  | classDef _ superclass _ _ body =>
    exact runnable_walkClassDef hw hs hid
      (hoption superclass (by simp +contextual [Construct.children]))
      (hoption body (by simp +contextual [Construct.children])) _ _ _
  | moduleDef _ _ body =>
    exact runnable_walkModuleDef hw hs hid
      (hoption body (by simp +contextual [Construct.children])) _ _
  | includeModule => exact runnable_walkInclude hw hs hid (hparts _ (by simp [Construct.children]))
  | libDef _ _ body =>
    exact runnable_walkLibDef hw hs hid
      (hoption body (by simp +contextual [Construct.children])) _ _
  | funDef _ _ args returnType =>
    exact runnable_walkFunDef hw hs hid
      (fun arg ha => hparts _ (by simp only [Construct.children]; simp [List.mem_map_of_mem ha]))
      (hoption returnType (by simp +contextual [Construct.children])) _ _ _
  | aliasDef => exact runnable_walkAliasDef hw hs hid (hparts _ (by simp [Construct.children])) _ _
  | structDef | unionDef =>
    exact runnable_walkFieldsDef hw hs hid (fun field hf => hparts _ (List.mem_map_of_mem hf)) _ _
  | enumDef => exact runnable_walkEnumDef hs hid _ _
  -- primitives
  | structGet | unionGet => exact runnable_walkFieldGet hs hid _
  | structSet | unionSet => exact runnable_walkFieldSet hs hid _
  | classOfSelf => exact runnable_walkClassOfSelf hs hid
  | allocate => exact runnable_walkAllocate hs hid
  | eitherValue =>
    exact runnable_walkEither hw hs (hplain rfl) (hparts _ (by simp [Construct.children]))
      (hparts _ (by simp [Construct.children]))
  | typeUnion => exact runnable_walkTypeUnion hw hs hid hparts
  | genericInstance name args =>
    exact runnable_walkGenericInstance hw hs hid (hparts name (by simp [Construct.children]))
      (hlist args (by simp +contextual [Construct.children]))
  | isA =>
    exact runnable_walkIsA hw hs hid (hparts _ (by simp [Construct.children]))
      (hparts _ (by simp [Construct.children]))
  | typeOf => exact runnable_walkTypeOf hw hs (hplain rfl) hparts
  | pointerOf =>
    exact runnable_walkPointerOf hw hs (hplain rfl) (hparts _ (by simp [Construct.children]))
  | pointerMalloc | pointerRealloc | pointerAdd => exact runnable_walkSamePointer hs hid
  | pointerGetValue => exact runnable_walkPointerGet hs hid
  | pointerSetValue => exact runnable_walkPointerSet hs (hplain rfl)
  | pointerCast => exact runnable_walkPointerCast hs hid

/-- An expression is walked, and then the calls are resolved that this has put into the queue. -/
theorem does_walk_succ {fuel : Nat} (hd : (Infer.walk (fuel + 1) id).Does setting s () s') :
    ∃ m, (walkConstruct (Infer.walk fuel) id (s.program.construct id)).Does setting s () m ∧
      (resolvePending (Infer.walk fuel) fuel).Does setting m () s' := by
  rw [Infer.walk, does_bind_of_ok (outcome_construct id),
    does_bind_of_ok (outcome_locationOf id)] at hd
  obtain ⟨⟨⟩, m, hconstruct, hresolve⟩ := does_bind.mp hd
  exact ⟨m, does_mapError.mp hconstruct, hresolve⟩

/-- The walk runs, however deep it may go. -/
theorem walks_walk (htidy : setting.tools.Tidy) (fuel : Nat) : Walks setting (Infer.walk fuel) := by
  induction fuel with
  | zero => exact fun _ _ _ _ _ => goes_throw _
  | succ fuel ih =>
    intro kept s id hs hid
    refine goes_read (outcome_construct id) (goes_read (outcome_locationOf id) ?_)
    have hconstruct :
        Runnable setting kept s (walkConstruct (Infer.walk fuel) id (s.program.construct id)) :=
      runnable_walkConstruct ih htidy hs hid rfl
    exact hconstruct.mapError.bind hs fun _ s' _ hs' _ => runnable_resolvePending ih hs' fuel

end Infer

end TypeFlow
