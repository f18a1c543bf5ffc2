import TypeFlow.Proofs.Inference.Branches

/-!
# Declarations run

Declarations change the table of types, and what they walk are expressions of types and the bodies
of classes, modules and libs.
-/

namespace TypeFlow.Infer
variable {setting : Setting} {kept : Kept} {s s' : WalkState} {walk : Step} {id : ExprId}

/-! ### Methods and types -/

theorem runnable_methodHolder (hw : Walks setting walk) (hs : Ready kept s)
    {receiver : Option ExprId} (hreceiver : ∀ i ∈ receiver, s.Has i) :
    Runnable setting kept s (methodHolder walk receiver) := by
  unfold methodHolder
  split
  · exact runnable_innermostType
  · refine goes_read (outcome_construct _) ?_
    split
    · exact goes_read outcome_innermostType (runnable_metaclassOf _)
    · refine (runnable_denotedType hw hs (hreceiver _ rfl)).bind hs fun _ _ _ _ _ => ?_
      exact runnable_metaclassOf _

theorem runnable_walkMethodDef (hw : Walks setting walk) (hs : Ready kept s) (hid : s.Has id)
    {receiver : Option ExprId} (hreceiver : ∀ i ∈ receiver, s.Has i) (name : String)
    (params : List String) :
    Runnable setting kept s (walkMethodDef walk id receiver name params) := by
  unfold walkMethodDef
  refine (runnable_methodHolder hw hs hreceiver).bind hs fun owner s₁ hl₁ hs₁ _ => ?_
  refine Goes.bind (goes_act (Q := fun _ _ => True) (outcome_modifyProgram _)
    (.method ..) trivial) hs₁ fun _ _ hl₂ _ _ => ?_
  exact runnable_giveType (hl₂.has (hl₁.has hid)) _

theorem runnable_modifyTypes {f : Types → Types}
    (h : Types.Act s.program.types (f s.program.types)) :
    Runnable setting kept s (modifyProgram fun p => p.modifyTypes f) :=
  goes_act (outcome_modifyProgram _) (.types h) trivial

theorem runnable_walkMacroDef (hw : Walks setting walk) (hs : Ready kept s) (hid : s.Has id)
    {receiver : Option ExprId} (hreceiver : ∀ i ∈ receiver, s.Has i) (name : String)
    (params : List String) :
    Runnable setting kept s (walkMacroDef walk id receiver name params) := by
  unfold walkMacroDef
  refine (runnable_methodHolder hw hs hreceiver).bind hs fun owner s₁ hl₁ hs₁ _ => ?_
  refine (runnable_modifyTypes (.addMacroDef ..)).bind hs₁ fun _ _ hl₂ _ _ => ?_
  exact runnable_giveType (hl₂.has (hl₁.has hid)) _

theorem outcome_declaredHere (name : String) : (declaredHere name).outcome setting s =
    (.ok ((s.program.types.get s.frame.innermostType).types.get? name), s) := rfl

theorem runnable_declareHere (name : String) (kind : TypeKind) :
    Runnable setting kept s (declareHere name kind) := by
  unfold declareHere
  exact goes_read outcome_innermostType (runnable_updateTypes (.single (.declare ..)))

theorem runnable_walkBodyIn (hw : Walks setting walk) (hs : Ready kept s) (type : TypeId)
    {body : Option ExprId} (hbody : ∀ i ∈ body, s.Has i) :
    Runnable setting kept s (walkBodyIn walk type body) :=
  runnable_inType hs fun _ hl hs' => hw.optional hs' fun i hi => hl.has (hbody i hi)

theorem runnable_superclassExpr (hw : Walks setting walk) (hs : Ready kept s)
    {superclass : Option ExprId} (hsuper : ∀ i ∈ superclass, s.Has i) :
    Runnable setting kept s (superclassExpr walk superclass) := by
  unfold superclassExpr
  split
  · exact runnable_pure _
  · refine (runnable_denotedType hw hs (hsuper _ rfl)).bind hs fun _ _ _ _ _ =>
      goes_read outcome_types ?_
    split
    · exact runnable_pure _
    · exact runnable_pure _
    · exact goes_read (outcome_nameOf _) (goes_problemAt ..)

theorem runnable_reopenClass (id : ExprId) (name : String)
    (parent : Option TypeId) (entry : Named) :
    Runnable setting kept s (reopenClass id name parent entry) := by
  unfold reopenClass
  split
  · exact goes_problemAt ..
  · refine goes_read outcome_types ?_
    split
    · exact goes_check (runnable_pure _)
    · exact goes_problemAt ..

/-- The body of a declaration, and then its type. -/
theorem runnable_bodyIn (hw : Walks setting walk) (hs : Ready kept s) (hid : s.Has id)
    (type : TypeId) {body : Option ExprId} (hbody : ∀ i ∈ body, s.Has i) :
    Runnable setting kept s (do walkBodyIn walk type body; giveType id .nil) :=
  (runnable_walkBodyIn hw hs type hbody).bind hs fun _ _ hl _ _ => runnable_giveType (hl.has hid) _

theorem runnable_walkClassDef (hw : Walks setting walk) (hs : Ready kept s) (hid : s.Has id)
    {superclass body : Option ExprId} (hsuper : ∀ i ∈ superclass, s.Has i)
    (hbody : ∀ i ∈ body, s.Has i) (name : String) (typeVars : Option (List String))
    (isAbstract : Bool) :
    Runnable setting kept s (walkClassDef walk id name superclass typeVars isAbstract body) := by
  unfold walkClassDef
  refine (runnable_superclassExpr hw hs hsuper).bind hs fun parent s₁ hl₁ hs₁ _ => ?_
  refine goes_read (outcome_declaredHere name) ?_
  have htail : ∀ type s₂, s₁.Later s₂ → Ready kept s₂ →
      Runnable setting kept s₂
        (do walkBodyIn walk type body; giveType id .nil) := fun type s₂ hl₂ hs₂ =>
    runnable_bodyIn hw hs₂ (hl₂.has (hl₁.has hid)) type fun i hi => hl₂.has (hl₁.has (hbody i hi))
  dsimp only
  split
  · exact (runnable_reopenClass id name parent _).bind hs₁ fun type s₂ hl₂ hs₂ _ =>
      htail type s₂ hl₂ hs₂
  · exact (runnable_declareHere name _).bind hs₁ fun type s₂ hl₂ hs₂ _ => htail type s₂ hl₂ hs₂

theorem runnable_walkModuleDef (hw : Walks setting walk) (hs : Ready kept s) (hid : s.Has id)
    {body : Option ExprId} (hbody : ∀ i ∈ body, s.Has i) (name : String)
    (typeVars : Option (List String)) :
    Runnable setting kept s (walkModuleDef walk id name typeVars body) := by
  unfold walkModuleDef
  refine goes_read (outcome_declaredHere name) ?_
  dsimp only
  split
  · refine goes_read outcome_types ?_
    split
    · exact runnable_bodyIn hw hs hid _ hbody
    · exact goes_problemAt_bind ..
  · exact goes_problemAt_bind ..
  · refine (runnable_declareHere name _).bind hs fun type s₁ hl₁ hs₁ _ => ?_
    exact runnable_bodyIn hw hs₁ (hl₁.has hid) type fun i hi => hl₁.has (hbody i hi)

/-! ### Inclusion -/

theorem runnable_moduleExpr (hw : Walks setting walk) (hs : Ready kept s) (hid : s.Has id) :
    Runnable setting kept s (moduleExpr walk id) := by
  unfold moduleExpr
  refine (runnable_denotedType hw hs hid).bind hs fun _ _ _ _ _ => goes_read outcome_types ?_
  split
  · exact runnable_pure _
  · exact goes_read (outcome_nameOf _) (goes_problemAt ..)

theorem runnable_includeArgument (hw : Walks setting walk) (hs : Ready kept s) (own : List String)
    {arg : ExprId} (harg : s.Has arg) : Runnable setting kept s (includeArgument walk own arg) := by
  have htype :
      Runnable setting kept s (do return .type (← denotedType walk arg) : Infer ParamValue) :=
    (runnable_denotedType hw hs harg).bind hs fun _ _ _ _ _ => runnable_pure _
  unfold includeArgument
  refine goes_read (outcome_construct arg) ?_
  split
  · split
    · exact runnable_pure _
    · exact htype
  · exact htype

theorem runnable_inclusionBindings (hw : Walks setting walk) (hs : Ready kept s) (own : List String)
    (bindings : OrderedMap String ParamValue) {pairs : List (String × ExprId)}
    (hpairs : ∀ pair ∈ pairs, s.Has pair.2) :
    Runnable setting kept s (inclusionBindings walk own bindings pairs) := by
  induction pairs generalizing s bindings with
  | nil => exact runnable_pure _
  | cons pair rest ih =>
    obtain ⟨param, arg⟩ := pair
    unfold inclusionBindings
    refine (runnable_includeArgument hw hs own (hpairs (param, arg) (by simp))).bind hs
      fun _ _ hl hs' _ => ?_
    exact ih hs' _ fun pair hp => hl.has (hpairs pair (List.mem_cons_of_mem _ hp))

theorem runnable_inclusionOf (hw : Walks setting walk) (hs : Ready kept s) {name : ExprId}
    (hname : s.Has name) : Runnable setting kept s (inclusionOf walk name) := by
  unfold inclusionOf
  refine goes_read (outcome_construct name) ?_
  split
  · rename_i moduleName args hc
    have hparts := hs.parts hc
    refine (runnable_moduleExpr hw hs (hparts _ (by simp [Construct.children]))).bind hs
      fun module s₁ hl₁ hs₁ _ => goes_read outcome_types ?_
    dsimp only
    split
    · exact goes_problemAt ..
    · refine goes_check (goes_read outcome_innermostType ?_)
      refine (runnable_inclusionBindings hw hs₁ _ _ fun pair hp => hl₁.has (hparts _ ?_)).bind hs₁
        fun _ _ _ _ _ => runnable_pure _
      simp [Construct.children, (List.of_mem_zip hp).2]
  · refine (runnable_moduleExpr hw hs hname).bind hs fun _ _ _ _ _ => goes_read outcome_types ?_
    dsimp only
    split
    · exact goes_read (outcome_nameOf _) (goes_problemAt_bind ..)
    · exact runnable_pure _

theorem runnable_walkInclude (hw : Walks setting walk) (hs : Ready kept s) (hid : s.Has id)
    {name : ExprId} (hname : s.Has name) : Runnable setting kept s (walkInclude walk id name) := by
  unfold walkInclude
  refine (runnable_inclusionOf hw hs hname).bind hs fun _ s₁ hl₁ hs₁ _ =>
    goes_read outcome_innermostType ?_
  refine (runnable_modifyTypes (.includeModule ..)).bind hs₁ fun _ _ hl₂ _ _ => ?_
  exact runnable_giveType (hl₂.has (hl₁.has hid)) _

/-! ### Libs -/

theorem runnable_walkLibDef (hw : Walks setting walk) (hs : Ready kept s) (hid : s.Has id)
    {body : Option ExprId} (hbody : ∀ i ∈ body, s.Has i) (name : String) (libname : Option String) :
    Runnable setting kept s (walkLibDef walk id name libname body) := by
  unfold walkLibDef
  refine goes_read (outcome_declaredHere name) ?_
  dsimp only
  split
  · refine goes_read outcome_types ?_
    split
    · exact runnable_bodyIn hw hs hid _ hbody
    · exact goes_problemAt_bind ..
  · exact goes_problemAt_bind ..
  · refine (runnable_declareHere name _).bind hs fun type s₁ hl₁ hs₁ _ => ?_
    exact runnable_bodyIn hw hs₁ (hl₁.has hid) type fun i hi => hl₁.has (hbody i hi)

theorem runnable_externalType (hw : Walks setting walk) (hs : Ready kept s) (hid : s.Has id)
    (pointers : Nat) :
    Runnable setting kept s (externalType walk id pointers) := by
  unfold externalType
  refine (runnable_denotedType hw hs hid).bind hs fun _ _ _ _ _ => ?_
  exact goes_read outcome_types (goes_check (runnable_updateTypes (Types.acts_pointersTo ..)))

theorem runnable_externalFields (hw : Walks setting walk) (hs : Ready kept s)
    (known : OrderedMap String TypeId) {fields : List (Field ExprId)}
    (hfields : ∀ field ∈ fields, s.Has field.type) :
    Runnable setting kept s (externalFields walk known fields) := by
  induction fields generalizing s known with
  | nil => exact runnable_pure _
  | cons field rest ih =>
    unfold externalFields
    refine (runnable_externalType hw hs (hfields field (by simp)) _).bind hs fun _ _ hl hs' _ => ?_
    exact ih hs' _ fun field hf => hl.has (hfields field (List.mem_cons_of_mem _ hf))

theorem runnable_requireUndeclared (id : ExprId) (name : String) :
    Runnable setting kept s (requireUndeclared id name) := by
  unfold requireUndeclared
  refine goes_read (outcome_declaredHere name) ?_
  split
  · exact goes_problemAt ..
  · exact runnable_pure _

theorem runnable_walkAliasDef (hw : Walks setting walk) (hs : Ready kept s) (hid : s.Has id)
    {type : ExprId} (htype : s.Has type) (name : String) (pointers : Nat) :
    Runnable setting kept s (walkAliasDef walk id name type pointers) := by
  unfold walkAliasDef
  refine (runnable_requireUndeclared id name).bind hs fun _ s₁ hl₁ hs₁ _ => ?_
  refine (runnable_externalType hw hs₁ (hl₁.has htype) pointers).bind hs₁ fun _ s₂ hl₂ hs₂ _ => ?_
  refine (runnable_declareHere name _).bind hs₂ fun _ _ hl₃ _ _ => ?_
  exact runnable_giveType (hl₃.has (hl₂.has (hl₁.has hid))) _

theorem runnable_walkFieldsDef (hw : Walks setting walk) (hs : Ready kept s) (hid : s.Has id)
    {fields : List (Field ExprId)} (hfields : ∀ field ∈ fields, s.Has field.type) (name : String)
    (kind : OrderedMap String TypeId → TypeKind) :
    Runnable setting kept s (walkFieldsDef walk id name fields kind) := by
  unfold walkFieldsDef
  refine (runnable_requireUndeclared id name).bind hs fun _ s₁ hl₁ hs₁ _ => ?_
  refine (runnable_externalFields hw hs₁ ∅ fun field hf => hl₁.has (hfields field hf)).bind hs₁
    fun _ s₂ hl₂ hs₂ _ => ?_
  refine (runnable_declareHere name _).bind hs₂ fun _ _ hl₃ _ _ => ?_
  exact runnable_giveType (hl₃.has (hl₂.has (hl₁.has hid))) _

theorem runnable_walkEnumDef (hs : Ready kept s) (hid : s.Has id) (name : String)
    (constants : List EnumConstant) : Runnable setting kept s (walkEnumDef id name constants) := by
  unfold walkEnumDef
  refine (runnable_requireUndeclared id name).bind hs fun _ s₁ hl₁ hs₁ _ => ?_
  refine (runnable_declareHere name _).bind hs₁ fun _ _ hl₂ _ _ => ?_
  exact runnable_giveType (hl₂.has (hl₁.has hid)) _

theorem runnable_walkFunDef (hw : Walks setting walk) (hs : Ready kept s) (hid : s.Has id)
    {args : List (Field ExprId)} {returnType : Option ExprId} (hargs : ∀ arg ∈ args, s.Has arg.type)
    (hreturn : ∀ i ∈ returnType, s.Has i) (name realName : String) (varargs : Bool) :
    Runnable setting kept s (walkFunDef walk id name realName args returnType varargs) := by
  unfold walkFunDef
  refine goes_read outcome_innermostType ?_
  refine (runnable_mapM args hs fun arg ha s' hl hs' =>
    runnable_externalType hw hs' (hl.has (hargs arg ha)) arg.pointers).bind hs
      fun argTypes s₁ hl₁ hs₁ _ => ?_
  extract_lets declareFun
  have hdeclare : ∀ result s₂, s₁.Later s₂ → Ready kept s₂ →
      Runnable setting kept s₂ (declareFun result) := by
    intro result s₂ hl₂ hs₂
    refine goes_read outcome_types ?_
    extract_lets add
    have hadd : Runnable setting kept s₂ (add ()) := by
      refine (runnable_modifyTypes (.addFun ..)).bind hs₂ fun _ _ hl₃ _ _ => ?_
      exact runnable_giveType (hl₃.has (hl₂.has (hl₁.has hid))) _
    split
    · exact goes_check hadd
    · exact hadd
  split
  · exact (runnable_externalType hw hs₁ (hl₁.has (hreturn _ rfl)) 0).bind
      hs₁ fun result s₂ hl₂ hs₂ _ =>
      hdeclare result s₂ hl₂ hs₂
  · exact hdeclare .nil s₁ (.refl _) hs₁

end TypeFlow.Infer
