import TypeFlow.Proofs.Inference.Restored.Constructs

/-!
# Declarations and primitives give their context back

The body of a class, module or lib is walked inside of it, and the type is left again however that
ends. The other declarations and the bodies of built-in methods do not touch the context.
-/

namespace TypeFlow.Infer
variable {setting : Setting} {walk : Step}

/-! ### Methods and types -/

theorem restores_innermostType : Restores setting innermostType := restores_of_state_eq fun _ => rfl

theorem restores_methodHolder (hw : ∀ id, Restores setting (walk id)) (receiver : Option ExprId) :
    Restores setting (methodHolder walk receiver) := by
  unfold methodHolder
  split
  · exact restores_innermostType
  · refine restores_read (fun _ => rfl) fun c => ?_
    split
    · exact restores_innermostType.bind fun _ => restores_metaclassOf _
    · exact (restores_denotedType hw _).bind fun _ => restores_metaclassOf _

theorem restores_walkMethodDef (hw : ∀ id, Restores setting (walk id)) (id : ExprId)
    (receiver : Option ExprId) (name : String) (params : List String) :
    Restores setting (walkMethodDef walk id receiver name params) := by
  refine (restores_methodHolder hw receiver).bind fun owner => ?_
  refine restores_change (fun p => ?_) fun _ => restores_giveType ..
  show (p.addMethod owner (name, params.length) id).expansionDepth = p.expansionDepth
  unfold Program.addMethod
  dsimp only
  split <;> rfl

theorem restores_walkMacroDef (hw : ∀ id, Restores setting (walk id)) (id : ExprId)
    (receiver : Option ExprId) (name : String) (params : List String) :
    Restores setting (walkMacroDef walk id receiver name params) := by
  refine (restores_methodHolder hw receiver).bind fun owner => ?_
  exact restores_change (fun _ => rfl) fun _ => restores_giveType ..

theorem restores_declaredHere (name : String) : Restores setting (declaredHere name) :=
  restores_of_state_eq fun _ => rfl

theorem restores_declareHere (name : String) (kind : TypeKind) :
    Restores setting (declareHere name kind) :=
  restores_innermostType.bind fun _ => restores_updateTypes _

/-- The body of a declaration, and then its type. -/
theorem restores_bodyIn (hw : ∀ id, Restores setting (walk id)) (id : ExprId) (type : TypeId)
    (body : Option ExprId) : Restores setting (do walkBodyIn walk type body; giveType id .nil) :=
  Restores.bind (restores_inType type (restores_option body hw)) fun _ => restores_giveType ..

theorem restores_superclassExpr (hw : ∀ id, Restores setting (walk id))
    (superclass : Option ExprId) : Restores setting (superclassExpr walk superclass) := by
  unfold superclassExpr
  split
  · exact restores_pure _
  · refine (restores_denotedType hw _).bind fun parent => restores_read (fun _ => rfl) fun t => ?_
    split
    · exact restores_pure _
    · exact restores_pure _
    · exact restores_read (fun _ => rfl) fun _ => restores_problemAt ..

theorem restores_reopenClass (id : ExprId) (name : String)
    (parent : Option TypeId) (entry : Named) :
    Restores setting (reopenClass id name parent entry) := by
  unfold reopenClass
  split
  · exact restores_problemAt ..
  · refine restores_read (fun _ => rfl) fun t => ?_
    split
    · exact restores_check (restores_pure _)
    · exact restores_problemAt ..

theorem restores_walkClassDef (hw : ∀ id, Restores setting (walk id)) (id : ExprId) (name : String)
    (superclass : Option ExprId) (typeVars : Option (List String)) (isAbstract : Bool)
    (body : Option ExprId) :
    Restores setting (walkClassDef walk id name superclass typeVars isAbstract body) := by
  refine (restores_superclassExpr hw superclass).bind fun parent =>
    (restores_declaredHere name).bind fun entry => ?_
  dsimp only
  split
  · exact (restores_reopenClass ..).bind fun type => restores_bodyIn hw id type body
  · exact (restores_declareHere ..).bind fun type => restores_bodyIn hw id type body

theorem restores_walkModuleDef (hw : ∀ id, Restores setting (walk id)) (id : ExprId) (name : String)
    (typeVars : Option (List String)) (body : Option ExprId) :
    Restores setting (walkModuleDef walk id name typeVars body) := by
  refine (restores_declaredHere name).bind fun entry => ?_
  dsimp only
  split
  · refine restores_read (fun _ => rfl) fun t => ?_
    split
    · exact restores_bodyIn hw id _ body
    · exact (restores_problemAt ..).bind fun type => restores_bodyIn hw id type body
  · exact (restores_problemAt ..).bind fun type => restores_bodyIn hw id type body
  · exact (restores_declareHere ..).bind fun type => restores_bodyIn hw id type body

/-! ### Inclusion -/

theorem restores_moduleExpr (hw : ∀ id, Restores setting (walk id)) (id : ExprId) :
    Restores setting (moduleExpr walk id) := by
  refine (restores_denotedType hw id).bind fun module => restores_read (fun _ => rfl) fun t => ?_
  split
  · exact restores_pure _
  · exact restores_read (fun _ => rfl) fun _ => restores_problemAt ..

theorem restores_includeArgument (hw : ∀ id, Restores setting (walk id)) (own : List String)
    (arg : ExprId) : Restores setting (includeArgument walk own arg) := by
  have htype : Restores setting (do return .type (← denotedType walk arg) : Infer ParamValue) :=
    Restores.bind (restores_denotedType hw arg) fun _ => restores_pure _
  refine restores_read (fun _ => rfl) fun c => ?_
  split
  · split
    · exact restores_pure _
    · exact htype
  · exact htype

theorem restores_inclusionBindings (hw : ∀ id, Restores setting (walk id)) (own : List String)
    (bindings : OrderedMap String ParamValue) (pairs : List (String × ExprId)) :
    Restores setting (inclusionBindings walk own bindings pairs) := by
  induction pairs generalizing bindings with
  | nil => exact restores_pure _
  | cons pair rest ih => exact Restores.bind (restores_includeArgument hw own pair.2) fun _ => ih _

theorem restores_walkInclude (hw : ∀ id, Restores setting (walk id)) (id name : ExprId) :
    Restores setting (walkInclude walk id name) := by
  have hinclusion : Restores setting (inclusionOf walk name) := by
    refine restores_read (fun _ => rfl) fun c => ?_
    split
    · refine (restores_moduleExpr hw _).bind fun module => restores_read (fun _ => rfl) fun t => ?_
      dsimp only
      split
      · exact restores_problemAt ..
      · refine restores_check (restores_innermostType.bind fun _ => ?_)
        exact (restores_inclusionBindings hw ..).bind fun _ => restores_pure _
    · refine (restores_moduleExpr hw _).bind fun module => restores_read (fun _ => rfl) fun t => ?_
      dsimp only
      split
      · exact restores_read (fun _ => rfl) fun _ =>
          (restores_problemAt ..).bind fun _ => restores_pure _
      · exact restores_pure _
  refine hinclusion.bind fun inclusion => restores_innermostType.bind fun owner => ?_
  exact restores_change (fun _ => rfl) fun _ => restores_giveType ..

/-! ### Libs -/

theorem restores_walkLibDef (hw : ∀ id, Restores setting (walk id)) (id : ExprId) (name : String)
    (libname : Option String) (body : Option ExprId) :
    Restores setting (walkLibDef walk id name libname body) := by
  refine (restores_declaredHere name).bind fun entry => ?_
  dsimp only
  split
  · refine restores_read (fun _ => rfl) fun t => ?_
    split
    · exact restores_bodyIn hw id _ body
    · exact (restores_problemAt ..).bind fun type => restores_bodyIn hw id type body
  · exact (restores_problemAt ..).bind fun type => restores_bodyIn hw id type body
  · exact (restores_declareHere ..).bind fun type => restores_bodyIn hw id type body

theorem restores_externalType (hw : ∀ id, Restores setting (walk id))
    (id : ExprId) (pointers : Nat) : Restores setting (externalType walk id pointers) := by
  refine (restores_denotedType hw id).bind fun type => restores_read (fun _ => rfl) fun t => ?_
  exact restores_check (restores_updateTypes _)

theorem restores_externalFields (hw : ∀ id, Restores setting (walk id))
    (known : OrderedMap String TypeId) (fields : List (Field ExprId)) :
    Restores setting (externalFields walk known fields) := by
  induction fields generalizing known with
  | nil => exact restores_pure _
  | cons field rest ih => exact Restores.bind (restores_externalType hw ..) fun _ => ih _

theorem restores_requireUndeclared (id : ExprId) (name : String) :
    Restores setting (requireUndeclared id name) := by
  refine (restores_declaredHere name).bind fun entry => ?_
  split
  · exact restores_problemAt ..
  · exact restores_pure _

theorem restores_walkAliasDef (hw : ∀ id, Restores setting (walk id)) (id : ExprId) (name : String)
    (type : ExprId) (pointers : Nat) :
    Restores setting (walkAliasDef walk id name type pointers) := by
  refine (restores_requireUndeclared id name).bind fun _ =>
    (restores_externalType hw type pointers).bind fun _ => ?_
  exact (restores_declareHere ..).bind fun _ => restores_giveType ..

theorem restores_walkFieldsDef (hw : ∀ id, Restores setting (walk id)) (id : ExprId) (name : String)
    (fields : List (Field ExprId)) (kind : OrderedMap String TypeId → TypeKind) :
    Restores setting (walkFieldsDef walk id name fields kind) := by
  refine (restores_requireUndeclared id name).bind fun _ =>
    (restores_externalFields hw ∅ fields).bind fun _ => ?_
  exact (restores_declareHere ..).bind fun _ => restores_giveType ..

theorem restores_walkEnumDef (id : ExprId) (name : String) (constants : List EnumConstant) :
    Restores setting (walkEnumDef id name constants) := by
  refine (restores_requireUndeclared id name).bind fun _ => ?_
  exact (restores_declareHere ..).bind fun _ => restores_giveType ..

theorem restores_walkFunDef (hw : ∀ id, Restores setting (walk id)) (id : ExprId)
    (name realName : String) (args : List (Field ExprId)) (returnType : Option ExprId)
    (varargs : Bool) :
    Restores setting (walkFunDef walk id name realName args returnType varargs) := by
  refine restores_innermostType.bind fun owner => ?_
  refine (restores_mapM args fun arg => restores_externalType hw arg.type arg.pointers).bind
    fun argTypes => ?_
  extract_lets declareFun
  have hdeclare : ∀ result, Restores setting (declareFun result) := by
    intro result
    refine restores_read (fun _ => rfl) fun t => ?_
    extract_lets add
    have hadd : Restores setting (add ()) :=
      restores_change (fun _ => rfl) fun _ => restores_giveType ..
    split
    · exact restores_check hadd
    · exact hadd
  split
  · exact (restores_externalType hw ..).bind hdeclare
  · exact hdeclare .nil

/-! ### Expressions of types -/

theorem restores_walkEither (hw : ∀ id, Restores setting (walk id)) (id left right : ExprId) :
    Restores setting (walkEither walk id left right) := by
  refine (hw left).bind fun _ => (hw right).bind fun _ => ?_
  exact restores_read (fun _ => rfl) fun _ => restores_read (fun _ => rfl) fun _ =>
    restores_deriveFrom ..

theorem restores_walkTypeUnion (hw : ∀ id, Restores setting (walk id)) (id : ExprId)
    (members : List ExprId) : Restores setting (walkTypeUnion walk id members) := by
  refine (restores_mapM members (restores_denotedType hw)).bind fun ids =>
    (restores_updateTypes _).bind fun union => ?_
  split
  · exact (restores_metaclassOf _).bind fun _ => restores_giveType ..
  · exact restores_defectAt ..

theorem restores_walkGenericInstance (hw : ∀ id, Restores setting (walk id)) (id name : ExprId)
    (args : List ExprId) : Restores setting (walkGenericInstance walk id name args) := by
  refine (restores_denotedType hw name).bind fun generic => ?_
  refine (restores_mapM args (restores_denotedType hw)).bind fun types =>
    restores_read (fun _ => rfl) fun t => ?_
  split
  · refine restores_change (fun _ => rfl) fun _ => ?_
    exact (restores_metaclassOf _).bind fun _ => restores_giveType ..
  · exact restores_problemAt ..

theorem restores_walkIsA (hw : ∀ id, Restores setting (walk id)) (id object type : ExprId) :
    Restores setting (walkIsA walk id object type) := by
  refine (hw object).bind fun _ => (restores_denotedType hw type).bind fun target => ?_
  refine (restores_giveType ..).bind fun _ => restores_read (fun _ => rfl) fun c => ?_
  split
  · exact restores_setExprGuard ..
  · exact restores_pure _

theorem restores_walkTypeOf (hw : ∀ id, Restores setting (walk id)) (id : ExprId)
    (values : List ExprId) : Restores setting (walkTypeOf walk id values) := by
  refine (restores_forM values fun value _ => hw value).bind fun _ => ?_
  exact restores_read (fun _ => rfl) fun _ => restores_deriveFrom ..

theorem restores_walkPointerOf (hw : ∀ id, Restores setting (walk id)) (id target : ExprId) :
    Restores setting (walkPointerOf walk id target) := by
  have hderive :
      ∀ slot, Restores setting (do deriveFrom target [slot]; deriveFrom id [slot]) := fun slot =>
    Restores.bind (restores_deriveFrom ..) fun _ => restores_deriveFrom ..
  refine restores_read (fun _ => rfl) fun c => ?_
  dsimp only
  split
  · exact (restores_localVar _).bind hderive
  · exact (restores_instanceVar ..).bind hderive
  · exact (hw target).bind fun _ => restores_read (fun _ => rfl) hderive

/-! ### Bodies of built-in methods -/

theorem restores_selfField (id : ExprId) (name : String) :
    Restores setting (selfField id name) := by
  refine restores_typeOfSelf.bind fun scope => restores_read (fun _ => rfl) fun t => ?_
  dsimp only
  split
  · exact restores_pure _
  · exact restores_problemAt ..

theorem restores_operand (id : ExprId) (name : String) : Restores setting (operand id name) := by
  refine restores_read (fun _ => rfl) fun f => ?_
  split
  · exact restores_pure _
  · exact restores_defectAt ..

theorem restores_walkFieldGet (id : ExprId) (name : String) :
    Restores setting (walkFieldGet id name) :=
  (restores_selfField id name).bind fun _ => restores_giveType ..

theorem restores_walkFieldSet (id : ExprId) (name : String) :
    Restores setting (walkFieldSet id name) := by
  refine (restores_selfField id name).bind fun field => (restores_operand id _).bind fun value => ?_
  refine restores_read (fun _ => rfl) fun p => ?_
  dsimp only
  split
  · exact restores_check (restores_giveType ..)
  · exact restores_giveType ..

theorem restores_requireAllocatable (id : ExprId) (type : TypeId) :
    Restores setting (requireAllocatable id type) := by
  refine restores_read (fun _ => rfl) fun t => ?_
  dsimp only
  split
  · refine restores_check ?_
    split
    · exact restores_problemAt ..
    · exact restores_pure _
  · exact restores_pure _

theorem restores_walkClassOfSelf (id : ExprId) : Restores setting (walkClassOfSelf id) :=
  restores_typeOfSelf.bind fun _ => (restores_metaclassOf _).bind fun _ => restores_giveType ..

theorem restores_walkAllocate (id : ExprId) : Restores setting (walkAllocate id) := by
  refine restores_typeOfSelf.bind fun scope => restores_read (fun _ => rfl) fun t => ?_
  exact (restores_requireAllocatable ..).bind fun _ => restores_giveType ..

theorem restores_selfPointer (id : ExprId) : Restores setting (selfPointer id) := by
  refine restores_typeOfSelf.bind fun scope => restores_read (fun _ => rfl) fun p => ?_
  dsimp only
  split
  · split
    · split
      · exact restores_pure _
      · exact restores_defectAt ..
    · exact restores_problemAt ..
  · exact restores_problemAt ..

theorem restores_walkSamePointer (id : ExprId) : Restores setting (walkSamePointer id) :=
  (restores_selfPointer id).bind fun _ => restores_giveType ..

theorem restores_walkPointerGet (id : ExprId) : Restores setting (walkPointerGet id) :=
  (restores_selfPointer id).bind fun _ => restores_giveType ..

theorem restores_walkPointerSet (id : ExprId) : Restores setting (walkPointerSet id) :=
  (restores_selfPointer id).bind fun _ => (restores_operand id _).bind fun _ =>
    restores_deriveFrom ..

theorem restores_walkPointerCast (id : ExprId) : Restores setting (walkPointerCast id) := by
  refine (restores_operand id _).bind fun target => restores_read (fun _ => rfl) fun p => ?_
  split
  · exact restores_pure _
  · exact (restores_updateTypes _).bind fun _ => restores_giveType ..

end TypeFlow.Infer
