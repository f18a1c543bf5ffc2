import TypeFlow.Proofs.Inference.Known.Constructs

/-!
# Declarations and primitives uphold what is proper

Declarations change the table of types, where they add no instance variables, and give their own
expressions types. The bodies of built-in methods do no more than that.
-/

namespace TypeFlow.Infer
variable {α : Type} {setting : Setting} {s : WalkState} {walk : Step}

/-! ### Methods and types -/

theorem proceeds_declareHere (name : String) (kind : TypeKind) :
    Proceeds setting s (declareHere name kind) :=
  upholds_read reads_innermostType (proceeds_updateTypes (.single (.declare ..)))

theorem proceeds_reopenClass (id : ExprId) (name : String)
    (parent : Option TypeId) (entry : Named) :
    Proceeds setting s (reopenClass id name parent entry) := by
  unfold reopenClass
  split
  · exact upholds_problemAt ..
  · refine upholds_read reads_types ?_
    dsimp only
    split
    · exact upholds_check (proceeds_pure _)
    · exact upholds_problemAt ..

section
variable (hw : ∀ id s, Proceeds setting s (walk id))
include hw

theorem proceeds_methodHolder (receiver : Option ExprId) :
    Proceeds setting s (methodHolder walk receiver) := by
  unfold methodHolder
  split
  · exact proceeds_of_reads reads_innermostType
  · refine upholds_read (reads_construct _) ?_
    split
    · exact upholds_read reads_innermostType (proceeds_metaclassOf _)
    · exact (proceeds_denotedType hw _).bind fun _ _ _ _ _ => proceeds_metaclassOf _

theorem proceeds_walkMethodDef (id : ExprId) (receiver : Option ExprId) (name : String)
    (params : List String) : Proceeds setting s (walkMethodDef walk id receiver name params) := by
  refine (proceeds_methodHolder hw receiver).bind fun owner s _ _ _ =>
    Upholds.bind (Q := fun _ _ => True) ?_
    fun _ _ _ _ _ => proceeds_giveType ..
  refine upholds_updateProgram (fun hp => ?_) fun _ => trivial
  dsimp only
  rw [Program.addMethod_eq]
  exact hp.types (s.program.keepsVars_addMethod owner (name, params.length) id)

theorem proceeds_walkMacroDef (id : ExprId) (receiver : Option ExprId) (name : String)
    (params : List String) : Proceeds setting s (walkMacroDef walk id receiver name params) :=
  (proceeds_methodHolder hw receiver).bind fun _ _ _ _ _ =>
    (proceeds_modifyTypes (Types.Act.addMacroDef ..).keepsVars).bind fun _ _ _ _ _ =>
      proceeds_giveType ..

/-- The body of a declaration, and then its type. -/
theorem proceeds_bodyIn (id : ExprId) (type : TypeId) (body : Option ExprId) :
    Proceeds setting s (do walkBodyIn walk type body; giveType id .nil) :=
  (proceeds_inType type fun _ => proceeds_option body hw).bind fun _ _ _ _ _ => proceeds_giveType ..

theorem proceeds_superclassExpr (superclass : Option ExprId) :
    Proceeds setting s (superclassExpr walk superclass) := by
  unfold superclassExpr
  split
  · exact proceeds_pure _
  · refine (proceeds_denotedType hw _).bind fun parent _ _ _ _ => upholds_read reads_types ?_
    split
    · exact proceeds_pure _
    · exact proceeds_pure _
    · exact upholds_read (reads_nameOf _) (upholds_problemAt ..)

theorem proceeds_walkClassDef (id : ExprId) (name : String) (superclass : Option ExprId)
    (typeVars : Option (List String)) (isAbstract : Bool) (body : Option ExprId) :
    Proceeds setting s (walkClassDef walk id name superclass typeVars isAbstract body) := by
  refine (proceeds_superclassExpr hw superclass).bind fun parent _ _ _ _ =>
    upholds_read (reads_declaredHere name) ?_
  dsimp only
  split
  · exact (proceeds_reopenClass ..).bind fun type _ _ _ _ => proceeds_bodyIn hw id type body
  · exact (proceeds_declareHere ..).bind fun type _ _ _ _ => proceeds_bodyIn hw id type body

/-- A type that is declared already, or else a new one, has a body. -/
theorem proceeds_walkModuleDef (id : ExprId) (name : String) (typeVars : Option (List String))
    (body : Option ExprId) : Proceeds setting s (walkModuleDef walk id name typeVars body) := by
  refine upholds_read (reads_declaredHere name) ?_
  dsimp only
  split
  · refine upholds_read reads_types ?_
    split
    · exact proceeds_bodyIn hw id _ body
    · exact upholds_problemAt_bind ..
  · exact upholds_problemAt_bind ..
  · exact (proceeds_declareHere ..).bind fun type _ _ _ _ => proceeds_bodyIn hw id type body

theorem proceeds_walkLibDef (id : ExprId) (name : String) (libname : Option String)
    (body : Option ExprId) : Proceeds setting s (walkLibDef walk id name libname body) := by
  refine upholds_read (reads_declaredHere name) ?_
  dsimp only
  split
  · refine upholds_read reads_types ?_
    split
    · exact proceeds_bodyIn hw id _ body
    · exact upholds_problemAt_bind ..
  · exact upholds_problemAt_bind ..
  · exact (proceeds_declareHere ..).bind fun type _ _ _ _ => proceeds_bodyIn hw id type body

/-! ### Inclusion -/

theorem proceeds_moduleExpr (id : ExprId) : Proceeds setting s (moduleExpr walk id) := by
  refine (proceeds_denotedType hw id).bind fun module _ _ _ _ => upholds_read reads_types ?_
  split
  · exact proceeds_pure _
  · exact upholds_read (reads_nameOf _) (upholds_problemAt ..)

theorem proceeds_includeArgument (own : List String) (arg : ExprId) :
    Proceeds setting s (includeArgument walk own arg) := by
  have htype : Proceeds setting s (do return .type (← denotedType walk arg) : Infer ParamValue) :=
    (proceeds_denotedType hw arg).bind fun _ _ _ _ _ => proceeds_pure _
  refine upholds_read (reads_construct _) ?_
  split
  · split
    · exact proceeds_pure _
    · exact htype
  · exact htype

theorem proceeds_inclusionBindings (own : List String) (bindings : OrderedMap String ParamValue)
    (pairs : List (String × ExprId)) :
    Proceeds setting s (inclusionBindings walk own bindings pairs) := by
  induction pairs generalizing s bindings with
  | nil => exact proceeds_pure _
  | cons pair rest ih => exact (proceeds_includeArgument hw own pair.2).bind fun _ _ _ _ _ => ih _

theorem proceeds_walkInclude (id name : ExprId) :
    Proceeds setting s (walkInclude walk id name) := by
  have hinclusion : Proceeds setting s (inclusionOf walk name) := by
    refine upholds_read (reads_construct _) ?_
    split
    · refine (proceeds_moduleExpr hw _).bind fun module _ _ _ _ => upholds_read reads_types ?_
      dsimp only
      split
      · exact upholds_problemAt ..
      · refine upholds_check (upholds_read reads_innermostType ?_)
        exact (proceeds_inclusionBindings hw ..).bind fun _ _ _ _ _ => proceeds_pure _
    · refine (proceeds_moduleExpr hw _).bind fun module _ _ _ _ => upholds_read reads_types ?_
      dsimp only
      split
      · exact upholds_read (reads_nameOf _) (upholds_problemAt_bind ..)
      · exact proceeds_pure _
  refine hinclusion.bind fun inclusion _ _ _ _ => upholds_read reads_innermostType ?_
  exact (proceeds_modifyTypes (Types.Act.includeModule ..).keepsVars).bind fun _ _ _ _ _ =>
    proceeds_giveType ..

/-! ### Libs -/

theorem proceeds_externalType (id : ExprId) (pointers : Nat) :
    Proceeds setting s (externalType walk id pointers) := by
  refine (proceeds_denotedType hw id).bind fun type _ _ _ _ => upholds_read reads_types ?_
  exact upholds_check (proceeds_updateTypes (Types.acts_pointersTo ..))

theorem proceeds_externalFields (known : OrderedMap String TypeId) (fields : List (Field ExprId)) :
    Proceeds setting s (externalFields walk known fields) := by
  induction fields generalizing s known with
  | nil => exact proceeds_pure _
  | cons field rest ih => exact (proceeds_externalType hw ..).bind fun _ _ _ _ _ => ih _

omit hw in
theorem proceeds_requireUndeclared (id : ExprId) (name : String) :
    Proceeds setting s (requireUndeclared id name) := by
  refine upholds_read (reads_declaredHere name) ?_
  split
  · exact upholds_problemAt ..
  · exact proceeds_pure _

theorem proceeds_walkAliasDef (id : ExprId) (name : String) (type : ExprId) (pointers : Nat) :
    Proceeds setting s (walkAliasDef walk id name type pointers) :=
  (proceeds_requireUndeclared id name).bind fun _ _ _ _ _ =>
    (proceeds_externalType hw type pointers).bind
    fun _ _ _ _ _ => (proceeds_declareHere ..).bind fun _ _ _ _ _ => proceeds_giveType ..

theorem proceeds_walkFieldsDef (id : ExprId) (name : String) (fields : List (Field ExprId))
    (kind : OrderedMap String TypeId → TypeKind) :
    Proceeds setting s (walkFieldsDef walk id name fields kind) :=
  (proceeds_requireUndeclared id name).bind fun _ _ _ _ _ =>
    (proceeds_externalFields hw ∅ fields).bind
    fun _ _ _ _ _ => (proceeds_declareHere ..).bind fun _ _ _ _ _ => proceeds_giveType ..

omit hw in
theorem proceeds_walkEnumDef (id : ExprId) (name : String) (constants : List EnumConstant) :
    Proceeds setting s (walkEnumDef id name constants) :=
  (proceeds_requireUndeclared id name).bind fun _ _ _ _ _ =>
    (proceeds_declareHere ..).bind fun _ _ _ _ _ => proceeds_giveType ..

theorem proceeds_walkFunDef (id : ExprId) (name realName : String) (args : List (Field ExprId))
    (returnType : Option ExprId) (varargs : Bool) :
    Proceeds setting s (walkFunDef walk id name realName args returnType varargs) := by
  refine upholds_read reads_innermostType ?_
  refine (proceeds_mapM args fun arg _ => proceeds_externalType hw arg.type arg.pointers).bind
    fun argTypes _ _ _ _ => ?_
  extract_lets declareFun
  have hdeclare : ∀ result s, Proceeds setting s (declareFun result) := by
    intro result s
    refine upholds_read reads_types ?_
    extract_lets add
    have hadd : ∀ s, Proceeds setting s (add ()) := fun _ =>
      (proceeds_modifyTypes (Types.Act.addFun ..).keepsVars).bind fun _ _ _ _ _ =>
        proceeds_giveType ..
    split
    · exact upholds_check (hadd _)
    · exact hadd _
  split
  · exact (proceeds_externalType hw ..).bind fun result _ _ _ _ => hdeclare result _
  · exact hdeclare .nil _

/-! ### Expressions of types -/

theorem proceeds_walkEither (id left right : ExprId) :
    Proceeds setting s (walkEither walk id left right) := by
  refine (hw left s).bind fun _ s _ _ _ => (hw right s).bind fun _ _ _ _ _ => ?_
  exact upholds_read (reads_nodeOf _) (upholds_read (reads_nodeOf _) (proceeds_deriveFrom ..))

theorem proceeds_walkTypeUnion (id : ExprId) (members : List ExprId) :
    Proceeds setting s (walkTypeUnion walk id members) := by
  refine (proceeds_mapM members fun id _ => proceeds_denotedType hw id).bind fun ids _ _ _ _ => ?_
  refine (proceeds_updateTypes (Types.acts_join _)).bind fun union _ _ _ _ => ?_
  split
  · exact (proceeds_metaclassOf _).bind fun _ _ _ _ _ => proceeds_giveType ..
  · exact upholds_defectAt ..

theorem proceeds_walkGenericInstance (id name : ExprId) (args : List ExprId) :
    Proceeds setting s (walkGenericInstance walk id name args) := by
  refine (proceeds_denotedType hw name).bind fun generic _ _ _ _ => ?_
  refine (proceeds_mapM args fun id _ => proceeds_denotedType hw id).bind fun types s _ _ _ =>
    upholds_read reads_types ?_
  split
  · rename_i happly
    refine (proceeds_modifyTypes (f := fun _ => _)
      (Types.keepsVars_of_acts (acts_applyGeneric happly))).bind fun _ _ _ _ _ => ?_
    exact (proceeds_metaclassOf _).bind fun _ _ _ _ _ => proceeds_giveType ..
  · exact upholds_problemAt ..

theorem proceeds_walkIsA (id object type : ExprId) :
    Proceeds setting s (walkIsA walk id object type) := by
  refine (hw object s).bind fun _ _ _ _ _ =>
    (proceeds_denotedType hw type).bind fun target _ _ _ _ => ?_
  refine (proceeds_giveType ..).bind fun _ _ _ _ _ => upholds_read (reads_construct _) ?_
  split
  · exact proceeds_setExprGuard ..
  · exact proceeds_pure _

theorem proceeds_walkTypeOf (id : ExprId) (values : List ExprId) :
    Proceeds setting s (walkTypeOf walk id values) :=
  (proceeds_forM values hw).bind fun _ _ _ _ _ =>
    upholds_read reads_program (proceeds_deriveFrom ..)

theorem proceeds_walkPointerOf (id target : ExprId) :
    Proceeds setting s (walkPointerOf walk id target) := by
  have hderive : ∀ slot s, Proceeds setting s
      (do deriveFrom target [slot]; deriveFrom id [slot]) := fun slot s =>
    (proceeds_deriveFrom ..).bind fun _ _ _ _ _ => proceeds_deriveFrom ..
  refine upholds_read (reads_construct _) ?_
  dsimp only
  split
  · exact (upholds_localVar _).bind fun slot _ _ _ _ => hderive slot _
  · exact (upholds_instanceVar ..).bind fun slot _ _ _ _ => hderive slot _
  · exact (hw target _).bind fun _ _ _ _ _ => upholds_read (reads_nodeOf _) (hderive _ _)

end

/-! ### Bodies of built-in methods -/

theorem proceeds_selfField (id : ExprId) (name : String) :
    Proceeds setting s (selfField id name) := by
  refine proceeds_typeOfSelf.bind fun scope _ _ _ _ => upholds_read reads_types ?_
  dsimp only
  split
  · exact proceeds_pure _
  · exact upholds_problemAt ..

theorem proceeds_operand (id : ExprId) (name : String) : Proceeds setting s (operand id name) := by
  refine upholds_read reads_frame ?_
  split
  · exact proceeds_pure _
  · exact upholds_defectAt ..

theorem proceeds_walkFieldGet (id : ExprId) (name : String) :
    Proceeds setting s (walkFieldGet id name) :=
  (proceeds_selfField id name).bind fun _ _ _ _ _ => proceeds_giveType ..

theorem proceeds_walkFieldSet (id : ExprId) (name : String) :
    Proceeds setting s (walkFieldSet id name) := by
  refine (proceeds_selfField id name).bind fun field _ _ _ _ =>
    (proceeds_operand id _).bind fun value _ _ _ _ => ?_
  refine upholds_read reads_program ?_
  dsimp only
  split
  · exact upholds_check (proceeds_giveType ..)
  · exact proceeds_giveType ..

theorem proceeds_requireAllocatable (id : ExprId) (type : TypeId) :
    Proceeds setting s (requireAllocatable id type) := by
  refine upholds_read reads_types ?_
  dsimp only
  split
  · refine upholds_check ?_
    split
    · exact upholds_problemAt ..
    · exact proceeds_pure _
  · exact proceeds_pure _

theorem proceeds_walkClassOfSelf (id : ExprId) : Proceeds setting s (walkClassOfSelf id) :=
  proceeds_typeOfSelf.bind fun _ _ _ _ _ => (proceeds_metaclassOf _).bind fun _ _ _ _ _ =>
    proceeds_giveType ..

theorem proceeds_walkAllocate (id : ExprId) : Proceeds setting s (walkAllocate id) := by
  refine proceeds_typeOfSelf.bind fun scope _ _ _ _ => upholds_read reads_types ?_
  exact (proceeds_requireAllocatable ..).bind fun _ _ _ _ _ => proceeds_giveType ..

theorem proceeds_selfPointer (id : ExprId) : Proceeds setting s (selfPointer id) := by
  refine proceeds_typeOfSelf.bind fun scope _ _ _ _ => upholds_read reads_program ?_
  dsimp only
  split
  · split
    · split
      · exact proceeds_pure _
      · exact upholds_defectAt ..
    · exact upholds_problemAt ..
  · exact upholds_problemAt ..

theorem proceeds_walkSamePointer (id : ExprId) : Proceeds setting s (walkSamePointer id) :=
  (proceeds_selfPointer id).bind fun _ _ _ _ _ => proceeds_giveType ..

theorem proceeds_walkPointerGet (id : ExprId) : Proceeds setting s (walkPointerGet id) :=
  (proceeds_selfPointer id).bind fun _ _ _ _ _ => proceeds_giveType ..

theorem proceeds_walkPointerSet (id : ExprId) : Proceeds setting s (walkPointerSet id) :=
  (proceeds_selfPointer id).bind fun _ _ _ _ _ => (proceeds_operand id _).bind fun _ _ _ _ _ =>
    proceeds_deriveFrom ..

theorem proceeds_walkPointerCast (id : ExprId) : Proceeds setting s (walkPointerCast id) := by
  refine (proceeds_operand id _).bind fun target _ _ _ _ => upholds_read reads_program ?_
  split
  · exact proceeds_pure _
  · exact (proceeds_updateTypes (Types.acts_apply ..)).bind fun _ _ _ _ _ => proceeds_giveType ..

end TypeFlow.Infer
