import TypeFlow.Proofs.Inference.Composed.Constructs
import TypeFlow.Proofs.Inference.Primitives
import TypeFlow.Proofs.Inference.Restored.Walk

/-!
# Declarations and primitives are composed of steps

Declarations change the table of types, and what they walk are expressions of types and the bodies
of classes, modules and libs. The bodies of built-in methods do little more than to give a type.
-/

namespace TypeFlow.Infer
variable {setting : Setting} {fuel : Nat} {s : WalkState}

/-! ### Methods and types -/

theorem composed_declareHere {name : String}
    (hfree : s.program.types.IsFree s.frame.innermostType name) (kind : TypeKind) :
    Composed setting s (declareHere name kind) :=
  .read reads_innermostType
    (composed_types (.single (.declare ..)) ((Types.KeepsNames.refl _).declare hfree kind))

/-- A type is declared under a name that was free before its parts were walked. -/
theorem composed_declaration {α β : Type} {x : Infer α} {name : String} {kind : α → TypeKind}
    {f : TypeId → Infer β} (hfree : s.program.types.IsFree s.frame.innermostType name)
    (hx : Composed setting s x) (hrestores : setting.tools.Tidy → Restores setting x)
    (hf : ∀ type s, Composed setting s (f type)) :
    Composed setting s (x >>= fun a => declareHere name (kind a) >>= f) := by
  have hsame : setting.tools.Tidy → ∀ a s', x.Does setting s a s' →
      s'.frame.innermostType = s.frame.innermostType := by
    intro htidy a s' hd
    have hrestored := (hrestores htidy).restored s
    rw [show x.outcome setting s = _ from hd] at hrestored
    rw [Frame.innermostType, hrestored.frame.enclosing, Frame.innermostType]
  rw [← bind_assoc]
  exact (Composes.declaration hfree hx hsame).bind fun type s _ => hf type s

theorem composed_reopenClass (id : ExprId) (name : String)
    (parent : Option TypeId) (entry : Named) :
    Composed setting s (reopenClass id name parent entry) := by
  unfold reopenClass
  split
  · exact composed_problemAt ..
  · refine .read reads_types ?_
    dsimp only
    split
    · exact composed_check (.pure _ _)
    · exact composed_problemAt ..

section
variable (hw : ∀ id s, Composed setting s (walk fuel id))
include hw

theorem composed_methodHolder (receiver : Option ExprId) :
    Composed setting s (methodHolder (walk fuel) receiver) := by
  unfold methodHolder
  split
  · exact composed_of_reads reads_innermostType
  · refine .read (reads_construct _) ?_
    split
    · exact .read reads_innermostType (composed_metaclassOf _)
    · exact (composed_denotedType hw _).bind fun _ _ _ => composed_metaclassOf _

omit hw in
/-- Methods have names of their own. -/
theorem keepsNames_addMethod (p : Program) (owner : TypeId) (key : MethodKey)
    (definition : ExprId) : p.types.KeepsNames (p.addMethod owner key definition).types := by
  have hdefs : p.types.KeepsNames (p.types.addMethod owner key definition) := by
    refine Types.keepsNames_modify _ ?_ ?_ _ owner <;> exact fun _ => rfl
  unfold Program.addMethod
  dsimp only
  split
  · refine hdefs.trans (Types.keepsNames_modify ?_ ?_ ?_ _ owner)
    · exact ⟨fun _ => rfl, fun _ => rfl⟩
    all_goals exact fun _ => rfl
  · exact hdefs

theorem composed_walkMethodDef {id : ExprId} (hc : (s.program.construct id).isMethodDef = true)
    (receiver : Option ExprId) (name : String) (params : List String) :
    Composed setting s (walkMethodDef (walk fuel) id receiver name params) := by
  have hholder : ∀ s, Composed setting s (methodHolder (walk fuel) receiver) :=
    fun _ => composed_methodHolder hw receiver
  refine (hholder s).bind fun owner s₁ hd => Composes.bind ?_ fun _ _ _ => composed_giveType ..
  refine .update ?_ ?_
  rotate_left
  · show (s₁.program.addMethod owner (name, params.length) id).brokenLoops = s₁.program.brokenLoops
    rw [Program.addMethod_eq]
  show Quiet setting s₁ (s₁.program.addMethod owner (name, params.length) id)
  refine ⟨fun _ => ?_, ?_, ?_, ?_, fun htidy => Program.registers_addMethod _ _ _ ?_, ?_, ?_⟩
  · rw [Program.addMethod_eq]
    exact ⟨_, .single (.method s₁ owner _ id)⟩
  · rw [Program.addMethod_eq]
  · rw [Program.addMethod_eq]
  · rw [Program.addMethod_eq]
    exact Program.declares_of_eq rfl
  rotate_left
  · exact keepsNames_addMethod ..
  · rw [Program.addMethod_eq]
    exact fun h => h.of_exprs_eq rfl
  · obtain ⟨deeds, hcourse⟩ := ((hholder s).takes htidy).course
    rw [show (methodHolder (walk fuel) receiver).outcome setting s = _ from hd] at hcourse
    exact hcourse.later.isMethodDef hc

theorem composed_walkMacroDef (id : ExprId) (receiver : Option ExprId) (name : String)
    (params : List String) :
    Composed setting s (walkMacroDef (walk fuel) id receiver name params) := by
  refine (composed_methodHolder hw receiver).bind fun owner s _ => ?_
  exact (composed_modifyTypes (.addMacroDef ..) (Types.respects_addMacroDef ..).names).bind
    fun _ _ _ => composed_giveType ..

/-- The body of a declaration, and then its type. -/
theorem composed_bodyIn (id : ExprId) (type : TypeId) (body : Option ExprId) :
    Composed setting s (do walkBodyIn (walk fuel) type body; giveType id .nil) :=
  (composed_inType type fun _ => composed_option body hw).bind fun _ _ _ => composed_giveType ..

theorem composed_superclassExpr (superclass : Option ExprId) :
    Composed setting s (superclassExpr (walk fuel) superclass) := by
  unfold superclassExpr
  split
  · exact .pure _ _
  · refine (composed_denotedType hw _).bind fun parent _ _ => .read reads_types ?_
    split
    · exact .pure _ _
    · exact .pure _ _
    · exact .read (reads_nameOf _) (composed_problemAt ..)

theorem composed_walkClassDef (id : ExprId) (name : String) (superclass : Option ExprId)
    (typeVars : Option (List String)) (isAbstract : Bool) (body : Option ExprId) :
    Composed setting s (walkClassDef (walk fuel) id name superclass typeVars isAbstract body) := by
  refine (composed_superclassExpr hw superclass).bind fun parent _ _ =>
    .read (reads_declaredHere name) ?_
  dsimp only
  split
  · exact (composed_reopenClass ..).bind fun type _ _ => composed_bodyIn hw id type body
  · exact (composed_declareHere ‹_› _).bind fun type _ _ => composed_bodyIn hw id type body

theorem composed_walkModuleDef (id : ExprId) (name : String) (typeVars : Option (List String))
    (body : Option ExprId) :
    Composed setting s (walkModuleDef (walk fuel) id name typeVars body) := by
  refine .read (reads_declaredHere name) ?_
  dsimp only
  split
  · refine .read reads_types ?_
    split
    · exact composed_bodyIn hw id _ body
    · exact (composed_problemAt ..).bind fun type _ _ => composed_bodyIn hw id type body
  · exact (composed_problemAt ..).bind fun type _ _ => composed_bodyIn hw id type body
  · exact (composed_declareHere ‹_› _).bind fun type _ _ => composed_bodyIn hw id type body

end

/-! ### Inclusion -/

section
variable (hw : ∀ id s, Composed setting s (walk fuel id))
include hw

theorem composed_moduleExpr (id : ExprId) : Composed setting s (moduleExpr (walk fuel) id) := by
  refine (composed_denotedType hw id).bind fun module _ _ => .read reads_types ?_
  split
  · exact .pure _ _
  · exact .read (reads_nameOf _) (composed_problemAt ..)

theorem composed_includeArgument (own : List String) (arg : ExprId) :
    Composed setting s (includeArgument (walk fuel) own arg) := by
  have htype :
      Composed setting s (do return .type (← denotedType (walk fuel) arg) : Infer ParamValue) :=
    (composed_denotedType hw arg).bind fun _ _ _ => .pure _ _
  refine .read (reads_construct _) ?_
  split
  · split
    · exact .pure _ _
    · exact htype
  · exact htype

theorem composed_inclusionBindings (own : List String) (bindings : OrderedMap String ParamValue)
    (pairs : List (String × ExprId)) :
    Composed setting s (inclusionBindings (walk fuel) own bindings pairs) := by
  induction pairs generalizing s bindings with
  | nil => exact .pure _ _
  | cons pair rest ih => exact (composed_includeArgument hw own pair.2).bind fun _ _ _ => ih _

theorem composed_walkInclude (id name : ExprId) :
    Composed setting s (walkInclude (walk fuel) id name) := by
  have hinclusion : Composed setting s (inclusionOf (walk fuel) name) := by
    refine .read (reads_construct _) ?_
    split
    · refine (composed_moduleExpr hw _).bind fun module _ _ => .read reads_types ?_
      dsimp only
      split
      · exact composed_problemAt ..
      · refine composed_check (.read reads_innermostType ?_)
        exact (composed_inclusionBindings hw ..).bind fun _ _ _ => .pure _ _
    · refine (composed_moduleExpr hw _).bind fun module _ _ => .read reads_types ?_
      dsimp only
      split
      · exact .read (reads_nameOf _) (composed_problemAt_bind ..)
      · exact .pure _ _
  refine hinclusion.bind fun inclusion _ _ => .read reads_innermostType ?_
  exact (composed_modifyTypes (.includeModule ..) (Types.respects_includeModule ..).names).bind
    fun _ _ _ => composed_giveType ..

end

/-! ### Libs -/

theorem composed_requireUndeclared (id : ExprId) (name : String) :
    Composed setting s (requireUndeclared id name) := by
  refine .read (reads_declaredHere name) ?_
  split
  · exact composed_problemAt ..
  · exact .pure _ _

theorem does_requireUndeclared {id : ExprId} {name : String} {s' : WalkState}
    (hd : (requireUndeclared id name).Does setting s () s') :
    s' = s ∧ s.program.types.IsFree s.frame.innermostType name := by
  rw [requireUndeclared, does_bind_of_ok (outcome_declaredHere name)] at hd
  split at hd
  · rw [Does, outcome_problemAt] at hd
    cases hd
  · rename_i hfree
    exact ⟨(does_pure.mp hd).2.symm, Option.not_isSome_iff_eq_none.mp hfree⟩

theorem composed_walkEnumDef (id : ExprId) (name : String) (constants : List EnumConstant) :
    Composed setting s (walkEnumDef id name constants) := by
  refine (composed_requireUndeclared id name).bind fun _ _ hd => ?_
  obtain ⟨rfl, hfree⟩ := does_requireUndeclared hd
  exact (composed_declareHere hfree _).bind fun _ _ _ => composed_giveType ..

section
variable (hw : ∀ id s, Composed setting s (walk fuel id))
include hw

theorem composed_walkLibDef (id : ExprId) (name : String) (libname : Option String)
    (body : Option ExprId) : Composed setting s (walkLibDef (walk fuel) id name libname body) := by
  refine .read (reads_declaredHere name) ?_
  dsimp only
  split
  · refine .read reads_types ?_
    split
    · exact composed_bodyIn hw id _ body
    · exact (composed_problemAt ..).bind fun type _ _ => composed_bodyIn hw id type body
  · exact (composed_problemAt ..).bind fun type _ _ => composed_bodyIn hw id type body
  · exact (composed_declareHere ‹_› _).bind fun type _ _ => composed_bodyIn hw id type body

theorem composed_externalType (id : ExprId) (pointers : Nat) :
    Composed setting s (externalType (walk fuel) id pointers) := by
  refine (composed_denotedType hw id).bind fun type _ _ => .read reads_types ?_
  exact composed_check
    (composed_types (Types.acts_pointersTo ..) (Types.growsTo_pointersTo ..).keepsNames)

theorem composed_externalFields (known : OrderedMap String TypeId) (fields : List (Field ExprId)) :
    Composed setting s (externalFields (walk fuel) known fields) := by
  induction fields generalizing s known with
  | nil => exact .pure _ _
  | cons field rest ih => exact (composed_externalType hw ..).bind fun _ _ _ => ih _

theorem composed_walkAliasDef (id : ExprId) (name : String) (type : ExprId) (pointers : Nat) :
    Composed setting s (walkAliasDef (walk fuel) id name type pointers) := by
  refine (composed_requireUndeclared id name).bind fun _ _ hd => ?_
  obtain ⟨rfl, hfree⟩ := does_requireUndeclared hd
  refine composed_declaration hfree (composed_externalType hw type pointers)
    (fun htidy => ?_) fun _ _ => composed_giveType ..
  exact restores_externalType (restores_walk htidy.keepsDepth fuel) type pointers

theorem composed_walkFieldsDef (id : ExprId) (name : String) (fields : List (Field ExprId))
    (kind : OrderedMap String TypeId → TypeKind) :
    Composed setting s (walkFieldsDef (walk fuel) id name fields kind) := by
  refine (composed_requireUndeclared id name).bind fun _ _ hd => ?_
  obtain ⟨rfl, hfree⟩ := does_requireUndeclared hd
  refine composed_declaration hfree (composed_externalFields hw ∅ fields)
    (fun htidy => ?_) fun _ _ => composed_giveType ..
  exact restores_externalFields (restores_walk htidy.keepsDepth fuel) ∅ fields

theorem composed_walkFunDef (id : ExprId) (name realName : String) (args : List (Field ExprId))
    (returnType : Option ExprId) (varargs : Bool) :
    Composed setting s (walkFunDef (walk fuel) id name realName args returnType varargs) := by
  rename' s => s₀
  refine .read reads_innermostType ?_
  refine (composed_mapM args fun arg s => composed_externalType hw arg.type arg.pointers).bind
    fun argTypes _ _ => ?_
  extract_lets declareFun
  have hdeclare : ∀ result s, Composed setting s (declareFun result) := by
    intro result s
    refine .read reads_types ?_
    extract_lets add
    have hadd :
        (∀ previous, (s.program.types.get s₀.frame.innermostType).funs.get? name = some previous →
        previous = { realName, args := argTypes, returnType := result, varargs }) →
          Composed setting s (add ()) := fun h =>
      (composed_modifyTypes (.addFun ..) (Types.keepsNames_addFun h)).bind fun _ _ _ =>
        composed_giveType ..
    split
    · rename_i found hfound
      refine composed_unless fun hsame => hadd fun previous hprevious => ?_
      rw [← Option.some.inj (hfound.symm.trans hprevious)]
      exact not_ne_iff.mp hsame
    · rename_i hnone
      exact hadd fun previous hprevious => nomatch hnone.symm.trans hprevious
  split
  · exact (composed_externalType hw ..).bind fun result _ _ => hdeclare result _
  · exact hdeclare .nil _

end

/-! ### Expressions of types -/

section
variable (hw : ∀ id s, Composed setting s (walk fuel id))
include hw

theorem composed_walkEither (id left right : ExprId) :
    Composed setting s (walkEither (walk fuel) id left right) := by
  refine (hw left s).bind fun _ s _ => (hw right s).bind fun _ _ _ => ?_
  exact .read (reads_nodeOf _) (.read (reads_nodeOf _) (composed_deriveFrom ..))

theorem composed_walkTypeUnion (id : ExprId) (members : List ExprId) :
    Composed setting s (walkTypeUnion (walk fuel) id members) := by
  refine (composed_mapM members fun id s => composed_denotedType hw id).bind fun ids _ _ => ?_
  refine (composed_types (Types.acts_join _) (Types.growsTo_join ..).keepsNames).bind
    fun union _ _ => ?_
  split
  · exact (composed_metaclassOf _).bind fun _ _ _ => composed_giveType ..
  · exact composed_defectAt ..

theorem composed_walkGenericInstance (id name : ExprId) (args : List ExprId) :
    Composed setting s (walkGenericInstance (walk fuel) id name args) := by
  refine (composed_denotedType hw name).bind fun generic _ _ => ?_
  refine (composed_mapM args fun id s => composed_denotedType hw id).bind fun types s _ =>
    .read reads_types ?_
  split
  · rename_i happly
    have hacts := acts_applyGeneric happly
    refine .bind (.update (quiet_of_exprs (course_types hacts) rfl rfl rfl rfl ⟨?_, ?_⟩) rfl)
      fun _ _ _ => ?_
    · exact Types.keepsMethods_of_acts hacts
    · have hgrows : s.program.types.GrowsTo (s.program.types.apply generic types).2 :=
        (Types.settles_apply ..).1
      rw [← Types.eq_apply_of_applyGeneric happly] at hgrows
      exact hgrows.keepsNames
    exact (composed_metaclassOf _).bind fun _ _ _ => composed_giveType ..
  · exact composed_problemAt ..

theorem composed_walkIsA (id object type : ExprId) :
    Composed setting s (walkIsA (walk fuel) id object type) := by
  refine (hw object s).bind fun _ _ _ => (composed_denotedType hw type).bind fun target _ _ => ?_
  refine (composed_giveType ..).bind fun _ _ _ => .read (reads_construct _) ?_
  split
  · exact composed_setExprGuard ..
  · exact .pure _ _

theorem composed_walkTypeOf (id : ExprId) (values : List ExprId) :
    Composed setting s (walkTypeOf (walk fuel) id values) :=
  (composed_forM values fun value _ => hw value).bind fun _ _ _ =>
    .read reads_program (composed_deriveFrom ..)

theorem composed_walkPointerOf (id target : ExprId) :
    Composed setting s (walkPointerOf (walk fuel) id target) := by
  have hderive : ∀ slot s, Composed setting s
      (do deriveFrom target [slot]; deriveFrom id [slot]) := fun slot s =>
    (composed_deriveFrom ..).bind fun _ _ _ => composed_deriveFrom ..
  refine .read (reads_construct _) ?_
  dsimp only
  split
  · exact (composed_localVar _).bind fun slot _ _ => hderive slot _
  · exact (composed_instanceVar ..).bind fun slot _ _ => hderive slot _
  · exact (hw target _).bind fun _ _ _ => .read (reads_nodeOf _) (hderive _ _)

end

/-! ### Bodies of built-in methods -/

theorem composed_selfField (id : ExprId) (name : String) :
    Composed setting s (selfField id name) := by
  refine composed_typeOfSelf.bind fun scope _ _ => .read reads_types ?_
  dsimp only
  split
  · exact .pure _ _
  · exact composed_problemAt ..

theorem composed_operand (id : ExprId) (name : String) : Composed setting s (operand id name) := by
  refine .read reads_frame ?_
  split
  · exact .pure _ _
  · exact composed_defectAt ..

theorem composed_walkFieldGet (id : ExprId) (name : String) :
    Composed setting s (walkFieldGet id name) :=
  (composed_selfField id name).bind fun _ _ _ => composed_giveType ..

theorem composed_walkFieldSet (id : ExprId) (name : String) :
    Composed setting s (walkFieldSet id name) := by
  refine (composed_selfField id name).bind fun field _ _ =>
    (composed_operand id _).bind fun value _ _ => ?_
  refine .read reads_program ?_
  dsimp only
  split
  · exact composed_check (composed_giveType ..)
  · exact composed_giveType ..

theorem composed_requireAllocatable (id : ExprId) (type : TypeId) :
    Composed setting s (requireAllocatable id type) := by
  refine .read reads_types ?_
  dsimp only
  split
  · refine composed_check ?_
    split
    · exact composed_problemAt ..
    · exact .pure _ _
  · exact .pure _ _

theorem composed_walkClassOfSelf (id : ExprId) : Composed setting s (walkClassOfSelf id) :=
  composed_typeOfSelf.bind fun _ _ _ => (composed_metaclassOf _).bind fun _ _ _ =>
    composed_giveType ..

theorem composed_walkAllocate (id : ExprId) : Composed setting s (walkAllocate id) := by
  refine composed_typeOfSelf.bind fun scope _ _ => .read reads_types ?_
  exact (composed_requireAllocatable ..).bind fun _ _ _ => composed_giveType ..

theorem composed_selfPointer (id : ExprId) : Composed setting s (selfPointer id) := by
  refine composed_typeOfSelf.bind fun scope _ _ => .read reads_program ?_
  dsimp only
  split
  · split
    · split
      · exact .pure _ _
      · exact composed_defectAt ..
    · exact composed_problemAt ..
  · exact composed_problemAt ..

theorem composed_walkSamePointer (id : ExprId) : Composed setting s (walkSamePointer id) :=
  (composed_selfPointer id).bind fun _ _ _ => composed_giveType ..

theorem composed_walkPointerGet (id : ExprId) : Composed setting s (walkPointerGet id) :=
  (composed_selfPointer id).bind fun _ _ _ => composed_giveType ..

theorem composed_walkPointerSet (id : ExprId) : Composed setting s (walkPointerSet id) :=
  (composed_selfPointer id).bind fun _ _ _ => (composed_operand id _).bind fun _ _ _ =>
    composed_deriveFrom ..

theorem composed_walkPointerCast (id : ExprId) : Composed setting s (walkPointerCast id) := by
  refine (composed_operand id _).bind fun target _ _ => .read reads_program ?_
  split
  · exact .pure _ _
  · exact (composed_types (Types.acts_apply ..) (Types.settles_apply ..).1.keepsNames).bind
      fun _ _ _ => composed_giveType ..

end TypeFlow.Infer
