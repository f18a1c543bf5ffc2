import TypeFlow.Proofs.Inference.Declared
import TypeFlow.Proofs.Inference.Intact.Control

/-!
# Declarations leave intact states

Whatever a declaration records in the table of types is a type of the table.
-/

namespace TypeFlow.Infer
variable {setting : Setting} {X : List NodeId} {L : List Duty} {s s' : WalkState} {walk : Step}
  {id : ExprId} {t : Duty}

/-! ### Methods and types -/

theorem leaves_methodHolder (hw : Finishes setting walk) {receiver : Option ExprId}
    (hs : s.Intact X (t :: (receiver.toList.map Duty.whole ++ L))) :
    Leaves setting s (methodHolder walk receiver) X (t :: L) InTable := by
  unfold methodHolder
  split
  · exact leaves_innermostType hs
  · refine leaves_read (outcome_construct _) ?_
    split
    · exact leaves_read outcome_innermostType (leaves_metaclassOf hs.swap.tail hs.innermostType_lt)
    · exact (leaves_denotedPart hw hs).bind fun _ _ _ hs' htype => leaves_metaclassOf hs' htype

theorem leaves_walkMethodDef (hw : Finishes setting walk) {receiver : Option ExprId}
    (hs : s.Intact X (.single id :: (receiver.toList.map Duty.whole ++ L))) (name : String)
    (params : List String) :
    LeavesIntact setting s (walkMethodDef walk id receiver name params) X (.done id :: L) := by
  unfold walkMethodDef
  refine (leaves_methodHolder hw hs).bind fun owner s₁ _ hs₁ _ => ?_
  exact (leaves_modifyProgram hs₁ (hs₁.program.addMethod owner _ id)).bind fun _ _ _ hs₂ _ =>
    leaves_giveBuiltin hs₂ (by decide)

theorem leaves_walkMacroDef (hw : Finishes setting walk) {receiver : Option ExprId}
    (hs : s.Intact X (.single id :: (receiver.toList.map Duty.whole ++ L))) (name : String)
    (params : List String) :
    LeavesIntact setting s (walkMacroDef walk id receiver name params) X (.done id :: L) := by
  unfold walkMacroDef
  refine (leaves_methodHolder hw hs).bind fun owner s₁ _ hs₁ _ => ?_
  have hwhole : (s₁.program.types.addMacroDef owner (name, params.length) id).Whole :=
    hs₁.whole.modify _ fun e he => ⟨he.modules, he.bound, he.named, he.results⟩
  exact (leaves_modifyTypes hs₁ (.addMacroDef ..) hwhole).bind fun _ _ _ hs₂ _ =>
    leaves_giveBuiltin hs₂ (by decide)

theorem leaves_declareHere (hs : s.Intact X L) (name : String) {kind : TypeKind}
    (hk : ∀ m ∈ kind.mentions, InTable m s) (hu : kind.isUnion = false) :
    Leaves setting s (declareHere name kind) X L InTable := by
  unfold declareHere
  refine leaves_read outcome_innermostType
    (leaves_updateTypes hs (.single (.declare ..)) (hs.whole.declare _ name hk hu) ?_)
  exact Types.Whole.declare_lt ..

/-- What is declared in the innermost enclosing type is in the table. -/
theorem declaredHere_lt (hs : s.Intact X L) {name : String} {type : TypeId}
    (h : (s.program.types.get s.frame.innermostType).types.get? name = some (.type type)) :
    InTable type s :=
  (hs.whole.within _).named name type h

theorem leaves_superclassExpr (hw : Finishes setting walk) {superclass : Option ExprId}
    (hs : s.Intact X (t :: (superclass.toList.map Duty.whole ++ L))) :
    Leaves setting s (superclassExpr walk superclass) X (t :: L) fun parent s' => ∀ type ∈ parent,
      InTable type s' := by
  unfold superclassExpr
  split
  · exact leaves_pure hs fun _ h => nomatch h
  · refine (leaves_denotedPart hw hs).bind fun parent s₁ _ hs₁ hparent =>
      leaves_read outcome_types ?_
    split
    · exact leaves_pure hs₁ fun _ h => by cases h; exact hparent
    · exact leaves_pure hs₁ fun _ h => by cases h; exact hparent
    · exact leaves_read (outcome_nameOf _) (leaves_problemAt ..)

theorem leaves_reopenClass (hs : s.Intact X L) (id : ExprId) (name : String)
    (parent : Option TypeId) {entry : Named}
    (hentry : ∀ type, entry = .type type → InTable type s) :
    Leaves setting s (reopenClass id name parent entry) X L InTable := by
  unfold reopenClass
  split
  · exact leaves_problemAt ..
  · refine leaves_read outcome_types ?_
    split
    · exact leaves_check fun _ => leaves_pure hs (hentry _ rfl)
    · exact leaves_problemAt ..

/-- The body of a declaration, and then its type. -/
theorem leaves_bodyIn (hw : Finishes setting walk) {body : Option ExprId}
    (hs : s.Intact X (.single id :: (body.toList.map Duty.whole ++ L))) {type : TypeId}
    (htype : InTable type s) :
    LeavesIntact setting s (do walkBodyIn walk type body; giveType id .nil) X (.done id :: L) :=
  (leaves_inType hs htype fun _ _ hs' => hw.optional hs').bind fun _ _ _ hs' _ =>
    leaves_giveBuiltin hs' (by decide)

theorem leaves_walkClassDef (hw : Finishes setting walk) {superclass body : Option ExprId}
    (hs : s.Intact X
      (.single id :: (superclass.toList.map Duty.whole ++ (body.toList.map Duty.whole ++ L))))
    (name : String) (typeVars : Option (List String)) (isAbstract : Bool) :
    LeavesIntact setting s (walkClassDef walk id name superclass typeVars isAbstract body) X
      (.done id :: L) := by
  unfold walkClassDef
  refine (leaves_superclassExpr hw hs).bind fun parent s₁ _ hs₁ hparent =>
    leaves_read (outcome_declaredHere name) ?_
  dsimp only
  split
  · rename_i entry hentry
    refine (leaves_reopenClass hs₁ id name parent
      fun type heq => ?_).bind fun type s₂ _ hs₂ htype =>
      leaves_bodyIn hw hs₂ htype
    exact declaredHere_lt hs₁ (heq ▸ hentry)
  · refine (leaves_declareHere hs₁ name (fun m hm => ?_) rfl).bind fun type s₂ _ hs₂ htype =>
      leaves_bodyIn hw hs₂ htype
    rw [show m = parent.getD .reference by simpa [TypeKind.mentions] using hm]
    cases parent with
    | none => exact hs₁.builtin_lt (by decide)
    | some type => exact hparent type rfl

theorem leaves_walkModuleDef (hw : Finishes setting walk) {body : Option ExprId}
    (hs : s.Intact X (.single id :: (body.toList.map Duty.whole ++ L))) (name : String)
    (typeVars : Option (List String)) :
    LeavesIntact setting s (walkModuleDef walk id name typeVars body) X (.done id :: L) := by
  unfold walkModuleDef
  refine leaves_read (outcome_declaredHere name) ?_
  dsimp only
  split
  · rename_i hentry
    refine leaves_read outcome_types ?_
    split
    · exact leaves_bodyIn hw hs (declaredHere_lt hs hentry)
    · exact leaves_problemAt_bind ..
  · exact leaves_problemAt_bind ..
  · exact (leaves_declareHere hs name (fun _ hm => absurd hm List.not_mem_nil)
      rfl).bind fun type s₁ _ hs₁ htype =>
      leaves_bodyIn hw hs₁ htype

/-! ### Inclusion -/

theorem leaves_moduleExpr (hw : Finishes setting walk) (hs : s.Intact X (.whole id :: L)) :
    Leaves setting s (moduleExpr walk id) X L InTable := by
  unfold moduleExpr
  refine (leaves_denotedType hw hs).bind fun _ s₁ _ hs₁ htype => leaves_read outcome_types ?_
  split
  · exact leaves_pure hs₁ htype
  · exact leaves_read (outcome_nameOf _) (leaves_problemAt ..)

/-- If a parameter is bound to a type, then to one of the table. -/
abbrev BoundInTable (value : ParamValue) (p : Program) : Prop :=
  ∀ type, value = .type type → type.index < p.types.size

theorem leaves_includeArgument (hw : Finishes setting walk) (own : List String) {arg : ExprId}
    (hs : s.Intact X (.whole arg :: L)) :
    Leaves setting s (includeArgument walk own arg) X L fun value s' =>
      BoundInTable value s'.program := by
  have htype : Leaves setting s (do return .type (← denotedType walk arg) : Infer ParamValue) X L
      fun value s' => BoundInTable value s'.program :=
    (leaves_denotedType hw hs).bind fun _ _ _ hs' htype => leaves_pure hs' fun _ h => by
      cases h; exact htype
  unfold includeArgument
  refine leaves_read (outcome_construct arg) ?_
  split
  · split
    · exact leaves_pure hs.tail fun _ h => nomatch h
    · exact htype
  · exact htype

theorem leaves_inclusionBindings (hw : Finishes setting walk) (own : List String)
    {bindings : OrderedMap String ParamValue} {pairs : List (String × ExprId)}
    (hs : s.Intact X ((pairs.map Prod.snd).map Duty.whole ++ L))
    (hbindings : ∀ value ∈ bindings.values, BoundInTable value s.program) :
    Leaves setting s (inclusionBindings walk own bindings pairs) X L
      fun bindings s' => ∀ value ∈ bindings.values, BoundInTable value s'.program := by
  induction pairs generalizing s bindings with
  | nil => exact leaves_pure hs hbindings
  | cons pair rest ih =>
    obtain ⟨param, arg⟩ := pair
    unfold inclusionBindings
    refine (leaves_includeArgument hw own hs).bind fun value s₁ hl₁ hs₁ hvalue =>
      ih hs₁ fun other hother => ?_
    rcases OrderedMap.mem_values_insert hother with rfl | hother
    · exact hvalue
    · exact fun type heq => hl₁.kinds.lt (hbindings other hother type heq)

/-- The module, and what its parameters are bound to, are in the table. -/
structure IncludesInTable (inclusion : Inclusion) (s : WalkState) : Prop where
  module : InTable inclusion.module s
  bound : ∀ name type, inclusion.binding? name = some (.type type) → InTable type s

theorem leaves_inclusionOf (hw : Finishes setting walk) {name : ExprId}
    (hs : s.Intact X (.whole name :: L)) :
    Leaves setting s (inclusionOf walk name) X L IncludesInTable := by
  unfold inclusionOf
  refine leaves_read (outcome_construct name) ?_
  split
  · rename_i moduleName args hc
    have hparts : s.Intact X (.whole moduleName :: (args.map Duty.whole ++ L)) := by
      have hparts := hs.parts (by simp [hc])
      rw [hc] at hparts
      exact hparts.tail
    refine (leaves_moduleExpr hw hparts).bind fun module s₁ _ hs₁ hmodule =>
      leaves_read outcome_types ?_
    dsimp only
    split
    · exact leaves_problemAt ..
    · rename_i params _
      refine leaves_check fun hlength => leaves_read outcome_innermostType ?_
      have hpairs : s₁.Intact X (((params.zip args).map Prod.snd).map Duty.whole ++ L) := by
        rwa [List.map_snd_zip (Nat.le_of_eq (Decidable.of_not_not hlength).symm)]
      refine (leaves_inclusionBindings hw _ hpairs fun _ h => absurd h List.not_mem_nil).bind
        fun bindings s₂ hl₂ hs₂ hbindings =>
          leaves_pure hs₂ ⟨hl₂.kinds.lt hmodule, fun name type hb => ?_⟩
      exact hbindings _ (OrderedMap.mem_values_of_get? hb) type rfl
  · refine (leaves_moduleExpr hw hs).bind fun module s₁ _ hs₁ hmodule =>
      leaves_read outcome_types ?_
    dsimp only
    split
    · exact leaves_read (outcome_nameOf _) (leaves_problemAt_bind ..)
    · exact leaves_pure hs₁ ⟨hmodule, fun _ _ h => nomatch h⟩

theorem leaves_walkInclude (hw : Finishes setting walk) {name : ExprId}
    (hs : s.Intact X (.single id :: .whole name :: L)) :
    LeavesIntact setting s (walkInclude walk id name) X (.done id :: L) := by
  unfold walkInclude
  refine (leaves_inclusionOf hw hs.swap).bind fun inclusion s₁ _ hs₁ hin =>
    leaves_read outcome_innermostType ?_
  exact (leaves_modifyTypes hs₁ (.includeModule ..)
    (hs₁.whole.includeModule _ hin.module hin.bound)).bind
    fun _ _ _ hs₂ _ => leaves_giveBuiltin hs₂ (by decide)

/-! ### Libs -/

theorem leaves_walkLibDef (hw : Finishes setting walk) {body : Option ExprId}
    (hs : s.Intact X (.single id :: (body.toList.map Duty.whole ++ L))) (name : String)
    (libname : Option String) :
    LeavesIntact setting s (walkLibDef walk id name libname body) X (.done id :: L) := by
  unfold walkLibDef
  refine leaves_read (outcome_declaredHere name) ?_
  dsimp only
  split
  · rename_i hentry
    refine leaves_read outcome_types ?_
    split
    · exact leaves_bodyIn hw hs (declaredHere_lt hs hentry)
    · exact leaves_problemAt_bind ..
  · exact leaves_problemAt_bind ..
  · exact (leaves_declareHere hs name (fun _ hm => absurd hm List.not_mem_nil)
      rfl).bind fun type s₁ _ hs₁ htype =>
      leaves_bodyIn hw hs₁ htype

theorem leaves_externalType (hw : Finishes setting walk) (hs : s.Intact X (.whole id :: L))
    (pointers : Nat) :
    Leaves setting s (externalType walk id pointers) X L InTable := by
  unfold externalType
  refine (leaves_denotedType hw hs).bind fun type s₁ _ hs₁ htype =>
    leaves_read outcome_types (leaves_check fun _ => ?_)
  obtain ⟨hwhole, hlt⟩ := hs₁.whole.pointersTo htype pointers
  exact leaves_updateTypes hs₁ (Types.acts_pointersTo ..) hwhole hlt

theorem leaves_externalFields (hw : Finishes setting walk) {known : OrderedMap String TypeId}
    {fields : List (Field ExprId)} (hs : s.Intact X ((fields.map Field.type).map Duty.whole ++ L))
    (hknown : ∀ type ∈ known.values, InTable type s) :
    Leaves setting s (externalFields walk known fields) X L fun known s' => ∀ type ∈ known.values,
      InTable type s' := by
  induction fields generalizing s known with
  | nil => exact leaves_pure hs hknown
  | cons field rest ih =>
    unfold externalFields
    refine (leaves_externalType hw hs _).bind fun type s₁ hl₁ hs₁ htype =>
      ih hs₁ fun other hother => ?_
    rcases OrderedMap.mem_values_insert hother with rfl | hother
    · exact htype
    · exact hl₁.kinds.lt (hknown other hother)

theorem leaves_requireUndeclared (hs : s.Intact X L) (id : ExprId) (name : String) :
    LeavesIntact setting s (requireUndeclared id name) X L := by
  unfold requireUndeclared
  refine leaves_read (outcome_declaredHere name) ?_
  split
  · exact leaves_problemAt ..
  · exact leaves_pure hs trivial

theorem leaves_walkAliasDef (hw : Finishes setting walk) {type : ExprId}
    (hs : s.Intact X (.single id :: .whole type :: L)) (name : String) (pointers : Nat) :
    LeavesIntact setting s (walkAliasDef walk id name type pointers) X (.done id :: L) := by
  unfold walkAliasDef
  refine (leaves_requireUndeclared hs id name).bind fun _ s₁ _ hs₁ _ => ?_
  refine (leaves_externalType hw hs₁.swap pointers).bind fun target s₂ _ hs₂ htarget => ?_
  refine (leaves_declareHere hs₂ name (fun m hm => ?_) rfl).bind fun _ s₃ _ hs₃ _ =>
    leaves_giveBuiltin hs₃ (by decide)
  rw [show m = target by simpa [TypeKind.mentions] using hm]; exact htarget

theorem leaves_walkFieldsDef (hw : Finishes setting walk) {fields : List (Field ExprId)}
    (hs : s.Intact X (.single id :: ((fields.map Field.type).map Duty.whole ++ L))) (name : String)
    {kind : OrderedMap String TypeId → TypeKind}
    (hk : ∀ fields, (kind fields).mentions = fields.values)
    (hu : ∀ fields, (kind fields).isUnion = false) :
    LeavesIntact setting s (walkFieldsDef walk id name fields kind) X (.done id :: L) := by
  unfold walkFieldsDef
  refine (leaves_requireUndeclared hs id name).bind fun _ s₁ _ hs₁ _ => ?_
  refine (leaves_externalFields hw (hs₁.perm List.perm_middle.symm) fun _ h =>
    absurd h List.not_mem_nil).bind fun known s₂ _ hs₂ hknown => ?_
  exact (leaves_declareHere hs₂ name (fun m hm => hknown m (hk known ▸ hm))
    (hu known)).bind fun _ s₃ _ hs₃ _ =>
    leaves_giveBuiltin hs₃ (by decide)

theorem leaves_walkEnumDef (hs : s.Intact X (.single id :: L)) (name : String)
    (constants : List EnumConstant) :
    LeavesIntact setting s (walkEnumDef id name constants) X (.done id :: L) := by
  unfold walkEnumDef
  refine (leaves_requireUndeclared hs id name).bind fun _ s₁ _ hs₁ _ => ?_
  exact (leaves_declareHere hs₁ name (fun _ hm => absurd hm List.not_mem_nil)
    rfl).bind fun _ s₂ _ hs₂ _ =>
    leaves_giveBuiltin hs₂ (by decide)

theorem leaves_walkFunDef (hw : Finishes setting walk) {args : List (Field ExprId)}
    {returnType : Option ExprId}
    (hs : s.Intact X (.single id ::
      ((args.map Field.type).map Duty.whole ++ (returnType.toList.map Duty.whole ++ L))))
    (name realName : String) (varargs : Bool) :
    LeavesIntact setting s (walkFunDef walk id name realName args returnType varargs) X
      (.done id :: L) := by
  unfold walkFunDef
  refine leaves_read outcome_innermostType ?_
  rw [List.map_map] at hs
  refine (leaves_mapM (P := fun (type : TypeId) p => type.index < p.types.size)
    (fun hl => hl.kinds.lt)
    (fun arg : Field ExprId => [Duty.whole arg.type]) hs.each fun arg _ s' M _ hs' =>
      leaves_externalType hw hs' _).bind
    fun argTypes s₁ _ hs₁ _ => ?_
  extract_lets declareFun
  have hdeclare : ∀ result s₂, s₂.Intact X (.single id :: L) → InTable result s₂ →
      LeavesIntact setting s₂ (declareFun result) X (.done id :: L) := by
    intro result s₂ hs₂ hresult
    refine leaves_read outcome_types ?_
    extract_lets add
    have hadd : LeavesIntact setting s₂ (add ()) X (.done id :: L) :=
      (leaves_modifyTypes hs₂ (.addFun ..) (hs₂.whole.addFun _ _ hresult)).bind fun _ _ _ hs₃ _ =>
        leaves_giveBuiltin hs₃ (by decide)
    split
    · exact leaves_check fun _ => hadd
    · exact hadd
  split
  · exact (leaves_externalType hw hs₁.swap 0).bind fun result s₂ _ hs₂ hresult =>
      hdeclare result s₂ hs₂ hresult
  · exact hdeclare .nil s₁ hs₁ (hs₁.builtin_lt (by decide))

end TypeFlow.Infer
