import TypeFlow.Expr.Copy

/-!
# The parts of a construct

`traverse` meets the parts of a construct one by one, in the order of `children`, and lowering is
such a traversal. What holds of a tree whenever it holds of its parts holds of every tree
(`Tree.byParts`).
-/

namespace TypeFlow

theorem sizeOf_lt_of_mem_toList {α : Type} [SizeOf α] {a : α} {o : Option α} (h : a ∈ o.toList) :
    sizeOf a < sizeOf o := by
  cases o with
  | none => cases h
  | some b =>
    rw [List.mem_singleton.mp h, Option.some.sizeOf_spec]
    omega

theorem Field.sizeOf_lt_of_mem {α : Type} [SizeOf α] {a : α} {fields : List (Field α)}
    (h : a ∈ fields.map Field.type) : sizeOf a < sizeOf fields := by
  obtain ⟨field, hf, rfl⟩ := List.mem_map.mp h
  have hlt := List.sizeOf_lt_of_mem hf
  have hspec : sizeOf field = 1 + sizeOf field.name + sizeOf field.type +
      sizeOf field.pointers := by
    cases field; simp
  omega

namespace Construct

theorem sizeOf_lt_of_mem_children {α : Type} [SizeOf α] {c : Construct α} {a : α}
    (h : a ∈ c.children) : sizeOf a < sizeOf c := by
  have hoption : ∀ o : Option α, a ∈ o.toList → sizeOf a < sizeOf o :=
    fun _ => sizeOf_lt_of_mem_toList
  have hlist : ∀ as : List α, a ∈ as → sizeOf a < sizeOf as := fun _ => List.sizeOf_lt_of_mem
  have hfields : ∀ fields : List (Field α), a ∈ fields.map Field.type → sizeOf a < sizeOf fields :=
    fun _ => Field.sizeOf_lt_of_mem
  cases c with
  | methodDef receiver name params body returnType blockParam =>
    cases blockParam with
    | none =>
      simp only [children, List.mem_append, List.not_mem_nil, or_false] at h
      simp only [methodDef.sizeOf_spec]
      grind
    | some p =>
      have hspec : sizeOf p = 1 + sizeOf p.name + sizeOf p.inputs := by cases p; simp
      simp only [children, List.mem_append] at h
      simp only [methodDef.sizeOf_spec, Option.some.sizeOf_spec]
      grind
  | _ =>
    simp only [children, List.mem_append, List.mem_cons, List.not_mem_nil, or_false] at h <;>
    · simp only [sequence.sizeOf_spec, declareVar.sizeOf_spec, assign.sizeOf_spec,
        multiAssign.sizeOf_spec,
        conditional.sizeOf_spec, loop.sizeOf_spec, breakOut.sizeOf_spec, returnFrom.sizeOf_spec,
        yieldTo.sizeOf_spec, call.sizeOf_spec, block.sizeOf_spec, macroDef.sizeOf_spec,
        classDef.sizeOf_spec, moduleDef.sizeOf_spec, includeModule.sizeOf_spec, libDef.sizeOf_spec,
        funDef.sizeOf_spec, aliasDef.sizeOf_spec, structDef.sizeOf_spec, unionDef.sizeOf_spec,
        eitherValue.sizeOf_spec, typeUnion.sizeOf_spec,
          genericInstance.sizeOf_spec, isA.sizeOf_spec,
        typeOf.sizeOf_spec, pointerOf.sizeOf_spec]
      grind

end Construct

theorem Tree.byParts {P : Tree → Prop}
    (plain : ∀ construct location, (∀ part ∈ construct.children, P part) →
      P (.plain construct location))
    (sugar : ∀ abbreviation location, P (.sugar abbreviation location)) : ∀ tree, P tree
  | .plain construct location => plain construct location fun part _ => byParts plain sugar part
  | .sugar abbreviation location => sugar abbreviation location
termination_by tree => sizeOf tree
decreasing_by
  have := Construct.sizeOf_lt_of_mem_children ‹_›
  rw [Tree.plain.sizeOf_spec]
  omega

/-! ### Traversals -/

namespace Construct
variable {α β : Type} {m : Type → Type} [Monad m] [LawfulMonad m]

theorem mapM_toList (f : α → m β) (o : Option α) :
    Option.toList <$> o.mapM f = o.toList.mapM f := by
  cases o <;> simp

theorem map_type_mapM (f : α → m β) (fields : List (Field α)) :
    List.map Field.type <$> fields.mapM (traverseField f) = (fields.map Field.type).mapM f := by
  induction fields with
  | nil => simp
  | cons field rest ih =>
    simp only [List.mapM_cons, List.map_cons, ← ih, map_eq_pure_bind, traverseField,
      bind_assoc, pure_bind]

/-- The parts of a construct are replaced one by one, in order. -/
theorem children_traverse (f : α → m β) (c : Construct α) :
    children <$> c.traverse f = c.children.mapM f := by
  cases c with
  | nop | nilLiteral | boolLiteral | charLiteral | numberLiteral | stringLiteral
      | symbolLiteral | var
  | instanceVar | globalVar | path | enumDef | structGet | structSet | unionGet
      | unionSet | classOfSelf
  | allocate | pointerMalloc | pointerRealloc | pointerGetValue | pointerSetValue | pointerAdd
  | pointerCast => exact map_pure _ _
  | methodDef receiver name params body returnType blockParam =>
    cases blockParam <;>
      simp only [traverse, children, List.mapM_append, ← mapM_toList, map_eq_pure_bind,
        bind_assoc, pure_bind, List.append_assoc, List.mapM_nil]
  | funDef | structDef | unionDef =>
    simp only [traverse, children, List.mapM_append, ← mapM_toList,
      ← map_type_mapM, map_eq_pure_bind,
      bind_assoc, pure_bind]
  | _ =>
    simp only [traverse, children, List.mapM_append, List.mapM_cons, List.mapM_nil, ← mapM_toList,
      map_eq_pure_bind, bind_assoc, pure_bind, bind_pure, List.append_assoc]

end Construct

namespace Tree

theorem lowerList_eq (trees : List Tree) : lowerList trees = trees.mapM lower := by
  induction trees with
  | nil => rw [lowerList, List.mapM_nil]
  | cons tree rest ih => rw [lowerList, List.mapM_cons, ih]

theorem lowerOption_eq (tree : Option Tree) : lowerOption tree = tree.mapM lower := by
  cases tree <;> simp [lowerOption]

theorem lowerFields_eq (fields : List (Field Tree)) :
    lowerFields fields = fields.mapM (Construct.traverseField lower) := by
  induction fields with
  | nil => rw [lowerFields, List.mapM_nil]
  | cons field rest ih => rw [lowerFields, List.mapM_cons, ih]; cases field; rfl

/-- Lowering a construct lowers its parts in order. -/
theorem lowerConstruct_eq (c : Construct Tree) : lowerConstruct c = c.traverse lower := by
  cases c with
  | methodDef receiver name params body returnType blockParam =>
    cases blockParam with
    | none => simp [lowerConstruct, Construct.traverse, lowerOption_eq, lowerBlockOption]
    | some p =>
      cases p
      simp [lowerConstruct, Construct.traverse, lowerOption_eq, lowerBlockOption,
        lowerBlockParam, lowerList_eq]
  | _ =>
    simp only [lowerConstruct, Construct.traverse, lowerList_eq, lowerOption_eq, lowerFields_eq]

end Tree

end TypeFlow
