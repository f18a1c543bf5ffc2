import TypeFlow.Proofs.Types.Aged
import TypeFlow.Proofs.Types.Whole

/-!
# Tables in which types are founded on older ones

`Making` are the operations on a table that speak only of types that it has. What they lead to is
`Founded`: whatever an entry speaks of is in the table, what a type is made of and declared in is
older than the type itself (`Aged`), and instances lie where their classes do. So names and the
searches through superclasses and containers end.
-/

namespace TypeFlow.Types
variable {t t' : Types} {id : TypeId} {entry : TypeEntry} {f : TypeEntry → TypeEntry}

/-! ### Operations -/

/-- An operation that speaks of types of the table. -/
inductive Making (t : Types) : Types → Prop where
  | join {ids : List TypeId} : (∀ id ∈ ids, id.index < t.size) → Making t (t.join ids).2
  | metaclassOf {id : TypeId} : id.index < t.size → Making t (t.metaclassOf id).2
  | applyGeneric {generic type : TypeId} {args : List TypeId}
      {t' : Types} : (∀ a ∈ args, a.index < t.size) →
      t.applyGeneric generic args = .ok (type, t') → Making t t'
  | pointerTo {id : TypeId} : id.index < t.size → Making t (t.pointerTo id).2
  | includeModule (owner : TypeId) {inclusion : Inclusion} : t.isModule inclusion.module = true →
      (∀ name type, inclusion.binding? name = some (.type type) → type.index < t.size) →
      Making t (t.includeModule owner inclusion)
  | declare {container : TypeId} (name : String) {kind : TypeKind} : container.index < t.size →
      kind.isDeclared = true → (∀ m ∈ kind.mentions, m.index < t.size) →
      (∀ head parent, kind = .classType head → head.superclass = some parent →
        (t.kind parent).isInheritable = true) → Making t (t.declare container name kind).2
  | addConstant (owner : TypeId) (name : String) (const : ConstantId) : Making t
      (t.addConstant owner name const)
  | addMethod (owner : TypeId) (key : MethodKey) (definition : ExprId) : Making t
      (t.addMethod owner key definition)
  | addMacroDef (owner : TypeId) (key : MethodKey) (definition : ExprId) :
      Making t (t.addMacroDef owner key definition)
  | addFun (owner : TypeId) (name : String) {signature : Signature} :
      signature.returnType.index < t.size →
      Making t (t.addFun owner name signature)
  /-- Instance variables, and which of them the constructors assign. -/
  | addVars (owner : TypeId) (vars : OrderedMap String NodeId) (assigned : Option (List String)) :
      Making t
        (t.modify owner fun e => { e with instanceVars := vars, assignedAtStart := assigned })

abbrev Makings : Types → Types → Prop := Relation.ReflTransGen Making

theorem Making.declaration (h : Making t t') : Declaration t t' := by
  cases h with
  | join hids => exact .join hids
  | metaclassOf => exact .metaclassOf _
  | applyGeneric _ h => exact .applyGeneric h
  | pointerTo => exact .pointerTo _
  | includeModule owner hm => exact .includeModule owner hm
  | declare name _ hk _ hs => exact .declare _ name hk hs
  | addConstant owner =>
    refine .extend owner ?_ ?_
    · exact ⟨fun _ => rfl, fun _ => rfl⟩
    · exact fun _ => rfl
  | addMethod | addMacroDef | addFun | addVars => exact .extend _ _ fun _ => rfl

theorem Makings.declarations (h : Makings t t') : Declarations t t' := by
  induction h with
  | refl => exact .refl
  | tail _ h ih => exact ih.tail h.declaration

structure Founded (t : Types) : Prop where
  whole : t.Whole
  aged : t.Aged
  hierarchy : t.Hierarchy

theorem Making.whole (h : Making t t') (ht : t.Whole) : t'.Whole := by
  have hrest : ∀ {f : TypeEntry → TypeEntry} (owner : TypeId) (hf : TypeEntry.Extends f),
      (∀ e, (f e).includes = e.includes) → (∀ e, (f e).types = e.types) →
        (∀ e, (f e).funs = e.funs) →
      (t.modify owner f hf).Whole := fun owner hf hincludes htypes hfuns => by
    refine ht.modify hf fun e hw => ⟨?_, ?_, ?_, ?_⟩
    · rw [hincludes]; exact hw.modules
    · rw [hincludes]; exact hw.bound
    · rw [htypes]; exact hw.named
    · rw [hfuns]; exact hw.results
  cases h with
  | join hids => exact ht.join hids
  | metaclassOf hid => exact ht.metaclassOf hid
  | @applyGeneric generic type args _ hargs h =>
    rw [show t' = (t.apply generic args).2 from congrArg Prod.snd (eq_apply_of_applyGeneric h)]
    obtain ⟨head, hk⟩ := kind_of_applyGeneric h
    refine ht.apply (Nat.lt_of_not_le fun hle => ?_) hargs
    rw [kind_of_le hle] at hk; cases hk
  | pointerTo hid =>
    exact ht.apply (ht.builtin_lt (by decide)) fun a ha => by rwa [List.mem_singleton.mp ha]
  | includeModule owner hm hb =>
    refine ht.includeModule owner (Nat.lt_of_not_le fun hle => ?_) hb
    rw [isModule, kind_of_le hle] at hm; cases hm
  | declare name _ hk hm => exact ht.declare _ name hm (TypeKind.isUnion_of_isDeclared hk)
  | addConstant owner name const => exact ht.setName owner name fun _ h => by cases h
  | addFun owner name hs => exact ht.addFun owner name hs
  | addMethod | addMacroDef | addVars =>
    exact hrest _ _ (fun _ => rfl) (fun _ => rfl) fun _ => rfl

theorem Making.forming (h : Making t t') : Forming t t' := by
  cases h with
  | join hids => exact .join hids
  | metaclassOf hid => exact .metaclassOf hid
  | applyGeneric hargs h => exact .applyGeneric hargs h
  | pointerTo hid => exact .pointerTo hid
  | includeModule owner => exact .includeModule owner _
  | declare name hc hk hm => exact .declare name hc hk hm
  | addConstant owner =>
    refine .extend owner ?_ ?_
    · exact ⟨fun _ => rfl, fun _ => rfl⟩
    · exact fun _ => rfl
  | addMethod | addMacroDef | addFun | addVars => exact .extend _ _ fun _ => rfl

theorem Makings.founded (h : Makings initial t) : t.Founded := by
  have hall : t.Whole ∧ t.Aged := by
    induction h with
    | refl => exact ⟨whole_initial, aged_initial⟩
    | tail _ h ih => exact ⟨h.whole ih.1, h.forming.aged ih.1.toLawful.held ih.2⟩
  exact ⟨hall.1, hall.2, h.declarations.hierarchy⟩

end TypeFlow.Types
