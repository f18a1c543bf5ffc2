import TypeFlow.Proofs.Flow.Graph
import TypeFlow.Proofs.Program.Sound

/-!
# What constructors assign

A constructor counts as assigning an instance variable if there is an assignment anywhere in its
body (`Program.Assigns`), whether it lies on all paths through the body or not. For every class the
table of types records the variables that each of its constructors assigns, `Program.Records`, once
there is a constructor. A class asks its own record and those of its superclasses, each for itself
(`isAssignedAtStart_iff`).
-/

namespace TypeFlow

/-- The class itself, or the generic class of an instance. -/
def Types.genericOf (t : Types) (id : TypeId) : TypeId :=
  match t.kind id with
  | .applied generic _ => generic
  | _ => id

namespace Program
variable {p : Program} {held : NodeId → Prop} {name : String} {names : List String}
  {id definition : ExprId}
  {owner : TypeId}

/-! ### Assignments in a body -/

/-- The expression assigns the instance variable, or a part of it does; definitions and blocks
inside of it do not count. -/
inductive Assigns (p : Program) (name : String) : ExprId → Prop where
  | here {id target : ExprId} : opensScope (p.construct id) = false →
      target ∈ targets (p.construct id) →
      p.construct target = .instanceVar name → Assigns p name id
  | part {id part : ExprId} : opensScope (p.construct id) = false →
      part ∈ (p.construct id).children →
      Assigns p name part → Assigns p name id

theorem assigns_iff (hopen : opensScope (p.construct id) = false) : p.Assigns name id ↔
    (∃ target ∈ targets (p.construct id), p.construct target = .instanceVar name) ∨
      ∃ part ∈ (p.construct id).children, p.Assigns name part := by
  constructor
  · intro h
    cases h with
    | here _ ht hc => exact .inl ⟨_, ht, hc⟩
    | part _ hp h => exact .inr ⟨_, hp, h⟩
  · rintro (⟨target, ht, hc⟩ | ⟨part, hp, h⟩)
    · exact .here hopen ht hc
    · exact .part hopen hp h

theorem not_assigns_of_opensScope (hopen : opensScope (p.construct id) = true) :
    ¬ p.Assigns name id := fun h => by
  cases h with
  | here h | part h => rw [hopen] at h; cases h

theorem mem_foldl_insertLast {found : List String} :
    name ∈ found.foldl insertLast names ↔ name ∈ names ∨ name ∈ found := by
  induction found generalizing names with
  | nil => simp
  | cons first rest ih => rw [List.foldl_cons, ih, mem_insertLast, List.mem_cons, or_assoc]

theorem mem_foldl_of {β : Type} {f : List String → β → List String} {A : β → Prop} {l : List β}
    (hf : ∀ b ∈ l, ∀ names, name ∈ f names b ↔ name ∈ names ∨ A b) :
    name ∈ l.foldl f names ↔ name ∈ names ∨ ∃ b ∈ l, A b := by
  induction l generalizing names with
  | nil => simp
  | cons b rest ih =>
    rw [List.foldl_cons, ih fun c hc => hf c (List.mem_cons_of_mem b hc),
      hf b List.mem_cons_self, or_assoc, List.exists_mem_cons_iff]

theorem instanceVarName?_eq_some {c : Construct ExprId} :
    instanceVarName? c = some name ↔ c = .instanceVar name := by
  cases c <;> simp [instanceVarName?]

/-- The parts of an expression are before it, so that its position is room enough for the search. -/
theorem mem_assignedWithin
    (hparts : ∀ id, ∀ part ∈ (p.construct id).children, part.index < id.index) {fuel : Nat}
    (hfuel : id.index < fuel) :
    name ∈ p.assignedWithin instanceVarName? fuel names id ↔ name ∈ names ∨ p.Assigns name id := by
  induction fuel generalizing id names with
  | zero => omega
  | succ fuel ih =>
    rw [assignedWithin]
    cases hopen : opensScope (p.construct id) with
    | true => simp [not_assigns_of_opensScope hopen]
    | false =>
      have hpart : ∀ part ∈ (p.construct id).children, ∀ names,
          name ∈ p.assignedWithin instanceVarName? fuel names part ↔ name ∈ names ∨
            p.Assigns name part :=
        fun part hpart names =>
          ih (Nat.lt_of_lt_of_le (hparts id part hpart) (Nat.le_of_lt_succ hfuel))
      dsimp only
      rw [if_neg Bool.false_ne_true, mem_foldl_of hpart, mem_foldl_insertLast,
        or_assoc, assigns_iff hopen]
      simp only [List.mem_filterMap, instanceVarName?_eq_some]

theorem Sound.mem_instanceVarsAssignedIn (h : p.Sound held) :
    name ∈ p.instanceVarsAssignedIn id ↔ p.Assigns name id := by
  have hparts :
      ∀ id, ∀ part ∈ (p.construct id).children, part.index < id.index := fun id part hpart => by
    by_cases hid : id.index < p.exprs.size
    · exact h.parts id hid part hpart
    · rw [construct, expr, Array.getElem?_eq_none (Nat.le_of_not_lt hid)] at hpart
      cases hpart
  rw [instanceVarsAssignedIn, mem_assignedWithin hparts (Nat.lt_succ_self _)]
  simp

/-! ### Constructors -/

/-- The body of the definition assigns the instance variable. -/
def DefAssigns (p : Program) (name : String) (definition : ExprId) : Prop :=
  ∃ receiver method params body returnType blockParam,
    p.construct definition = .methodDef receiver method params (some body) returnType blockParam ∧
    p.Assigns name body

theorem Sound.mem_assignedByDef (h : p.Sound held) :
    name ∈ p.assignedByDef definition ↔ p.DefAssigns name definition := by
  unfold assignedByDef
  split
  · rename_i receiver method params body returnType blockParam hc
    rw [h.mem_instanceVarsAssignedIn]
    constructor
    · exact fun ha => ⟨_, _, _, _, _, _, hc, ha⟩
    · rintro ⟨_, _, _, _, _, _, hc', ha⟩
      cases hc.symm.trans hc'
      exact ha
  · rename_i hno
    refine iff_of_false List.not_mem_nil ?_
    rintro ⟨_, _, _, _, _, _, hc, -⟩
    exact absurd hc (hno _ _ _ _ _ _)

/-- A constructor that has been registered, with the program as it was then. -/
structure Constructor where
  owner : TypeId
  definition : ExprId
  program : Program

def Constructor.Assigns (c : Constructor) (name : String) : Prop :=
  c.program.DefAssigns name c.definition

variable {constructors : List Constructor}

/-- What is recorded for a class, once it has a constructor: the variables that each of its
constructors assigns. -/
structure RecordFor (constructors : List Constructor) (owner : TypeId)
    (record : Option (List String)) : Prop where
  isSome_iff : record.isSome ↔ ∃ c ∈ constructors, c.owner = owner
  mem_iff : ∀ names, record = some names → ∀ name, name ∈ names ↔ ∀ c ∈ constructors,
    c.owner = owner → c.Assigns name

def Records (constructors : List Constructor) (t : Types) : Prop :=
  ∀ owner, RecordFor constructors owner (t.get owner).assignedAtStart

/-- The record of a class that gets one more constructor. -/
def recordWith (record : Option (List String)) (assigned : List String) : List String :=
  match record with
  | some earlier => earlier.filter (· ∈ assigned)
  | none => assigned

/-- The class whose constructor is registered has a record from then on; the other records stay. -/
theorem get_addMethod_constructor (p : Program) (arity : Nat) (definition : ExprId)
    (howner : owner.index < p.types.size) (other : TypeId) :
    ((p.addMethod owner (constructorName, arity) definition).types.get other).assignedAtStart =
      if other = owner then some
        (recordWith (p.types.get owner).assignedAtStart (p.assignedByDef definition))
      else (p.types.get other).assignedAtStart := by
  have hdefs :
      ∀ id, ((p.types.addMethod owner (constructorName, arity) definition).get id).assignedAtStart =
      (p.types.get id).assignedAtStart := fun id => by
    refine Types.modify_field TypeEntry.assignedAtStart ?_ owner id
    exact fun _ => rfl
  unfold addMethod
  rw [if_pos rfl]
  dsimp only
  rw [Types.get_modify]
  by_cases h : other = owner
  · have hsize :
        owner.index < (p.types.addMethod owner (constructorName, arity) definition).size := by
      rw [Types.addMethod, Types.size_modify]; exact howner
    rw [if_pos ⟨h, hsize⟩, if_pos h]
    dsimp only
    rw [hdefs]
    rfl
  · rw [if_neg fun hand => h hand.1, if_neg h, hdefs]

theorem RecordFor.of_ne {record : Option (List String)} (h : RecordFor constructors owner record)
    {c : Constructor} (hc : c.owner ≠ owner) : RecordFor (constructors ++ [c]) owner record where
  isSome_iff := h.isSome_iff.trans (by simp [or_and_right, exists_or, hc])
  mem_iff names hnames name :=
    (h.mem_iff names hnames name).trans (by simp [or_imp, forall_and, hc])

/-- One more constructor can only take variables away. -/
theorem RecordFor.constructor {record : Option (List String)}
    (h : RecordFor constructors owner record) (hp : p.Sound held) :
    RecordFor (constructors ++ [⟨owner, definition, p⟩]) owner
      (some (recordWith record (p.assignedByDef definition))) := by
  refine ⟨by simp, fun names hnames name => ?_⟩
  obtain rfl := Option.some.inj hnames
  have hnew : (∀ c ∈ constructors ++ [⟨owner, definition, p⟩], c.owner = owner → c.Assigns name) ↔
      (∀ c ∈ constructors, c.owner = owner → c.Assigns name) ∧ p.DefAssigns name definition := by
    simp [Constructor.Assigns, or_imp, forall_and]
  rw [hnew]
  cases record with
  | none =>
    have hnone : ∀ c ∈ constructors, c.owner = owner → c.Assigns name := fun c hc ho =>
      absurd (h.isSome_iff.mpr ⟨c, hc, ho⟩) Bool.false_ne_true
    exact hp.mem_assignedByDef.trans (and_iff_right hnone).symm
  | some earlier =>
    simp only [recordWith, List.mem_filter, decide_eq_true_eq, h.mem_iff earlier rfl,
      hp.mem_assignedByDef]

theorem Records.addMethod (h : Records constructors p.types) (hp : p.Sound held) (arity : Nat)
    (howner : owner.index < p.types.size) : Records (constructors ++ [⟨owner, definition, p⟩])
      (p.addMethod owner (constructorName, arity) definition).types := by
  intro other
  rw [get_addMethod_constructor p arity definition howner]
  by_cases heq : other = owner
  · subst heq
    rw [if_pos rfl]
    exact (h other).constructor hp
  · rw [if_neg heq]
    exact (h other).of_ne (Ne.symm heq)

/-- A variable counts as assigned at the start if the class or one of its superclasses has
constructors and all of them assign it. -/
theorem isAssignedAtStart_iff (h : Records constructors p.types) :
    p.isAssignedAtStart owner name = true ↔
    ∃ ancestor ∈ p.types.genericOf owner :: p.types.ancestors (p.types.genericOf owner),
      (∃ c ∈ constructors, c.owner = ancestor) ∧ ∀ c ∈ constructors, c.owner = ancestor →
      c.Assigns name := by
  have hbase : p.isAssignedAtStart owner name =
      (p.types.genericOf owner :: p.types.ancestors (p.types.genericOf owner)).any fun id =>
        match (p.types.get id).assignedAtStart with
        | some names => name ∈ names
        | none => false := rfl
  rw [hbase, List.any_eq_true]
  refine exists_congr fun ancestor => and_congr_right fun _ => ?_
  have hrecord := h ancestor
  rw [← hrecord.isSome_iff]
  cases heq : (p.types.get ancestor).assignedAtStart with
  | none => simp
  | some names => simpa using hrecord.mem_iff names heq name

end Program

end TypeFlow
