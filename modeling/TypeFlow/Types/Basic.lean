import TypeFlow.Types.Entry

/-!
# The table of types

Every type of a program is an entry of one table and is known by its position there. Entries are
only added and extended; a type never changes its kind, name or container.

Unions and instances of generic types are looked up by what they are made of in two caches beside
the entries, and the metaclass of a type stands in the entry of that type. Whatever is found there
has the kind that was looked for (`InStep`).
-/

namespace TypeFlow

/-! ### What is found again -/

abbrev UnionCache := OrderedMap (List TypeId) TypeId

abbrev InstanceCache := OrderedMap (TypeId × List TypeId) TypeId

def kindIn? (entries : Array TypeEntry) (id : TypeId) : Option TypeKind :=
  entries[id.index]?.map TypeEntry.kind

/-- What the caches have for some parts, and an entry for its metaclass, is a type of that kind. -/
structure InStep (entries : Array TypeEntry) (unions : UnionCache) (instances : InstanceCache) :
    Prop where
  union : ∀ members id, unions.get? members = some id → kindIn? entries id = some (.union members)
  applied : ∀ generic args id, instances.get? (generic, args) = some id →
    kindIn? entries id = some (.applied generic args)
  metaclass : ∀ (subject : TypeId) entry id, entries[subject.index]? = some entry →
    entry.metaclass = some id → kindIn? entries id = some (.metaclass subject)

namespace InStep
variable {entries : Array TypeEntry} {unions : UnionCache} {instances : InstanceCache}

theorem of_forall (h : ∀ e ∈ entries, e.metaclass = none) : InStep entries ∅ ∅ where
  union _ _ hid := nomatch hid
  applied _ _ _ hid := nomatch hid
  metaclass _ entry _ he hid := by rw [h entry (Array.mem_of_getElem? he)] at hid; cases hid

theorem kindIn?_push {id : TypeId} {kind : TypeKind} (entry : TypeEntry)
    (h : kindIn? entries id = some kind) : kindIn? (entries.push entry) id = some kind := by
  have hne : id.index ≠ entries.size := fun heq => by simp [kindIn?, heq] at h
  rwa [kindIn?, Array.getElem?_push, if_neg hne]

theorem push (h : InStep entries unions instances) {entry : TypeEntry}
    (hentry : entry.metaclass = none) : InStep (entries.push entry) unions instances where
  union members id hid := kindIn?_push entry (h.union members id hid)
  applied generic args id hid := kindIn?_push entry (h.applied generic args id hid)
  metaclass subject e id he hid := by
    rw [Array.getElem?_push] at he
    split at he
    · cases he; rw [hentry] at hid; cases hid
    · exact kindIn?_push entry (h.metaclass subject e id he hid)

theorem kindIn?_modify {f : TypeEntry → TypeEntry} (hf : ∀ e, (f e).kind = e.kind) (i : Nat)
    (id : TypeId) : kindIn? (entries.modify i f) id = kindIn? entries id := by
  rw [kindIn?, Array.getElem?_modify]
  split
  · subst i
    rw [kindIn?, Option.map_map]
    exact congrArg (Option.map · _) (funext hf)
  · rfl

theorem modify (h : InStep entries unions instances) {f : TypeEntry → TypeEntry}
    (hf : TypeEntry.Extends f) (i : Nat) : InStep (entries.modify i f) unions instances := by
  refine ⟨fun members id hid => ?_, fun generic args id hid => ?_, fun subject e id he hid => ?_⟩
  · rw [kindIn?_modify hf.kind]; exact h.union members id hid
  · rw [kindIn?_modify hf.kind]; exact h.applied generic args id hid
  · rw [kindIn?_modify hf.kind]
    rw [Array.getElem?_modify] at he
    split at he
    · obtain ⟨e', he', rfl⟩ := Option.map_eq_some_iff.mp he
      exact h.metaclass subject e' id he' ((hf.metaclass e').symm.trans hid)
    · exact h.metaclass subject e id he hid

theorem setMetaclass (h : InStep entries unions instances) {subject id : TypeId}
    (hid : kindIn? entries id = some (.metaclass subject)) :
    InStep (entries.modify subject.index fun e => { e with metaclass := some id }) unions
      instances := by
  have hkind : ∀ other,
      kindIn? (entries.modify subject.index fun e => { e with metaclass := some id }) other =
        kindIn? entries other := by
    refine kindIn?_modify ?_ subject.index
    exact fun _ => rfl
  refine ⟨fun members other ho => ?_, fun generic args other ho => ?_,
    fun other e found he hfound => ?_⟩
  · rw [hkind]; exact h.union members other ho
  · rw [hkind]; exact h.applied generic args other ho
  · rw [hkind]
    rw [Array.getElem?_modify] at he
    split at he
    · rename_i heq
      obtain ⟨e', -, rfl⟩ := Option.map_eq_some_iff.mp he
      cases hfound; cases subject; cases other; cases heq
      exact hid
    · exact h.metaclass other e found he hfound

theorem insertUnion (h : InStep entries unions instances) {members : List TypeId} {id : TypeId}
    (hid : kindIn? entries id = some (.union members)) :
    InStep entries (unions.insert members id) instances := by
  refine ⟨fun members' other ho => ?_, h.applied, h.metaclass⟩
  rw [OrderedMap.get?_insert] at ho
  split at ho
  · cases ho; subst members'; exact hid
  · exact h.union members' other ho

theorem insertInstance (h : InStep entries unions instances) {generic id : TypeId}
    {args : List TypeId} (hid : kindIn? entries id = some (.applied generic args)) :
    InStep entries unions (instances.insert (generic, args) id) := by
  refine ⟨h.union, fun generic' args' other ho => ?_, h.metaclass⟩
  rw [OrderedMap.get?_insert] at ho
  split at ho
  · rename_i heq
    cases ho; cases heq; exact hid
  · exact h.applied generic' args' other ho

end InStep

structure Types where
  entries : Array TypeEntry
  /-- The unions, by their members. -/
  unions : UnionCache := ∅
  /-- The instances of generic types, by these and the arguments. -/
  instances : InstanceCache := ∅
  inStep : InStep entries unions instances

namespace Types

def size (t : Types) : Nat := t.entries.size

def get (t : Types) (id : TypeId) : TypeEntry := t.entries[id.index]?.getD default

def kind (t : Types) (id : TypeId) : TypeKind := (t.get id).kind

/-- The metaclass of a type, if it was asked for before. -/
def metaclass? (t : Types) (id : TypeId) : Option TypeId := (t.get id).metaclass

def modify (t : Types) (id : TypeId) (f : TypeEntry → TypeEntry)
    (hf : TypeEntry.Extends f := by exact ⟨fun _ => rfl, fun _ => rfl⟩) : Types :=
  { t with entries := t.entries.modify id.index f, inStep := t.inStep.modify hf id.index }

/-- Adds an entry without naming it anywhere, or remembering it. -/
def push (t : Types) (name : String) (container : Option TypeId) (kind : TypeKind) :
    TypeId × Types :=
  (⟨t.size⟩, { t with
    entries := t.entries.push { name, container, kind }
    inStep := t.inStep.push rfl })

theorem kindIn?_push (t : Types) (name : String) (container : Option TypeId) (kind : TypeKind) :
    kindIn? (t.push name container kind).2.entries (t.push name container kind).1 = some kind := by
  simp [kindIn?, push, size]

/-! ### Declarations -/

def setName (t : Types) (container : TypeId) (name : String) (entry : Named) : Types :=
  t.modify container fun e => { e with types := e.types.insert name entry }

/-- Declares a type inside another. -/
def declare (t : Types) (container : TypeId) (name : String) (kind : TypeKind) :
    TypeId × Types :=
  let (id, t) := t.push name (some container) kind
  (id, t.setName container name (.type id))

def addConstant (t : Types) (container : TypeId) (name : String) (id : ConstantId) : Types :=
  t.setName container name (.const id)

def addMethod (t : Types) (owner : TypeId) (key : MethodKey) (definition : ExprId) : Types :=
  t.modify owner fun e => { e with defs := e.defs.insert key definition }

def addMacroDef (t : Types) (owner : TypeId) (key : MethodKey) (definition : ExprId) : Types :=
  t.modify owner fun e => { e with macros := e.macros.insert key definition }

def addFun (t : Types) (owner : TypeId) (name : String) (signature : Signature) : Types :=
  t.modify owner fun e => { e with funs := e.funs.insert name signature }

/-- Includes a module; an inclusion that is there already is not repeated. -/
def includeModule (t : Types) (owner : TypeId) (inclusion : Inclusion) : Types :=
  t.modify owner
    (fun e =>
      if e.includes.any inclusion.agrees then e
      else { e with includes := e.includes ++ [inclusion] })
    ⟨fun e => by split <;> rfl, fun e => by split <;> rfl⟩

end Types

end TypeFlow
