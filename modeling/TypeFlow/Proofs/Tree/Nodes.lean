import TypeFlow.Proofs.Tree.Parts

/-!
# The nodes of a tree

`Tree.nodes` lists a tree with all that it consists of, parts before what they are parts of; a tree
without sugar has one expression for each. The laws of `traverse` say that a construct is what
stands in the places of its parts and nothing else: what a traversal finds can be mapped afterwards
(`map_traverse`), and forgotten (`traverse_const`).
-/

namespace TypeFlow

/-- Puts the image of the type in its place. -/
def Field.map {α β : Type} (f : α → β) (field : Field α) : Field β :=
  ⟨field.name, f field.type, field.pointers⟩

namespace Construct
variable {α β γ : Type}

/-- Puts the images of the parts in their places. -/
def map (f : α → β) (c : Construct α) : Construct β := Id.run (c.traverse fun a => pure (f a))

/-- Without what is of no use to inference: whether a loop runs at least once, and what the block is
called in a method. -/
def stripped : Construct α → Construct α
  | loop cond body _ => loop cond body false
  | methodDef receiver name params body returnType (some blockParam) =>
    methodDef receiver name params body returnType (some { blockParam with name := "" })
  | c => c

section
variable {m : Type → Type} [Monad m]

theorem mapM_congr [LawfulMonad m] {f g : α → m β} {as : List α} (h : ∀ a ∈ as, f a = g a) :
    as.mapM f = as.mapM g := by
  induction as with
  | nil => rw [List.mapM_nil, List.mapM_nil]
  | cons a as ih =>
    rw [List.mapM_cons, List.mapM_cons, h a (by simp), ih fun b hb =>
      h b (List.mem_cons_of_mem _ hb)]

theorem mapM_option_congr {f g : α → m β} {o : Option α} (h : ∀ a ∈ o.toList, f a = g a) :
    o.mapM f = o.mapM g := by
  cases o with
  | none => rfl
  | some a => rw [Option.mapM_some, Option.mapM_some, h a (by simp)]

theorem traverseField_congr [LawfulMonad m] {f g : α → m β} {fields : List (Field α)}
    (h : ∀ a ∈ fields.map Field.type, f a = g a) :
    fields.mapM (traverseField f) = fields.mapM (traverseField g) :=
  mapM_congr fun field hf => by rw [traverseField, traverseField, h _ (List.mem_map_of_mem hf)]

/-- A traversal asks for the images of the parts only. -/
theorem traverse_congr [LawfulMonad m] {f g : α → m β} {c : Construct α}
    (h : ∀ a ∈ c.children, f a = g a) : c.traverse f = c.traverse g := by
  cases c with
  | methodDef receiver name params body returnType blockParam =>
    cases blockParam <;>
      simp only [children, List.mem_append, or_imp, forall_and] at h <;>
      simp only [traverse, mapM_option_congr h.1.1.1, mapM_option_congr h.1.1.2,
        mapM_option_congr h.1.2, mapM_congr h.2]
  | _ =>
    simp only [children, List.mem_append, List.mem_cons, List.not_mem_nil,
      or_false, or_imp, forall_and, forall_eq] at h
    simp (disch := simp_all) only [traverse, mapM_congr (f := f) (g := g),
      mapM_option_congr (f := f) (g := g),
      traverseField_congr (f := f) (g := g), h]

variable [LawfulMonad m]

theorem map_mapM (g : β → γ) (f : α → m β) (as : List α) :
    List.map g <$> as.mapM f = as.mapM fun a => g <$> f a := by
  induction as with
  | nil => simp
  | cons a as ih =>
    rw [List.mapM_cons, List.mapM_cons, ← ih]
    simp only [map_eq_pure_bind, bind_assoc, pure_bind, List.map_cons]

theorem map_mapM_option (g : β → γ) (f : α → m β) (o : Option α) :
    Option.map g <$> o.mapM f = o.mapM fun a => g <$> f a := by
  cases o <;> simp

theorem map_mapM_field (g : β → γ) (f : α → m β) (fields : List (Field α)) :
    List.map (Field.map g) <$> fields.mapM (traverseField f) =
      fields.mapM (traverseField fun a => g <$> f a) := by
  rw [map_mapM]
  congr 1; funext field
  simp only [traverseField, map_eq_pure_bind, bind_assoc, pure_bind, Field.map]

theorem mapM_option_pure (f : α → β) (o : Option α) :
    (o.mapM fun a => (pure (f a) : m β)) = pure (o.map f) := by
  cases o <;> simp

theorem mapM_field_pure (f : α → β) (fields : List (Field α)) :
    fields.mapM (traverseField fun a => (pure (f a) : m β)) = pure (fields.map (Field.map f)) := by
  rw [← List.mapM_pure]
  congr 1; funext field
  simp only [traverseField, pure_bind, Field.map]

/-- Mapping what a traversal puts in the places of the parts is mapping what it finds for them. -/
theorem map_traverse (g : β → γ) (f : α → m β) (c : Construct α) :
    map g <$> c.traverse f = c.traverse fun a => g <$> f a := by
  cases c with
  | nop | nilLiteral | boolLiteral | charLiteral | numberLiteral | stringLiteral
      | symbolLiteral | var
  | instanceVar | globalVar | path | enumDef | structGet | structSet | unionGet
      | unionSet | classOfSelf
  | allocate | pointerMalloc | pointerRealloc | pointerGetValue | pointerSetValue | pointerAdd
  | pointerCast => exact map_pure _ _
  | methodDef receiver name params body returnType blockParam =>
    cases blockParam <;>
    · simp only [traverse, ← map_mapM, ← map_mapM_option]
      simp only [map, traverse, List.mapM_pure, mapM_option_pure, map_eq_pure_bind,
        bind_assoc, pure_bind, Id.run_pure]
  | _ =>
    simp only [traverse, ← map_mapM, ← map_mapM_option, ← map_mapM_field]
    simp only [map, traverse, List.mapM_pure, mapM_option_pure, mapM_field_pure,
      map_eq_pure_bind, bind_assoc, pure_bind, Id.run_pure]

theorem mapM_const (f : α → m β) (as : List α) :
    (as.mapM fun a => (fun _ => a) <$> f a) = (fun _ => as) <$> as.mapM f := by
  induction as with
  | nil => simp
  | cons a as ih =>
    rw [List.mapM_cons, List.mapM_cons, ih]
    simp only [map_eq_pure_bind, bind_assoc, pure_bind]

theorem mapM_option_const (f : α → m β) (o : Option α) :
    (o.mapM fun a => (fun _ => a) <$> f a) = (fun _ => o) <$> o.mapM f := by
  cases o <;> simp

theorem mapM_field_const (f : α → m β) (fields : List (Field α)) :
    fields.mapM (traverseField fun a => (fun _ => a) <$> f a) =
      (fun _ => fields) <$> fields.mapM (traverseField f) := by
  rw [← mapM_const]
  congr 1; funext field
  simp only [traverseField, map_eq_pure_bind, bind_assoc, pure_bind]

/-- A traversal that keeps the parts and forgets what it finds for them. -/
theorem traverse_const (f : α → m β) (c : Construct α) :
    (c.traverse fun a => (fun _ => a) <$> f a) = (fun _ => c) <$> c.traverse f := by
  cases c with
  | nop | nilLiteral | boolLiteral | charLiteral | numberLiteral | stringLiteral
      | symbolLiteral | var
  | instanceVar | globalVar | path | enumDef | structGet | structSet | unionGet
      | unionSet | classOfSelf
  | allocate | pointerMalloc | pointerRealloc | pointerGetValue | pointerSetValue | pointerAdd
  | pointerCast => simp only [traverse, map_pure]
  | methodDef receiver name params body returnType blockParam =>
    cases blockParam <;>
    · simp only [traverse, mapM_const, mapM_option_const]
      simp only [map_eq_pure_bind, bind_assoc, pure_bind]
  | _ =>
    simp only [traverse, mapM_const, mapM_option_const, mapM_field_const]
    simp only [map_eq_pure_bind, bind_assoc, pure_bind]

/-- What is found for a part beside the part itself. -/
def paired (f : α → m β) (a : α) : m (α × β) := (fun b => (a, b)) <$> f a

theorem map_snd_paired (f : α → m β) (c : Construct α) :
    map Prod.snd <$> c.traverse (paired f) = c.traverse f := by
  rw [map_traverse]
  congr 1; funext a
  rw [paired, Functor.map_map]
  exact id_map _

/-- The parts stand where they stood. -/
theorem map_fst_paired (f : α → m β) (c : Construct α) :
    map Prod.fst <$> c.traverse (paired f) = (fun _ => c) <$> c.traverse f := by
  rw [map_traverse, ← traverse_const]
  congr 1; funext a
  rw [paired, Functor.map_map]

end

theorem map_congr {f g : α → β} {c : Construct α} (h : ∀ a ∈ c.children, f a = g a) :
    c.map f = c.map g :=
  congrArg Id.run (traverse_congr fun a ha => congrArg pure (h a ha))

theorem map_map (f : α → β) (g : β → γ) (c : Construct α) :
    (c.map f).map g = c.map fun a => g (f a) := by
  exact congrArg Id.run (map_traverse g (fun a => (pure (f a) : Id β)) c)

theorem children_map (f : α → β) (c : Construct α) : (c.map f).children = c.children.map f := by
  have h := congrArg Id.run (children_traverse (fun a => (pure (f a) : Id β)) c)
  rw [List.mapM_pure] at h
  exact h

theorem children_stripped (c : Construct α) : c.stripped.children = c.children := by
  cases c with
  | methodDef receiver name params body returnType blockParam => cases blockParam <;> rfl
  | _ => rfl

theorem stripped_stripped (c : Construct α) : c.stripped.stripped = c.stripped := by
  cases c with
  | methodDef receiver name params body returnType blockParam => cases blockParam <;> rfl
  | _ => rfl

theorem stripped_map (f : α → β) (c : Construct α) : (c.map f).stripped = c.stripped.map f := by
  cases c with
  | methodDef receiver name params body returnType blockParam => cases blockParam <;> rfl
  | _ => rfl

end Construct

namespace Tree

/-- The tree with all that it consists of, parts before what they are parts of. What sugar
abbreviates is not looked into. -/
def nodes : Tree → List Tree
  | .plain construct location =>
    (construct.children.attach.flatMap fun ⟨part, _⟩ => part.nodes) ++ [.plain construct location]
  | .sugar abbreviation location => [.sugar abbreviation location]
termination_by tree => sizeOf tree
decreasing_by
  have := Construct.sizeOf_lt_of_mem_children ‹_›
  rw [Tree.plain.sizeOf_spec]
  omega

theorem nodes_plain (construct : Construct Tree) (location : Option Location) :
    (plain construct location).nodes = construct.children.flatMap nodes ++
      [plain construct location] := by
  rw [nodes]
  simp

theorem length_nodes_lt {construct : Construct Tree} {part : Tree} (h : part ∈ construct.children)
    (location : Option Location) : part.nodes.length < (plain construct location).nodes.length := by
  obtain ⟨before, after, heq⟩ := List.append_of_mem h
  simp only [nodes_plain, heq, List.flatMap_append, List.flatMap_cons, List.length_append,
    List.length_singleton]
  omega

/-- The tree with each construct stripped. -/
def stripped : Tree → Tree
  | .plain construct location =>
    .plain (construct.stripped.map fun part =>
      if _ : part.nodes.length < (plain construct location).nodes.length then
        part.stripped else part) location
  | .sugar abbreviation location => .sugar abbreviation location
termination_by tree => tree.nodes.length

theorem stripped_plain (construct : Construct Tree) (location : Option Location) :
    (plain construct location).stripped = plain (construct.stripped.map stripped) location := by
  rw [stripped]
  congr 1
  refine Construct.map_congr fun part hpart => dif_pos ?_
  rw [Construct.children_stripped] at hpart
  exact length_nodes_lt hpart location

end Tree

end TypeFlow
