import TypeFlow.Inference.Run
import TypeFlow.Proofs.Inference.Restored.Walk
import TypeFlow.Proofs.Types.Scopes

/-!
# Where the names of a method are looked up

A method is typed once for each receiver, in a frame whose scope is the type of that receiver, and
this stays the scope wherever the walk is in the method's body (`InMethod.scope_eq`). So a path in
the body means what it means seen from the receiver. That is what it means seen from the type that
defines the method if nothing in between gives its first name a meaning (`InMethod.resolves`), but a
constant of the receiver's own class hides one of the defining class.
-/

namespace TypeFlow
open Infer

/-- The states in which the body of a method is typed for a receiver of type `owner`: its frame has
been set up, steps that restore their context have been taken and regions of the body have been
entered. -/
inductive WalkState.InMethod (setting : Setting) (owner : TypeId) : WalkState → Prop where
  | start (s : WalkState) (vars : OrderedMap String NodeId) (result : NodeId)
      (block : Option ExprId) :
      InMethod setting owner
        (s.withFrame { vars, scope := some owner, result := some result, block })
  | step {α : Type} {x : Infer α} {s : WalkState} : InMethod setting owner s → Restores setting x →
      InMethod setting owner (x.outcome setting s).2
  | yieldTypes {s : WalkState} (types : List TypeId) : InMethod setting owner s →
      InMethod setting owner (s.withFrame { s.frame with yieldTypes := some types })
  | region {s : WalkState} (r : Region) : (∀ frame, r ≠ .own frame) → InMethod setting owner s →
      InMethod setting owner (s.withFrame (r.enter s.frame))

namespace Infer
variable {setting : Setting} {walk : Step}

/-- What a path does at an expression, once it is known what it means. -/
def useMeaning (walk : Step) (id : ExprId) (names : List String) : Option Named → Infer Unit
  | some (.type type) => do giveType id (← metaclassOf type)
  | some (.const const) => do
    evaluateConstant walk id const
    let p ← program
    deriveFrom id [p.nodeOf (p.constant const).value]
  | none => problemAt id (.uninitializedConstant names)

theorem outcome_walkPath (walk : Step) (id : ExprId) (names : List String) {s : WalkState}
    {owner : TypeId} (hscope : s.frame.scope = some owner) :
    (walkPath walk id names false).outcome setting s =
      (useMeaning walk id names
          (s.program.types.resolvePath (s.program.types.described owner) names)).outcome
        setting s := by
  have hname : nameScope.outcome setting s = (.ok (s.program.types.described owner), s) := by
    unfold nameScope
    rw [outcome_bind, outcome_frame]
    simp only [hscope]
    rw [outcome_bind, outcome_types]
    rfl
  unfold walkPath
  rw [outcome_bind, outcome_types]
  dsimp only
  rw [outcome_bind, hname]
  simp only [Bool.false_eq_true, if_false]
  rcases s.program.types.resolvePath (s.program.types.described owner) names with
    _ | (type | const) <;> rfl

end Infer

namespace WalkState.InMethod
variable {setting : Setting} {owner : TypeId} {m : WalkState}

theorem scope_eq (h : m.InMethod setting owner) : m.frame.scope = some owner := by
  induction h with
  | start => rfl
  | @step α x s _ hx ih => exact (hx.restored s).frame.scope.trans ih
  | yieldTypes _ _ ih => exact ih
  | region r hr _ ih =>
    cases r with
    | own frame => exact absurd rfl (hr frame)
    | guarded | inType | inLoop | block => exact ih

/-- A walk in the body ends in the body. -/
theorem walk (h : m.InMethod setting owner) (hdepth : setting.tools.KeepsDepth) (fuel : Nat)
    (id : ExprId) :
    ((Infer.walk fuel id).outcome setting m).2.InMethod setting owner :=
  h.step (restores_walk hdepth fuel id)

/-- What the method says it yields has been typed. -/
theorem typeYields (h : m.InMethod setting owner) (hdepth : setting.tools.KeepsDepth) (fuel : Nat)
    (blockParam : Option (BlockParam ExprId)) :
    ((Infer.typeYields (Infer.walk fuel) blockParam).outcome setting m).2.InMethod setting
      owner := by
  cases blockParam with
  | none => exact h
  | some blockParam =>
    have hinputs : Restores setting (blockParam.inputs.mapM fun input =>
        declaredType (Infer.walk fuel) input .blockInputUnknown) :=
      restores_mapM _ fun input => restores_declaredType (restores_walk hdepth fuel) input _
    have hm := h.step hinputs
    unfold Infer.typeYields
    rw [outcome_bind]
    rcases hout : (blockParam.inputs.mapM fun input =>
        declaredType (Infer.walk fuel) input .blockInputUnknown).outcome setting
          m with ⟨e | types, m'⟩ <;>
      rw [hout] at hm
    · exact hm
    · exact hm.yieldTypes types

/-- The body of a method is walked in a state of the method. -/
theorem body (h : m.InMethod setting owner) (hdepth : setting.tools.KeepsDepth) (fuel : Nat)
    (result : NodeId) (returnType : Option ExprId) (blockParam : Option (BlockParam ExprId))
    (copied : ExprId) {m' : WalkState} {copy : ExprId}
    (hdoes : (do fixResult (Infer.walk fuel) result returnType
                 Infer.typeYields (Infer.walk fuel) blockParam
                 updateProgram fun p => p.copyExpr copied : Infer ExprId).Does setting m copy m') :
    m'.InMethod setting owner := by
  obtain ⟨⟨⟩, m₁, hresult, hrest⟩ := does_bind.mp hdoes
  obtain ⟨⟨⟩, m₂, hyields, hcopy⟩ := does_bind.mp hrest
  have h₁ := h.step (restores_fixResult (restores_walk hdepth fuel) result returnType)
  rw [show (fixResult _ _ _).outcome _ _ = _ from hresult] at h₁
  have h₂ := h₁.typeYields hdepth fuel blockParam
  rw [show (Infer.typeYields _ _).outcome _ _ = _ from hyields] at h₂
  have h₃ := h₂.step (restores_copyExpr copied)
  rwa [show (updateProgram _).outcome _ _ = _ from hcopy] at h₃

/-- In the body of a method that is typed for a receiver, whether it was found in the receiver's own
class, above it or in the program, a path does what the receiver makes it mean. This is what the
defining type makes it mean wherever the receiver sees its first name as that type does. -/
theorem resolves (h : m.InMethod setting owner)
    (htypes : Types.Makings Types.initial m.program.types) (walk : Step) (id : ExprId)
    (name : String) (rest : List String) :
    (walkPath walk id (name :: rest) false).outcome setting m =
        (useMeaning walk id (name :: rest)
          (m.program.types.resolvePath owner (name :: rest))).outcome setting m ∧
      ∀ definer, m.program.types.SeesAs name owner definer →
        m.program.types.resolvePath owner (name :: rest) =
          m.program.types.resolvePath definer (name :: rest) := by
  have hf := htypes.founded
  refine ⟨?_, fun definer hsees => hf.resolvePath_eq hsees rest⟩
  rw [outcome_walkPath walk id _ h.scope_eq, hf.resolvePath_described]

/-- A class `A` with a constant `X`. -/
def withA : Types :=
  (Types.initial.declare .program "A" (plainClass .reference)).2.addConstant ⟨24⟩ "X" ⟨0⟩

/-- A class `B` below `A`. -/
def withInherited : Types := (withA.declare .program "B" (plainClass ⟨24⟩)).2

theorem makings_withInherited : Types.Makings Types.initial withInherited := by
  have hclass : ∀ (t : Types) (name : String) (parent : TypeId), TypeId.program.index < t.size →
      parent.index < t.size → (t.kind parent).isInheritable = true →
      Types.Making t
        (t.declare .program name (plainClass parent)).2 := fun t name parent hp hparent hi => by
    refine .declare name hp rfl (fun m hm => ?_) fun head p hk hhead => ?_
    · rwa [List.mem_singleton.mp hm]
    · cases hk; cases hhead; exact hi
  have hA :=
    hclass Types.initial "A" .reference (by decide +kernel) (by decide +kernel) (by decide +kernel)
  have hX : Types.Making _ withA := .addConstant ⟨24⟩ "X" ⟨0⟩
  have hB := hclass withA "B" ⟨24⟩ (by decide +kernel) (by decide +kernel) (by decide +kernel)
  exact ((Relation.ReflTransGen.single hA).tail hX).tail hB

/-- In a method of a receiver of class `B`. -/
def inB : WalkState :=
  WalkState.withFrame ⟨{ program := { Program.initial with types := withInherited } }, {}⟩
    { vars := .singleton "self" Program.nilNode, scope := some ⟨25⟩, result :=
      some Program.nilNode, block := none }

/-- `B` sees the `X` of `A`. -/
theorem resolves_inherited : inB.InMethod ⟨.standard, {}⟩ ⟨25⟩ ∧
    Types.Makings Types.initial inB.program.types ∧ inB.program.types.SeesAs "X" ⟨25⟩ ⟨24⟩ ∧
      (walkPath (Infer.walk 9) ⟨0⟩ ["X"] false).outcome ⟨.standard, {}⟩ inB =
        (useMeaning (Infer.walk 9) ⟨0⟩ ["X"] (some (.const ⟨0⟩))).outcome ⟨.standard, {}⟩ inB := by
  have hm : inB.InMethod ⟨.standard, {}⟩ ⟨25⟩ := .start ..
  have hsees : inB.program.types.SeesAs "X" ⟨25⟩ ⟨24⟩ := by
    have hclass : inB.program.types.kind ⟨25⟩ = plainClass ⟨24⟩ := by decide +kernel
    have hparent : inB.program.types.superclass ⟨25⟩ = some ⟨24⟩ := by decide +kernel
    have hmember : inB.program.types.member? ⟨24⟩ "X" ≠ none := by decide +kernel
    exact .superclass hclass (by decide +kernel) (by decide +kernel) hparent
      (.inl hmember) (.here _)
  obtain ⟨hpath, hdefiner⟩ := hm.resolves makings_withInherited (Infer.walk 9) ⟨0⟩ "X" []
  refine ⟨hm, makings_withInherited, hsees, ?_⟩
  have hA : inB.program.types.resolvePath ⟨24⟩ ["X"] = some (.const ⟨0⟩) := by decide +kernel
  rw [hpath, hdefiner ⟨24⟩ hsees, hA]

end WalkState.InMethod

/-- `class A; X = 1; def foo; X; end; end; class B < A; X = 'c'; end; B.new.foo`. -/
def shadowedConstant : Tree := .sequence
  [.classDef "A" none
    (some (.sequence [.assign (.path "X") (.int32 1), .methodDef "foo" [] (some (.path "X"))])),
    .classDef "B" (some (.path "A")) (some (.assign (.path "X") (.char 'c'))),
    .call (some (.call (some (.path "B")) "new" [])) "foo" []]

/-- The method is `A`'s, and in `A` its `X` is an `Int32`; the call finds the `X` of `B`. -/
theorem Session.hidden_shadowedConstant : ∃ inferred s',
    ({} : Session).infer ⟨.standard, {}⟩ shadowedConstant = (.ok inferred, s') ∧
    s'.program.types.findMethod ⟨26⟩ ("foo", 0) = some ⟨4⟩ ∧
    (s'.program.types.get ⟨24⟩).defs.get? ("foo", 0) = some ⟨4⟩ ∧
    s'.program.construct ⟨4⟩ = .methodDef none "foo" [] (some ⟨3⟩) none none ∧
    s'.program.construct ⟨3⟩ = .path ["X"] false ∧
    s'.program.types.resolvePath ⟨24⟩ ["X"] = some (.const ⟨0⟩) ∧
    s'.typeNameOf (s'.program.constant ⟨0⟩).value = some "Int32" ∧
    s'.typeNameOf ⟨14⟩ = some "Char" := by
  have hend : let r := ({} : Session).infer ⟨.standard, {}⟩ shadowedConstant
      r.1.isOk = true ∧ r.2.program.types.findMethod ⟨26⟩ ("foo", 0) = some ⟨4⟩ ∧
        (r.2.program.types.get ⟨24⟩).defs.get? ("foo", 0) = some ⟨4⟩ ∧
        r.2.program.construct ⟨4⟩ = .methodDef none "foo" [] (some ⟨3⟩) none none ∧
        r.2.program.construct ⟨3⟩ = .path ["X"] false ∧
        r.2.program.types.resolvePath ⟨24⟩ ["X"] = some (.const ⟨0⟩) ∧
        r.2.typeNameOf (r.2.program.constant ⟨0⟩).value = some "Int32" ∧
        r.2.typeNameOf ⟨14⟩ = some "Char" := by
    decide +kernel
  obtain ⟨hok, hrest⟩ := hend
  rcases h : ({} : Session).infer ⟨.standard, {}⟩ shadowedConstant with ⟨_ | inferred, s'⟩ <;>
    rw [h] at hok hrest
  · cases hok
  · exact ⟨inferred, s', rfl, hrest⟩

end TypeFlow
