import Mathlib.Data.Set.Insert
import TypeFlow.Proofs.Inference.Acts
import TypeFlow.Proofs.Program.Added

/-!
# The course of a run

A run of inference changes its state in small steps, each a `Change`: nothing that the walk does
goes beyond them, whether it succeeds or fails, and each says what holds where the walk makes it.
`Course tools s deeds s'`: such changes lead from `s` to `s'`, none with other tools than those, and
`deeds` tells of them in order, as far as others need to know.

In contrast to `Runs`, which brackets what is done inside of what, a course is linear: its states
are the moments that a run goes through.
-/

namespace TypeFlow

/-! ### Growing programs -/

namespace Program

/-- Expressions are added, whatever their parts are. -/
inductive Grows (p : Program) : Program → Prop where
  | refl : Grows p p
  | add {p' : Program} (construct : Construct ExprId) (location : Option Location) : Grows p p' →
      Grows p (p'.addExpr construct location).2

variable {p p' p'' : Program}

theorem Grows.trans (h : p.Grows p') (h' : p'.Grows p'') : p.Grows p'' := by
  induction h' with
  | refl => exact h
  | add construct location _ ih => exact .add construct location ih

theorem Adds.grows (h : p.Adds p') : p.Grows p' := by
  induction h with
  | refl => exact .refl
  | add location _ _ ih => exact .add _ location ih

theorem grows_mapM {f : ExprId → StateM Program ExprId} (hf : ∀ id p, Grows p ((f id).run p).2)
    (ids : List ExprId) (p : Program) : p.Grows ((ids.mapM f).run p).2 := by
  induction ids generalizing p with
  | nil => exact .refl
  | cons id ids ih =>
    rw [List.mapM_cons]
    exact (hf id p).trans (ih ((f id).run p).2)

theorem grows_copyWithin (fuel : Nat) (id : ExprId) (p : Program) :
    p.Grows ((copyWithin fuel id).run p).2 := by
  induction fuel generalizing id p with
  | zero => exact .refl
  | succ fuel ih =>
    have hparts := grows_mapM ih (p.expr id).construct.children p
    rw [← Construct.children_traverse, StateT.run_map] at hparts
    exact .add _ _ hparts

end Program

namespace Infer

/-! ### Changes -/

/-- What a change is remembered for. -/
inductive Deed where
  | begins (const : ConstantId)
  | ends (const : ConstantId)
  /-- An assignment stores what it proves with the slot of a variable. -/
  | stores (slot : NodeId) (guard : Option Guard)
  /-- A sequence loses the statements after one of its own. -/
  | drops (sequence statement : ExprId)
  | other
  deriving DecidableEq, Repr

/-- A single change of the state. -/
inductive Change (tools : Set Toolchain) : Deed → WalkState → WalkState → Prop where
  -- expressions
  | add (s : WalkState) (construct : Construct ExprId) (location : Option Location) :
      Change tools .other s (s.withProgram (s.program.addExpr construct location).2)
  | drop {s : WalkState} {id statement : ExprId} {items : List ExprId} {position : Nat} :
      s.program.construct id = .sequence items → items[position]? = some statement →
        position + 1 < items.length → s.program.typeOf statement = some .noReturn →
          Change tools (.drops id statement) s
            (s.withProgram (s.program.truncate id (position + 1)))
  -- nodes
  | addNode (s : WalkState) (derivation : Derivation) :
      Change tools .other s (s.withProgram (s.program.addNode derivation).2)
  | addValue (s : WalkState) (type : TypeId) : Change tools .other s
      (s.withProgram (s.program.addValue type).2)
  | breakNode {s : WalkState} {block : ExprId} : s.program.blockBreaks.get? block = none →
      Change tools .other s (s.withProgram { s.program.addVar.2 with
        blockBreaks := s.program.blockBreaks.insert block s.program.addVar.1 })
  | bind (s : WalkState) (node : NodeId) (deps : List NodeId) :
      Change tools .other s (s.withProgram (afterwards s.program (Binding.bind node deps)))
  | setType (s : WalkState) (node : NodeId) (type : TypeId) :
      Change tools .other s (s.withProgram (afterwards s.program (Binding.setType node type)))
  | freeze (s : WalkState) (node : NodeId) :
      Change tools .other s (s.withProgram (s.program.modifyGraph (·.freeze node)))
  | observe (s : WalkState) (node : NodeId) (call : ExprId) :
      Change tools .other s
        (s.withProgram (s.program.modifyGraph (·.addObserver node (.call call))))
  | unbind (s : WalkState) (node : NodeId) (deps : List NodeId) :
      Change tools .other s (s.withProgram (s.program.modifyGraph (·.unbind node deps)))
  | take {s : WalkState} {call : ExprId}
      {g : FlowGraph} : s.program.graph.nextCall? = some (call, g) →
      Change tools .other s (s.withProgram { s.program with graph := g })
  | settle (s : WalkState) : Change tools .other s (s.withProgram s.program.settleUntyped.2)
  -- guards
  | prove (s : WalkState) (id : ExprId) (guard : Option Guard) :
      Change tools .other s
        (s.withProgram (s.program.modifyGraph (·.setGuard (s.program.nodeOf id) guard)))
  | store {s : WalkState} {target value : ExprId} {name : String} {slot : NodeId} :
      s.program.construct target = .var name → s.frame.vars.get? name = some slot →
        Change tools (.stores slot (Guard.both (some (.notNil name)) (s.program.guardOf value))) s
          (s.withProgram (s.program.modifyGraph
            (·.setGuard slot (Guard.both (some (.notNil name)) (s.program.guardOf value)))))
  -- constants
  | declare {s : WalkState} {c : Constant} : c.state = .pending →
      Change tools .other s (s.withProgram (s.program.addConstant c))
  | begin {s : WalkState} {id : ConstantId} : (s.program.constant id).state = .pending →
      Change tools (.begins id) s (s.withProgram (s.program.beginConstant id))
  | finish {s : WalkState} {id : ConstantId} : s.program.evaluating.head? = some id →
      Change tools (.ends id) s (s.withProgram (s.program.endConstant id))
  -- what is recorded
  | types {s : WalkState} {t : Types} : Types.Act s.program.types t →
      Change tools .other s (s.withProgram { s.program with types := t })
  | method (s : WalkState) (owner : TypeId) (key : MethodKey) (definition : ExprId) :
      Change tools .other s
        (s.withProgram { s.program with types := (s.program.addMethod owner key definition).types })
  | instanceVar {s : WalkState} {owner : TypeId} {name : String} :
      (s.program.types.get owner).instanceVars.get? name = none →
        Change tools .other s
          (s.withProgram (s.program.addVar.2.modifyTypes fun t => t.modify owner fun e =>
          { e with instanceVars := e.instanceVars.insert name s.program.addVar.1 }))
  | global (s : WalkState) (name : String) (node : NodeId) :
      Change tools .other s
        (s.withProgram { s.program with globals := s.program.globals.insert name node })
  | note {s : WalkState} {p : Program} : Program.Note s.program p →
      Change tools .other s (s.withProgram p)
  | scope (s : WalkState) (call : ExprId) (scope : TypeId) :
      Change tools .other s (s.withProgram (s.program.noteScope call scope))
  -- beside the program
  | frame (s : WalkState) (f : Frame) : Change tools .other s (s.withFrame f)
  | memo (s : WalkState) (m : CallMemo) : Change tools .other s (s.withMemo m)
  | journal (s : WalkState) (j : Journal) : Change tools .other s { s with session :=
      { s.session with journal := j } }
  | expander {used : Toolchain} (s : WalkState) (key : ExpanderKey) : used ∈ tools →
      Change tools .other s { s with session := { s.session with
        expanders :=
          s.session.expanders.insert key (used.buildExpander s.program key.definition) } }

/-- Changes one after the other, the first deed first. -/
inductive Course (tools : Set Toolchain) : WalkState → List Deed → WalkState → Prop where
  | nil (s : WalkState) : Course tools s [] s
  | cons {s s' s'' : WalkState} {deed : Deed} {deeds : List Deed} : Change tools deed s s' →
      Course tools s' deeds s'' →
      Course tools s (deed :: deeds) s''

/-! ### What stays -/

/-- Nothing goes away but statements of sequences. -/
theorem Change.later {tools : Set Toolchain} {deed : Deed} {s s' : WalkState}
    (h : Change tools deed s s') : s.program.Later s'.program := by
  cases h with
  | add => exact Program.later_addExpr ..
  | drop => exact Program.later_truncate ..
  | addNode _ derivation =>
    exact .of_exprs rfl (s.program.graph.keepsNodes_addNode derivation).size_le (.refl _)
  | addValue _ type =>
    exact .of_exprs rfl (s.program.graph.keepsNodes_addTyped type).size_le (.refl _)
  | breakNode =>
    exact .of_exprs rfl (s.program.graph.keepsNodes_addNode .identity).size_le (.refl _)
  | bind _ node deps =>
    have hext := Network.Extends.outcome_bindNode s.program.toNetwork node deps
    have hsize := hext.size.trans (FlowGraph.size_link ..)
    exact Program.later_of_network _ (Nat.le_of_eq hsize.symm) hext.types.keepsKinds
  | setType _ node type =>
    have hext := Network.Extends.keeps_setType s.program.toNetwork node type _ (.refl _)
    exact Program.later_of_network _ (Nat.le_of_eq hext.size.symm) hext.types.keepsKinds
  | freeze | observe | prove | store =>
    exact .of_exprs rfl (Nat.le_of_eq (FlowGraph.size_modify ..).symm) (.refl _)
  | unbind => exact .of_exprs rfl (Nat.le_of_eq (FlowGraph.size_unbind ..).symm) (.refl _)
  | take hnext =>
    obtain ⟨rest, -, rfl⟩ := FlowGraph.nextCall?_eq_some hnext
    exact .of_exprs rfl (Nat.le_refl _) (.refl _)
  | settle => exact .of_exprs rfl (Nat.le_of_eq (FlowGraph.size_settleUntyped ..).symm) (.refl _)
  | declare => exact .of_exprs rfl (Nat.le_refl _) (Types.keepsKinds_setName ..)
  | types hact => exact .of_exprs rfl (Nat.le_refl _) hact.keepsVars.toKeepsKinds
  | method => exact .of_exprs rfl (Nat.le_refl _) (Program.keepsVars_addMethod ..).toKeepsKinds
  | instanceVar =>
    refine .of_exprs rfl (s.program.graph.keepsNodes_addNode .identity).size_le
      (Types.keepsKinds_modify ?_ _ _)
    exact ⟨fun _ => rfl, fun _ => rfl⟩
  | note hnote => cases hnote <;> exact .of_exprs rfl (Nat.le_refl _) (.refl _)
  | _ => exact .of_exprs rfl (Nat.le_refl _) (.refl _)

/-- It does not matter which other tools might have been used. -/
theorem Change.mono {tools tools' : Set Toolchain} {deed : Deed} {s s' : WalkState}
    (h : Change tools deed s s') (hsub : tools ⊆ tools') : Change tools' deed s s' := by
  cases h with
  | drop hc hstatement hlt hnever => exact .drop hc hstatement hlt hnever
  | take hnext => exact .take hnext
  | store htarget hslot => exact .store htarget hslot
  | declare hstate => exact .declare hstate
  | begin hstate => exact .begin hstate
  | finish hhead => exact .finish hhead
  | types hact => exact .types hact
  | note hnote => exact .note hnote
  | expander _ key hused => exact .expander s key (hsub hused)
  | add => exact .add ..
  | addNode => exact .addNode ..
  | addValue => exact .addValue ..
  | breakNode hnone => exact .breakNode hnone
  | bind => exact .bind ..
  | setType => exact .setType ..
  | freeze => exact .freeze ..
  | observe => exact .observe ..
  | unbind => exact .unbind ..
  | settle => exact .settle ..
  | prove => exact .prove ..
  | method => exact .method ..
  | instanceVar hnone => exact .instanceVar hnone
  | global => exact .global ..
  | scope => exact .scope ..
  | frame => exact .frame ..
  | memo => exact .memo ..
  | journal => exact .journal ..

namespace Course
variable {tools : Set Toolchain} {s s' s'' : WalkState} {deed : Deed} {deeds deeds' : List Deed}

theorem single (h : Change tools deed s s') : Course tools s [deed] s' := .cons h (.nil s')

theorem append (h : Course tools s deeds s') (h' : Course tools s' deeds' s'') :
    Course tools s (deeds ++ deeds') s'' := by
  induction h with
  | nil => exact h'
  | cons hc _ ih => exact .cons hc (ih h')

theorem mono {tools' : Set Toolchain} (h : Course tools s deeds s') (hsub : tools ⊆ tools') :
    Course tools' s deeds s' := by
  induction h with
  | nil => exact .nil _
  | cons hc _ ih => exact .cons (hc.mono hsub) ih

theorem later (h : Course tools s deeds s') : s.program.Later s'.program := by
  induction h with
  | nil => exact .refl _
  | cons hc _ ih => exact hc.later.trans ih

/-- Each deed was done at a moment on the way. -/
theorem exists_of_append {more : List Deed} (h : Course tools s (deeds ++ deed :: more) s'') :
    ∃ m m', Course tools s deeds m ∧ Change tools deed m m' ∧ Course tools m' more s'' := by
  induction deeds generalizing s with
  | nil =>
    cases h with
    | cons hc h => exact ⟨s, _, .nil s, hc, h⟩
  | cons first rest ih =>
    cases h with
    | cons hc h =>
      obtain ⟨m, m', hm, hdeed, hmore⟩ := ih h
      exact ⟨m, m', .cons hc hm, hdeed, hmore⟩

end Course

/-! ### Several changes at once -/

section
variable {tools : Set Toolchain} {s : WalkState}

theorem course_grows {p : Program} (h : s.program.Grows p) :
    (∃ deeds, Course tools s deeds (s.withProgram p)) ∧
    p.evaluating = s.program.evaluating := by
  induction h with
  | refl => exact ⟨⟨[], .nil s⟩, rfl⟩
  | @add p construct location _ ih =>
    obtain ⟨⟨deeds, hcourse⟩, he⟩ := ih
    exact ⟨⟨deeds ++ [.other],
      hcourse.append (.single (.add (s.withProgram p) construct location))⟩, he⟩

theorem course_types {t : Types} (h : Relation.ReflTransGen Types.Act s.program.types t) :
    ∃ deeds, Course tools s deeds (s.withProgram { s.program with types := t }) := by
  induction h with
  | refl => exact ⟨[], .nil s⟩
  | @tail t t' _ hact ih =>
    obtain ⟨deeds, hcourse⟩ := ih
    have hlast : Change tools .other (s.withProgram { s.program with types := t })
        (s.withProgram { s.program with types := t' }) := .types hact
    exact ⟨deeds ++ [.other], hcourse.append (.single hlast)⟩

end

end Infer

end TypeFlow
