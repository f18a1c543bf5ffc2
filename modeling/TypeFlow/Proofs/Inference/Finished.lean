import TypeFlow.Proofs.Flow.Bottom
import TypeFlow.Proofs.Inference.Intact.Walk
import TypeFlow.Proofs.Inference.Selected
import TypeFlow.Tree.Builder

/-!
# The finished graph

All phases but the last leave the program intact (`intact_typed`), so that its network is orderly
when the last phase starts. The nodes that are sourced by then are justified for good
(`Session.infer_justified`). In the table that there is in the end, other nodes may derive another
type than they have, and so may those that compare with an included module
(`Session.unlawful_openEnds`).
-/

namespace TypeFlow

theorem Frame.Within.default {p : Program} {X : List NodeId} {L : List Duty} (h : p.Intact X L) :
    Frame.Within {} p where
  vars _ _ hn := nomatch hn
  result _ hn := nomatch hn
  scope _ ht := nomatch ht
  enclosing type ht := List.mem_singleton.mp ht ▸ h.whole.builtin_lt (by decide)
  guards := GuardStack.within_initial _

namespace WalkState.Intact
variable {s : WalkState} {X : List NodeId} {L : List Duty}

theorem start : WalkState.Intact [] [] ⟨{}, {}⟩ :=
  ⟨Program.intact_initial, .default Program.intact_initial, fun _ _ hn => (nomatch hn),
    fun _ _ hn => nomatch hn⟩

theorem topLevel (h : s.Intact X L) : WalkState.Intact X L ⟨s.session, {}⟩ :=
  h.withFrame (.default h.program)

end WalkState.Intact

namespace Session
variable {setting : Setting}

/-- Until the last phase programs stay intact, and in the end nothing is left to be done. -/
theorem intact_typed (htidy : setting.tools.Tidy) {tree : Tree} {s : Session}
    (h : ({} : Session).typed setting tree = (.ok (), s)) : s.program.Intact [] [] := by
  have hw := Infer.finishes_walk htidy Infer.depthBudget
  obtain ⟨root, s₁, hlower, hrest⟩ := Phase.ok_of_run_bind h
  obtain ⟨⟨⟩, s₂, hwalk, hconstants⟩ := Phase.ok_of_run_bind hrest
  -- each phase starts at the top level; the tree is all that there is to walk
  obtain ⟨f₁, hlower⟩ := Phase.does_of_run_ofStep hlower
  obtain ⟨-, -, h₁⟩ := (Infer.leaves_lowerTree .start tree).does root _ hlower
  obtain ⟨f₂, hwalk⟩ := Phase.does_of_run_ofStep hwalk
  obtain ⟨-, h₂, -⟩ := (hw _ _ _ root h₁.topLevel).does () _ hwalk
  unfold Phase.constants at hconstants
  split at hconstants
  · obtain ⟨f₃, hconstants⟩ := Phase.does_of_run_ofStep hconstants
    obtain ⟨-, h₃, -⟩ := (Infer.leaves_evaluateRemaining hw h₂.tail.topLevel).does () _ hconstants
    exact h₃.program
  · cases hconstants
    exact h₂.tail.program

/-- When a program has been inferred every node has a type. A node that was sourced before the last
phase has the type that it derives from those of its dependencies: in the present table, or in an
earlier one if it compares with an included module. -/
theorem infer_justified (htidy : setting.tools.Tidy) {tree : Tree} {inferred : Inferred}
    {s s' : Session} (hinfer : ({} : Session).infer setting tree = (.ok inferred, s'))
    (hs : (({} : Session).typed setting tree).2 = s) :
    (∀ id : NodeId, id.index < s'.program.graph.size → s'.program.graph.typeOf id ≠ none) ∧
      ∀ id, (s'.program.graph.node id).dependencies ≠ [] → s.program.toNetwork.Sourced id →
        ∃ t, s'.program.toNetwork.Justified id t ∧
          ((s'.program.graph.node id).derivation.targets = [] ∨ s'.program.toNetwork.Clear id →
            t = s'.program.types) := by
  obtain ⟨m, htyped, hsettled⟩ := settled_of_infer hinfer
  obtain rfl : m = s := (congrArg Prod.snd htyped).symm.trans hs
  rw [hsettled]
  have hp := intact_typed htidy htyped
  refine ⟨fun id hid => ?_, fun id hdeps hsourced => ?_⟩
  · have hlt : id.index < m.program.graph.size := by
      rwa [← FlowGraph.size_settleUntyped m.program.graph .noReturn]
    rw [show m.program.settleUntyped.2.graph = (m.program.graph.settleUntyped .noReturn).2 from rfl,
      FlowGraph.typeOf_settleUntyped_eq hlt]
    nofun
  · have hdeps : (m.program.graph.node id).dependencies ≠ [] :=
      m.program.toNetwork.dependencies_settled id ▸ hdeps
    exact hp.orderly.settled hdeps hsourced

/-- `a = 1; a = 'c'; if a.is_a?(Int32) a end`. -/
def narrowedRead : Tree := .sequence
  [.assign (.var "a") (.int32 1), .assign (.var "a") (.char 'c'),
    .conditional (.isA (.var "a") (.path "Int32")) (some (.var "a")) none]

/-- The node of the guarded read compares with `Int32`, which no type includes. -/
theorem infer_justified_narrowedRead : Toolchain.standard.Tidy ∧ ∃ inferred s',
    ({} : Session).infer ⟨.standard, {}⟩ narrowedRead = (.ok inferred, s') ∧ ∃ s,
    (({} : Session).typed ⟨.standard, {}⟩ narrowedRead).2 = s ∧
    (s'.program.graph.node ⟨14⟩).dependencies = [⟨13⟩] ∧
    (s'.program.graph.node ⟨14⟩).derivation.targets = [.int32] ∧
    (s'.program.graph.typeOf ⟨13⟩).map s'.program.types.name = some "Int32 | Char" ∧
    s'.program.graph.typeOf ⟨14⟩ = some .int32 ∧ (∃ d ∈ [⟨13⟩], s.program.graph.typeOf d ≠ none) ∧
    s'.program.toNetwork.Justified ⟨14⟩ s'.program.types := by
  have hok : (({} : Session).infer ⟨.standard, {}⟩ narrowedRead).1.isOk = true := by decide +kernel
  have hbefore :
      (({} : Session).typed ⟨.standard, {}⟩ narrowedRead).2.program.graph.typeOf ⟨13⟩ ≠ none ∧
      ((({} : Session).typed ⟨.standard, {}⟩ narrowedRead).2.program.graph.node ⟨14⟩).dependencies =
        [⟨13⟩] := by
    decide +kernel
  have hend : let p := (({} : Session).infer ⟨.standard, {}⟩ narrowedRead).2.program
      (p.graph.node ⟨14⟩).dependencies = [⟨13⟩] ∧
        (p.graph.node ⟨14⟩).derivation.targets = [.int32] ∧
      (p.graph.typeOf ⟨13⟩).map p.types.name = some "Int32 | Char" ∧
      p.graph.typeOf ⟨14⟩ = some .int32 ∧
      p.toNetwork.Clear ⟨14⟩ := by decide +kernel
  rcases h : ({} : Session).infer ⟨.standard, {}⟩ narrowedRead with ⟨_ | inferred, s'⟩ <;>
    rw [h] at hok hend
  · cases hok
  obtain ⟨hdeps, htargets, hread, hnarrowed, hclear⟩ := hend
  obtain ⟨-, hall⟩ := infer_justified Toolchain.tidy_standard h rfl
  obtain ⟨t, hjustified, hnow⟩ := hall ⟨14⟩ (by rw [hdeps]; nofun)
    (.inl ⟨⟨13⟩, by rw [hbefore.2]; exact List.mem_singleton.mpr rfl, hbefore.1⟩)
  obtain rfl := hnow (.inr hclear)
  exact ⟨Toolchain.tidy_standard, inferred, s', rfl, _, rfl, hdeps, htargets, hread, hnarrowed,
    ⟨⟨13⟩, List.mem_singleton.mpr rfl, hbefore.1⟩, hjustified⟩

/-- `def f : Int32 x end; f; typeof(y); module M end; class A end; a = A.allocate;`
`if a.is_a?(M) a end; class A include M end`. -/
def openEnds : Tree := .sequence
  [.bare (.methodDef none "f" [] (some (.var "x")) (some (.path "Int32")) none),
    .call none "f" [], .typeOf [.var "y"],
    .moduleDef "M" none none, .classDef "A" none none, .assign (.var "a")
      (.call (some (.path "A")) "allocate" []),
    .conditional (.isA (.var "a") (.path "M")) (some (.var "a")) none,
    .classDef "A" none (some (.includeModule (.path "M")))]

/-- The result of `f` has its declared type although nothing is returned; `typeof(y)` and the
guarded read of `a` have none until the last phase, when the metaclass of `NoReturn` and, as an `A`
is an `M` by then, `A` could have been derived. -/
theorem unlawful_openEnds : ∃ inferred s',
    ({} : Session).infer ⟨.standard, {}⟩ openEnds = (.ok inferred, s') ∧
    let g := s'.program.graph
    let t := s'.program.types
    ((g.node ⟨22⟩).dependencies = [⟨25⟩] ∧ g.typeOf ⟨22⟩ = some .int32 ∧
      (g.deriveIn ⟨22⟩ t).1 = some .noReturn) ∧
    ((g.node ⟨6⟩).dependencies = [⟨5⟩] ∧ g.typeOf ⟨6⟩ = some .noReturn ∧
      (g.deriveIn ⟨6⟩ t).1 = some (t.metaclassOf .noReturn).1 ∧
      (t.metaclassOf .noReturn).1 ≠ .noReturn) ∧
    (g.node ⟨30⟩).dependencies = [⟨29⟩] ∧ g.typeOf ⟨30⟩ = some .noReturn ∧
      (g.deriveIn ⟨30⟩ t).1 = g.typeOf ⟨29⟩ ∧ (g.typeOf ⟨29⟩).map t.name = some "A" := by
  have hok : (({} : Session).infer ⟨.standard, {}⟩ openEnds).1.isOk = true := by decide +kernel
  rcases h : ({} : Session).infer ⟨.standard, {}⟩ openEnds with ⟨_ | inferred, s'⟩
  · rw [h] at hok; cases hok
  refine ⟨inferred, s', rfl, ?_⟩
  rw [show s' = (({} : Session).infer ⟨.standard, {}⟩ openEnds).2 by rw [h]]
  decide +kernel

end Session

end TypeFlow
