import TypeFlow.Proofs.Flow.Joined
import TypeFlow.Proofs.Inference.Composed.Constructs
import TypeFlow.Proofs.Inference.Onward
import TypeFlow.Proofs.Inference.Running

/-!
# Variables whose type is declared

A declaration binds the slot of a variable to one more node, which gives the type that is declared,
and freezes it. So the slot has the join of this type and of the types of what it depends on
already, for good (`Running.declaresVar`). It is the declared type where nothing of another type has
been assigned.
-/

namespace TypeFlow
open WalkState

namespace WalkState
variable {s : WalkState} {name : String} {type frozen : TypeId} {slot : NodeId}

/-- Nothing has been assigned to the variable, or it has the type already. -/
def Suits (s : WalkState) (name : String) (type : TypeId) : Prop :=
  ∀ slot, s.frame.vars.get? name = some slot →
    (s.program.graph.node slot).dependencies = [] ∨ s.program.graph.typeOf slot = some type

/-- The slot, which is bound to something of the first type, is frozen at the second. -/
structure Ascribes (type : TypeId) (slot : NodeId) (frozen : TypeId) (s : WalkState) : Prop where
  input : type ∈ s.program.inputTypes slot
  join : (s.program.types.join (s.program.inputTypes slot)).1 = some frozen
  fixed : Fixed slot frozen s

end WalkState

namespace Infer
variable {setting : Setting} {walk : Step} {s s' : WalkState}

theorem outcome_addValue (type : TypeId) :
    (addValue type).outcome setting s =
      (.ok (s.program.addValue type).1, s.withProgram (s.program.addValue type).2) := rfl

/-- The slot of a variable that is new has just been added. -/
theorem localVar_cases {name : String} {slot : NodeId}
    (hd : (localVar name).Does setting s slot s') :
    (s.frame.vars.get? name = some slot ∧ s' = s) ∨
      (s.frame.vars.get? name = none ∧ slot = ⟨s.program.graph.size⟩ ∧
        s'.program = s.program.addVar.2) := by
  unfold localVar at hd
  rw [does_bind_of_ok outcome_frame] at hd
  split at hd
  · rename_i hslot
    obtain ⟨rfl, rfl⟩ := does_pure.mp hd
    exact .inl ⟨hslot, rfl⟩
  · rename_i hnone
    rw [does_bind_of_ok outcome_addVar, does_bind_of_ok (outcome_modifyFrame _)] at hd
    obtain ⟨rfl, rfl⟩ := does_pure.mp hd
    exact .inr ⟨hnone, rfl, rfl⟩

theorem does_walkDeclareVar {id typeExpr : ExprId} {name : String}
    (hd : (walkDeclareVar walk id name typeExpr).Does setting s () s') :
    ∃ type mid slot s₁ s₂, (denotedType walk typeExpr).Does setting s type mid ∧
      (localVar name).Does setting (mid.withProgram (mid.program.addValue type).2) slot s₁ ∧
      (bind slot [(mid.program.addValue type).1]).Does setting s₁ () s₂ ∧
      (deriveFrom id [slot]).Does setting (s₂.withProgram (s₂.program.modifyGraph (·.freeze slot)))
        () s' := by
  obtain ⟨type, mid, htype, hd⟩ := does_bind.mp hd
  rw [does_bind_of_ok (outcome_addValue type)] at hd
  obtain ⟨slot, s₁, hslot, hd⟩ := does_bind.mp hd
  obtain ⟨⟨⟩, s₂, hbind, hd⟩ := does_bind.mp hd
  rw [does_bind_of_ok (outcome_modifyGraph _)] at hd
  exact ⟨type, mid, slot, s₁, s₂, htype, hslot, hbind, hd⟩

end Infer

namespace WalkState.Running
open Infer
variable {setting : Setting} {m m' mid s s' : WalkState} {L : List Duty} {name : String}
  {type : TypeId} {slot : NodeId}
  {id : ExprId}

theorem addValue (h : s.Running L) (ht : InTable type s) :
    (s.withProgram (s.program.addValue type).2).Running L ∧
    s.Onward (s.withProgram (s.program.addValue type).2) := by
  have hgoes : Goes ⟨.standard, {}⟩ none s (Infer.addValue type) _ :=
    goes_addValue h.reached.ready type
  have hd : (Infer.addValue type).Does ⟨.standard, {}⟩ s _ _ := outcome_addValue type
  exact ⟨(h.does hgoes (upholds_addValue type).proceeds (leaves_addValue h.intact ht) hd).1,
    .of_goes hgoes hd⟩

theorem localVar (h : s.Running L) (hd : (Infer.localVar name).Does setting s slot s') :
    s'.Running L ∧ s.Onward s' ∧ s'.program.Spare slot ∧ s'.Joining slot := by
  have hgoes : Goes setting none s (Infer.localVar name) _ := goes_localVar h.reached.ready name
  have hjoining := (upholds_localVar name).does h.proper slot s' hd
  obtain ⟨hs', hspare⟩ :=
    h.does hgoes (upholds_localVar name).proceeds (leaves_localVar h.intact name) hd
  exact ⟨hs', .of_goes hgoes hd, hspare, hjoining⟩

theorem bind (h : s.Running L) {deps : List NodeId} (hspare : s.program.Spare slot)
    (hloose : s.Loose slot) (hdeps : ∀ d ∈ deps, d.index < s.program.graph.size)
    (hd : (Infer.bind slot deps).Does setting s () s') :
    s'.Running L ∧ s.Onward s' := by
  have hgoes : Runnable setting none s (Infer.bind slot deps) := runnable_bind hspare.toSlot deps
  exact ⟨(h.does hgoes (proceeds_bind hloose deps) (leaves_bind h.intact hspare hdeps) hd).1,
    .of_goes hgoes hd⟩

/-- A node of the declared type is added, and the slot of the variable, if it has none yet. -/
theorem slotFor (h : mid.Running L)
    (hd : (Infer.localVar name).Does setting
      (mid.withProgram (mid.program.addValue type).2) slot s) :
    s.program.graph.Gives type ⟨mid.program.graph.size⟩ ∧
      (⟨mid.program.graph.size⟩ : NodeId) ≠ slot ∧
      (mid.Suits name type → (s.program.graph.node slot).dependencies = [] ∨
        s.program.graph.typeOf slot = some type) ∧
      ∀ before, mid.frame.vars.get? name = some before →
        before = slot ∧ (s.program.graph.node slot).dependencies =
          (mid.program.graph.node slot).dependencies := by
  have hgives := FlowGraph.gives_addTyped mid.program.graph type
  rcases localVar_cases hd with ⟨hslot, rfl⟩ | ⟨hnone, rfl, hprogram⟩
  · have hlt : slot.index < mid.program.graph.size := (h.intact.var_spare hslot).lt
    obtain ⟨htype, hdeps, -⟩ :=
      (FlowGraph.keepsNodes_addTyped mid.program.graph type).nodes slot hlt
    refine ⟨hgives, fun heq => ?_, fun hsuits => (hsuits slot hslot).imp hdeps.trans htype.trans,
      fun before hbefore => ?_⟩
    · exact Nat.lt_irrefl _ (heq ▸ hlt)
    · exact ⟨Option.some.inj (hbefore.symm.trans hslot), hdeps⟩
  · have hnodes := FlowGraph.keepsNodes_addNode (mid.program.addValue type).2.graph .identity
    have hgraph : s.program.graph = ((mid.program.addValue type).2.graph.addNode .identity).2 :=
      congrArg (·.graph) hprogram
    rw [hgraph]
    refine ⟨hnodes.gives hgives, fun heq => ?_, fun _ => .inl ?_, fun before hbefore => ?_⟩
    · have hsize : (mid.program.addValue type).2.graph.size = mid.program.graph.size + 1 :=
        Array.size_push ..
      have hindex : mid.program.graph.size = (mid.program.addValue type).2.graph.size :=
        congrArg NodeId.index heq
      omega
    · show (((mid.program.addValue type).2.graph.addNode .identity).2.node
        ⟨(mid.program.addValue type).2.graph.size⟩).dependencies = []
      rw [FlowGraph.node_addNode, if_pos rfl]
    · rw [show mid.frame.vars.get? name = none from hnone] at hbefore
      cases hbefore

/-- The slot is bound to a node that gives the declared type, and is frozen. -/
theorem ascribes {bound : WalkState} (h : s.Running L) {node : NodeId}
    (hspare : s.program.Spare slot) (hjoining : s.Joining slot)
    (hgives : s.program.graph.Gives type node) (hne : node ≠ slot)
    (hd : (Infer.bind slot [node]).Does setting s () s')
    (hbound : bound = s'.withProgram (s'.program.modifyGraph (·.freeze slot))) :
    s.Onward bound ∧
      (∀ d ∈ (s.program.graph.node slot).dependencies,
        d ∈ (bound.program.graph.node slot).dependencies) ∧
      ∃ frozen, bound.Ascribes type slot frozen ∧
        ((s.program.graph.node slot).dependencies = [] ∨ s.program.graph.typeOf slot = some type →
          frozen = type) := by
  obtain ⟨hs', honward⟩ :=
    h.bind hspare hjoining.toLoose (fun d hd => List.mem_singleton.mp hd ▸ hgives.lt) hd
  have hfreeze : Runs setting none true s' bound := hbound ▸ .act (.touch (.freeze _ slot))
  obtain ⟨n, hbind, hs'eq⟩ := does_onNetwork.mp hd
  obtain rfl : n = s'.program.toNetwork := by rw [hs'eq]; rfl
  have horderly : s.program.toNetwork.Orderly [] := h.intact.program.orderly
  obtain ⟨hinput, htype⟩ :=
    Binding.joins_bind horderly hspare.lt hjoining.derivation hgives hne hbind
  have hcanonical := hs'.intact.program.orderly.linked.whole.toSolid.canonical
  obtain ⟨frozen, hfrozen⟩ : ∃ frozen, s'.program.graph.typeOf slot = some frozen :=
    Option.ne_none_iff_exists'.mp fun hnone =>
      List.ne_nil_of_mem hinput (hcanonical.join_eq_none_iff.mp (htype.symm.trans hnone))
  have hdeps : (bound.program.graph.node slot).dependencies =
      (s'.program.graph.node slot).dependencies := by
    rw [hbound]
    exact FlowGraph.modify_field FlowNode.dependencies fun _ => rfl
  have hinputs : bound.program.inputTypes slot = s'.program.inputTypes slot :=
    Network.inputTypes_congr hdeps fun d => by
      rw [hbound]; exact FlowGraph.modify_field FlowNode.type fun _ => rfl
  refine ⟨.runs honward hfreeze, fun d hd => ?_, frozen,
    ⟨hinputs ▸ hinput, ?_, hbound ▸ fixed_freeze hfrozen⟩, ?_⟩
  · have hext := Network.Extends.outcome_bindNode s.program.toNetwork slot [node]
    rw [show (Binding.bind slot [node]).outcome _ = _ from hbind] at hext
    rw [hdeps, hext.dependencies]
    exact (FlowGraph.mem_dependencies_link [node]).mpr (.inl hd)
  · rw [hinputs, hbound]
    exact htype.symm.trans hfrozen
  rintro (hvacant | htyped)
  · have hpasses := (Binding.passes_bind hspare.lt hvacant hjoining.derivation hne hgives hbind).2
    exact Option.some.inj (hfrozen.symm.trans hpasses)
  · have hlawful := (horderly.steady slot).resolve_right nofun
    have hkept :=
      Binding.typeOf_bind_of_typed horderly.linked hlawful hjoining.derivation
        htyped hgives.typed hbind
    exact Option.some.inj (hfrozen.symm.trans hkept)

/-- When a declaration has been walked, the slot of the variable has the join of the declared type
and of the types of what has been assigned to it. It is frozen, so that it keeps this type in every
state that follows. -/
theorem declaresVar (h : m.Running (.whole id :: L)) (htidy : setting.tools.Tidy)
    {typeExpr : ExprId} {fuel : Nat} (hc : m.program.construct id = .declareVar name typeExpr)
    (hd : (Infer.walk (fuel + 1) id).Does setting m () m') :
    ∃ (type : TypeId) (mid bound : WalkState) (slot : NodeId) (frozen : TypeId),
      (denotedType (Infer.walk fuel) typeExpr).Does setting m type mid ∧
      mid.Onward bound ∧ bound.Onward m' ∧ bound.Ascribes type slot frozen ∧
      (∀ before, mid.frame.vars.get? name = some before → before = slot ∧
        ∀ d ∈ (mid.program.graph.node slot).dependencies,
          d ∈ (bound.program.graph.node slot).dependencies) ∧
      (mid.Suits name type → frozen = type) ∧ m'.frame.vars.get? name = some slot ∧
      ∀ s, m'.Onward s → s.program.graph.typeOf slot = some frozen := by
  have hw := walks_walk htidy fuel
  obtain ⟨m₁, hconstruct, hresolve⟩ := does_walk_succ hd
  rw [hc] at hconstruct
  obtain ⟨type, mid, slot, s₁, s₂, htype, hlocal, hbind, hderive⟩ := does_walkDeclareVar hconstruct
  have hparts : m.Intact [] (.single id :: .whole typeExpr :: L) := by
    have hparts := h.intact.parts fun _ _ => by rw [hc]; nofun
    rwa [hc] at hparts
  have hready := h.reached.ready
  have hgoes :=
    runnable_denotedType hw hready (hready.parts hc typeExpr (by simp [Construct.children]))
  obtain ⟨hmid, htable⟩ :=
    (h.duties hparts).does hgoes (proceeds_denotedType (proceeds_walk htidy fuel) typeExpr)
    (leaves_denotedPart (finishes_walk htidy fuel) hparts) htype
  obtain ⟨hvalue, honward⟩ := hmid.addValue htable
  obtain ⟨hs₁, honward₁, hspare, hjoining⟩ := hvalue.localVar hlocal
  obtain ⟨hgives, hne, hsuits, hbefore⟩ := hmid.slotFor hlocal
  obtain ⟨bound, hboundeq⟩ : ∃ bound, bound = s₂.withProgram
    (s₂.program.modifyGraph (·.freeze slot)) := ⟨_, rfl⟩
  rw [← hboundeq] at hderive
  obtain ⟨hbound, hdeps, frozen, hascribes, hfrozen⟩ :=
    hs₁.ascribes hspare hjoining hgives hne hbind hboundeq
  have hid : m.Has id := has_of_construct hc (by simp)
  have hrun₁ := ((runnable_walkConstruct hw htidy hready hid hc).does hconstruct).1
  have hrun₂ := ((runnable_resolvePending hw (hrun₁.ready hready).2 fuel).does hresolve).1
  have honward₂ := (honward.trans honward₁).trans hbound
  have hlater := (((Onward.of_goes hgoes htype).trans honward₂).sound h.reached.sound).1
  have hplain : bound.Plain id := hlater.plain ⟨hid, by rw [hc]; rfl⟩
  have hrun₃ : Runs setting none true bound m₁ :=
    ((runnable_deriveFrom hplain [slot]).does hderive).1
  refine ⟨type, mid, bound, slot, frozen, htype, honward₂,
    .runs (.runs .refl hrun₃) hrun₂, hascribes,
    fun before hn => ?_, fun h => hfrozen (hsuits h), ?_, ?_⟩
  · obtain ⟨heq, hkept⟩ := hbefore before hn
    exact ⟨heq, hkept ▸ hdeps⟩
  · have hframe₂ : s₂.frame = s₁.frame := (keepsFrame_onNetwork _).does hbind
    rw [(keepsFrame_resolvePending _ _).does hresolve,
      (keepsFrame_deriveFrom _ _).does hderive, hboundeq,
      withProgram_frame, hframe₂]
    exact (does_localVar hlocal).1
  · exact fun s hs => (hs.fixed (hrun₂.fixed (hrun₃.fixed hascribes.fixed))).typed

end WalkState.Running

namespace WalkState
open Infer

/-- The state after `x = 1`. -/
def assigned : WalkState :=
  ((Infer.walk 9 ⟨2⟩).outcome ⟨.standard, {}⟩ (lowered (.assign (.var "x") (.int32 1)))).2

/-- In it, `x` is declared. -/
def ascribing (type : String) : WalkState :=
  ((lowerTree (.declareVar "x" (.bare (.path [type] false)))).outcome ⟨.standard, {}⟩ assigned).2

theorem running_ascribing : (ascribing "Int32").Running [.whole ⟨4⟩] := by
  have hlower : (lowerTree (.assign (.var "x") (.int32 1))).Does ⟨.standard, {}⟩ ⟨{}, {}⟩ ⟨2⟩
      (lowered (.assign (.var "x") (.int32 1))) := rfl
  have hassign : (Infer.walk 9 ⟨2⟩).Does ⟨.standard, {}⟩
      (lowered (.assign (.var "x") (.int32 1))) () assigned :=
    does_of_isOk (by decide +kernel)
  have hdeclare : (lowerTree (.declareVar "x" (.bare (.path ["Int32"] false)))).Does
      ⟨.standard, {}⟩ assigned ⟨4⟩
      (ascribing "Int32") := does_of_toOption (by decide +kernel)
  have hrunning := (WalkState.Running.start.lower hlower).walk Toolchain.tidy_standard hassign
  exact (hrunning.duties hrunning.intact.tail).lower hdeclare

/-- What has been assigned has the type that is declared. -/
theorem declaresVar_int32 : (ascribing "Int32").Running [.whole ⟨4⟩] ∧ Toolchain.standard.Tidy ∧
    ∃ m' slot, (Infer.walk 9 ⟨4⟩).Does ⟨.standard, {}⟩ (ascribing "Int32") () m' ∧
      m'.frame.vars.get? "x" = some slot ∧
      ∀ s, m'.Onward s → s.program.graph.typeOf slot = some .int32 := by
  have hc : (ascribing "Int32").program.construct ⟨4⟩ = .declareVar "x" ⟨3⟩ := by decide +kernel
  have hd : (Infer.walk 9 ⟨4⟩).Does ⟨.standard, {}⟩ (ascribing "Int32") () _ :=
    does_of_isOk (by decide +kernel)
  obtain ⟨type, mid, _, slot, frozen, htype, -, -, -, -, hfrozen, hslot, hkept⟩ :=
    running_ascribing.declaresVar Toolchain.tidy_standard hc hd
  have hafter : let r :=
    (denotedType (Infer.walk 8) ⟨3⟩).outcome ⟨.standard, {}⟩ (ascribing "Int32")
      r.1.toOption = some .int32 ∧ r.2.frame.vars.get? "x" = some ⟨4⟩ ∧
        r.2.program.graph.typeOf ⟨4⟩ = some .int32 := by decide +kernel
  rw [show (denotedType (Infer.walk 8) ⟨3⟩).outcome _ _ = _ from htype] at hafter
  obtain ⟨htype, hbefore, htyped⟩ := hafter
  obtain rfl := Option.some.inj htype
  have hsuits : mid.Suits "x" .int32 := fun slot hslot =>
    .inr (Option.some.inj (hslot.symm.trans hbefore) ▸ htyped)
  obtain rfl := hfrozen hsuits
  exact ⟨running_ascribing, Toolchain.tidy_standard, _, slot, hd, hslot, hkept⟩

/-- A `Char` is declared although an `Int32` has been assigned. The declaration goes through, and
`x` has a type that is not the declared one. -/
theorem widened_ascribing : ∃ m', (Infer.walk 9 ⟨4⟩).Does ⟨.standard, {}⟩ (ascribing "Char") () m' ∧
    (ascribing "Char").program.construct ⟨4⟩ = .declareVar "x" ⟨3⟩ ∧
    (ascribing "Char").program.construct ⟨3⟩ = .path ["Char"] false ∧
    (ascribing "Char").frame.vars.get? "x" = some ⟨4⟩ ∧
    (ascribing "Char").program.graph.typeOf ⟨4⟩ = some .int32 ∧
    m'.frame.vars.get? "x" = some ⟨4⟩ ∧ m'.program.graph.typeOf ⟨4⟩ = some ⟨25⟩ ∧
    m'.program.types.name ⟨25⟩ = "Int32 | Char" := by
  have hd : (Infer.walk 9 ⟨4⟩).Does ⟨.standard, {}⟩ (ascribing "Char") () _ :=
    does_of_isOk (by decide +kernel)
  exact ⟨_, hd, by decide +kernel, by decide +kernel, by decide +kernel, by decide +kernel,
    by decide +kernel, by decide +kernel, by decide +kernel⟩

end WalkState

end TypeFlow
