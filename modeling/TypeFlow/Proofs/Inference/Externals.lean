import TypeFlow.Proofs.Flow.Joined
import TypeFlow.Proofs.Inference.Selected
import TypeFlow.Proofs.Inference.Signatures

/-!
# Calls of external functions

A call of an external function goes through only for arguments of the types in its signature, with
more of them only if it takes any number. The call is bound to the node for known values of the
result type (`does_targetFor`), and so has this type. From its declaration on a function keeps its
signature, and all that follows goes by it (`Running.signsFun`).
-/

namespace TypeFlow
open WalkState

/-- Arguments of these types may be passed. -/
def Signature.Accepts (signature : Signature) (types : List TypeId) : Prop :=
  signature.args <+: types ∧ (signature.varargs = false → types.length = signature.args.length)

/-- A call with the name is one of a function of the lib, and not an allocation. -/
structure Types.Addresses (t : Types) (lib receiver : TypeId) (name : String)
    (types : List TypeId) : Prop where
  kind : t.kind receiver = .metaclass lib
  isLib : t.isLib lib = true
  allocate : name = "allocate" → types ≠ []
  new : name = "new" → t.findMethod receiver ("new", types.length) ≠ none

theorem Program.LeavesToResolution.of_eq {p p' : Program} {call : ExprId}
    (h : p.LeavesToResolution call) (hexprs : p'.exprs = p.exprs)
    (hexpansions : p'.expansions = p.expansions) :
    p'.LeavesToResolution call := by
  have hconstruct : ∀ id, p'.construct id = p.construct id := fun id => by
    rw [construct, expr, hexprs, construct, expr]
  refine ⟨hconstruct call ▸ h.isCall, hexpansions ▸ h.unexpanded, ?_⟩
  rintro ⟨block, params, body, hc, hmem⟩
  exact h.parameter ⟨block, params, body, (hconstruct block).symm.trans hc, hmem⟩

theorem isPrefix_of_zip {as bs : List TypeId} (hlength : bs.length ≤ as.length)
    (h : ∀ pair ∈ as.zip bs, pair.1 = pair.2) : bs <+: as := by
  induction bs generalizing as with
  | nil => exact List.nil_prefix
  | cons b bs ih =>
    cases as with
    | nil => cases hlength
    | cons a as =>
      obtain ⟨hfirst, hrest⟩ := List.forall_mem_cons.mp h
      exact List.cons_prefix_cons.mpr ⟨hfirst.symm, ih (Nat.le_of_succ_le_succ hlength) hrest⟩

namespace Infer
variable {setting : Setting} {walk : Step} {s s' : WalkState} {call : ExprId}

theorem does_checkArguments {method : String} {position : Nat} {pairs : List (TypeId × TypeId)}
    (hd : (checkArguments call method position pairs).Does setting s () s') :
    s' = s ∧ ∀ pair ∈ pairs, pair.1 = pair.2 := by
  induction pairs generalizing position with
  | nil =>
    obtain ⟨-, rfl⟩ := does_pure.mp hd
    exact ⟨rfl, nofun⟩
  | cons pair rest ih =>
    obtain ⟨actual, expected⟩ := pair
    unfold checkArguments at hd
    dsimp only at hd
    split at hd
    · rw [does_bind_of_ok (outcome_nameOf _), does_bind_of_ok (outcome_nameOf _)] at hd
      obtain ⟨⟨⟩, _, hproblem, -⟩ := does_bind.mp hd
      cases hproblem
    · rename_i heq
      obtain ⟨rfl, hrest⟩ := ih hd
      exact ⟨rfl, List.forall_mem_cons.mpr ⟨not_not.mp heq, hrest⟩⟩

/-- A node may be added. -/
theorem does_knownValue {type : TypeId} {node : NodeId}
    (hd : (knownValue type).Does setting s node s') :
    s'.memo.values.get? type = some node ∧ ∃ n, s'.program = { s.program with toNetwork := n } := by
  rcases hvalue : s.memo.values.get? type with _ | known
  · rw [Does, outcome_knownValue_of_none hvalue] at hd
    cases hd
    exact ⟨OrderedMap.get?_insert_self .., _, rfl⟩
  · rw [Does, outcome_knownValue_of_some hvalue] at hd
    cases hd
    exact ⟨hvalue, _, rfl⟩

theorem does_externalCall {lib : TypeId} {name : String} {signature : Signature}
    {types : List TypeId} {node : NodeId}
    (hd : (externalCall call lib name signature types).Does setting s node s') :
    signature.Accepts types ∧ s'.memo.values.get? signature.returnType = some node ∧
      ∃ n, s'.program = { s.program with toNetwork := n } := by
  unfold externalCall at hd
  rw [does_bind_of_ok (outcome_nameOf lib)] at hd
  obtain ⟨hfits, hrest⟩ := does_check hd
  obtain ⟨⟨⟩, m, hcheck, hvalue⟩ := does_bind.mp hrest
  obtain ⟨rfl, hsame⟩ := does_checkArguments hcheck
  have hfits : if signature.varargs = true then signature.args.length ≤ types.length
      else types.length = signature.args.length := by
    rwa [Bool.not_eq_true', Bool.not_eq_false, decide_eq_true_eq] at hfits
  refine ⟨⟨isPrefix_of_zip ?_ hsame, fun hvarargs => ?_⟩, does_knownValue hvalue⟩
  · split at hfits
    · exact hfits
    · exact Nat.le_of_eq hfits.symm
  · rwa [hvarargs, if_neg Bool.false_ne_true] at hfits

/-- A call that addresses a function of a lib is bound to the node for known values of the result
type. -/
theorem does_targetFor {lib receiver : TypeId} {r : Resolution} {signature : Signature}
    {node : NodeId} (h : s.program.types.Addresses lib receiver r.name r.args)
    (hfun : (s.program.types.get lib).funs.get? r.name = some signature)
    (hd : (targetFor walk r receiver).Does setting s node s') :
    signature.Accepts r.args ∧ s'.memo.values.get? signature.returnType = some node ∧
      ∃ n, s'.program = { s.program with toNetwork := n } := by
  obtain ⟨found, m, hbuiltin, hd⟩ := does_bind.mp hd
  unfold builtinCall at hbuiltin
  rw [does_bind_of_ok outcome_types] at hbuiltin
  have hallocate : ¬ (r.name = "allocate" ∧ r.args.isEmpty = true) := fun ⟨hname, hnone⟩ =>
    h.allocate hname (List.isEmpty_iff.mp hnone)
  have hnew : ¬ (r.name = "new" ∧
      (s.program.types.findMethod receiver ("new", r.args.length)).isNone = true) :=
    fun ⟨hname, hnone⟩ => h.new hname (Option.isNone_iff_eq_none.mp hnone)
  simp only [h.kind, if_neg hallocate, if_neg hnew, if_pos h.isLib, hfun] at hbuiltin
  obtain ⟨value, m', hcall, hpure⟩ := does_bind.mp hbuiltin
  obtain ⟨rfl, rfl⟩ := does_pure.mp hpure
  obtain ⟨rfl, rfl⟩ := does_pure.mp hd
  exact does_externalCall hcall

/-! ### Binding -/

theorem does_rebind_network {targets : List NodeId}
    (hd : (rebind call targets).Does setting s () s') :
    s'.memo.values = s.memo.values ∧ ∃ n, s'.program = { s.program with toNetwork := n } := by
  by_cases hsame : s.memo.targets.get? call = some targets
  · rw [Does, outcome_rebind_of_eq hsame] at hd
    cases hd
    exact ⟨rfl, _, rfl⟩
  · rw [Does, outcome_rebind_of_ne hsame] at hd
    obtain ⟨n, -, rfl⟩ := does_onNetwork.mp (does_mapError.mp hd)
    exact ⟨rfl, n, rfl⟩

/-- The node that a block breaks with is recorded, and nothing but the graph may have changed beside
it. -/
theorem breakNodeOf_spec (p : Program) (block : ExprId) :
    (p.breakNodeOf block).2.blockBreaks.get? block = some (p.breakNodeOf block).1 ∧
      (p.breakNodeOf block).2.types = p.types ∧ (p.breakNodeOf block).2.exprs = p.exprs ∧
      (p.breakNodeOf block).2.expansions = p.expansions := by
  unfold Program.breakNodeOf
  split
  · exact ⟨‹_›, rfl, rfl, rfl⟩
  · exact ⟨OrderedMap.get?_insert_self .., rfl, rfl, rfl⟩

/-- For one type of the receiver the call gets one target, and the node that takes what its block
breaks with. -/
theorem does_bindToTargets_singleton {receiver block : Option ExprId} {name : String}
    {args : List ExprId} {types : List TypeId} {member : TypeId}
    (hc : s.program.construct call = .call receiver name args block)
    (hunexpanded : s.program.expansions.get? call = none)
    (hargs : args.mapM s.program.typeOf = some types)
    (hreceiver : receiverTypes s.program call receiver = [member])
    (hd : (bindToTargets walk call).Does setting s () s') :
    ∃ node m breaks,
      (targetFor walk ⟨call, name, types, block, receiver.isNone⟩ member).Does setting s node m ∧
      s'.memo.values = m.memo.values ∧ s'.program.exprs = m.program.exprs ∧
      s'.program.expansions = m.program.expansions ∧
      s'.memo.targets.get? call = some (node :: breaks) ∧
      (block = none → breaks = []) ∧ ∀ d ∈ breaks, ∃ b ∈ block,
        s'.program.blockBreaks.get? b = some d := by
  unfold bindToTargets at hd
  rw [does_bind_of_ok outcome_program] at hd
  have hcontains : ¬ s.program.expansions.contains call = true := by
    rw [OrderedMap.contains, hunexpanded]
    exact Bool.false_ne_true
  simp only [if_neg hcontains, hc, hargs, hreceiver, List.isEmpty_cons,
    Bool.false_eq_true, if_false] at hd
  obtain ⟨targets, m, htargets, hd⟩ := does_bind.mp hd
  obtain ⟨node, m', htarget, hpure⟩ := does_bind.mp htargets
  obtain ⟨rfl, rfl⟩ := does_pure.mp hpure
  cases block with
  | none =>
    obtain ⟨hvalues, n, hprogram⟩ := does_rebind_network hd
    refine ⟨node, _, [], htarget, hvalues, ?_, ?_, does_rebind hd, fun _ => rfl, fun _ hd =>
      absurd hd List.not_mem_nil⟩ <;>
      rw [hprogram]
  | some b =>
    dsimp only at hd
    rw [does_bind_of_ok (outcome_updateProgram _)] at hd
    obtain ⟨hbreak, -, hexprs, hexpansions⟩ := breakNodeOf_spec m'.program b
    obtain ⟨hvalues, n, hprogram⟩ := does_rebind_network hd
    have hbound : s'.memo.targets.get? call = some [node, (m'.program.breakNodeOf b).1] :=
      does_rebind hd
    refine ⟨node, m', [(m'.program.breakNodeOf b).1], htarget, hvalues, ?_, ?_, hbound,
      fun h => absurd h (Option.some_ne_none b), fun d hd => ?_⟩
    · rw [hprogram]
      exact hexprs
    · rw [hprogram]
      exact hexpansions
    · refine ⟨b, rfl, ?_⟩
      rw [hprogram, List.mem_singleton.mp hd]
      exact hbreak

end Infer

namespace WalkState
open Infer
variable {setting : Setting} {s s' m m' : WalkState} {L : List Duty} {call id : ExprId}

theorem Reached.bound (h : s.Reached) (call : ExprId) : s.Bound call := by
  induction h with
  | start => exact ⟨fun _ => rfl, fun hid => absurd hid (Nat.not_lt_zero _)⟩
  | @lower s tree hs ih =>
    have hadds : Runs ⟨.standard, {}⟩ none true s _ := runs_adds (s.program.adds_lower tree).1
    exact hadds.bound hs.sound ih
  | settle hs ih =>
    obtain ⟨hl, hp⟩ := hs.sound.program.settleUntyped
    refine ih.later (hs.sound.withProgram hl hp).1 rfl rfl (fun he => he) fun _ _ d _ =>
      iff_of_eq (congrArg (d ∈ ·) ?_)
    exact FlowGraph.dependencies_settleUntyped ..
  | enter r hs hr ih => exact ih.of_graph_eq (.withFrame ..) rfl rfl rfl rfl
  | evaluate hs _ ih =>
    obtain ⟨hl, hp⟩ := hs.sound.program.beginConstant _
    exact ih.of_graph_eq (hs.sound.withProgram hl hp).1 rfl rfl rfl rfl
  | visit scope hs _ ih =>
    obtain ⟨hl, hp⟩ := hs.sound.program.noteScope _ scope
    exact ih.of_graph_eq (hs.sound.withProgram hl hp).1 rfl rfl rfl rfl
  | call hs hcall ih => exact hcall.bound hs.sound ih
  | runs hs hr ih => exact hr.bound hs.sound ih

/-- The call addresses the function of the lib with arguments of these types. -/
structure CallsFun (s : WalkState) (call : ExprId) (lib : TypeId) (name : String)
    (types : List TypeId) (block : Option ExprId) : Prop where
  leaves : s.program.LeavesToResolution call
  addresses : ∃ receiver args metaclass, s.program.construct call = .call
    (some receiver) name args block ∧
    args.mapM s.program.typeOf = some types ∧ s.program.typeOf receiver = some metaclass ∧
    s.program.types.Addresses lib metaclass name types

/-- The call has the type, joined with the types of what its block breaks with. A pointer to its
value may widen it. -/
def ResultsIn (s : WalkState) (call : ExprId) (block : Option ExprId) (type : TypeId) : Prop :=
  s.program.nodeOf call ∉ (s.program.graph.node (s.program.nodeOf call)).dependencies →
    (∃ breaks : List NodeId, (∀ d ∈ breaks, ∃ b ∈ block, s.program.blockBreaks.get? b = some d) ∧
      s.program.typeOf call =
        (s.program.types.join (type :: breaks.filterMap s.program.graph.typeOf)).1) ∧
    (block = none → s.program.typeOf call = some type)

/-- The node of a call that is bound to the one for known values of a type, and to what its block
breaks with. -/
theorem Running.resultsIn (h : s.Running (.done call :: L))
    (hleaves : s.program.LeavesToResolution call) {block : Option ExprId} {type : TypeId}
    {node : NodeId} {breaks : List NodeId} (hvalue : s.memo.values.get? type = some node)
    (htargets : s.memo.targets.get? call = some (node :: breaks))
    (hnone : block = none → breaks = [])
    (hbreaks : ∀ d ∈ breaks, ∃ b ∈ block, s.program.blockBreaks.get? b = some d) :
    s.ResultsIn call block type := by
  intro hapart
  have hid : s.Has call := h.intact.has
  have horderly := h.intact.program.orderly
  have hforeign : ∀ d ∈ node :: breaks, d ≠ s.program.nodeOf call := by
    refine List.forall_mem_cons.mpr
      ⟨fun heq => (h.proper.nodeOf call).unknown type (heq ▸ hvalue), fun d hd heq => ?_⟩
    obtain ⟨b, -, hb⟩ := hbreaks d hd
    exact hleaves.parameter ((h.intact.program.spare d (.breakNode hb)).parameter call hid heq.symm)
  have hdeps : ∀ d, d ∈ (s.program.graph.node (s.program.nodeOf call)).dependencies ↔
      d ∈ node :: breaks := fun d => by
    have hbound := (h.reached.bound call).deps hid hleaves d
    rw [htargets, Option.getD_some] at hbound
    exact ⟨fun hd => (hbound fun heq => hapart (heq ▸ hd)).mp hd, fun hd =>
      (hbound (hforeign d hd)).mpr hd⟩
  have hgives : s.program.graph.typeOf node = some type := (h.proper.values type node hvalue).typed
  have hinputs : ∀ a, a ∈ s.program.inputTypes (s.program.nodeOf call) ↔
      a ∈ type :: breaks.filterMap s.program.graph.typeOf := fun a => by
    simp only [Network.mem_inputTypes, hdeps, List.mem_cons, List.mem_filterMap, or_and_right,
      exists_or, exists_eq_left, hgives, Option.some.injEq]
    exact or_congr_left eq_comm
  have hjoin : s.program.types.join (s.program.inputTypes (s.program.nodeOf call)) =
      s.program.types.join (type :: breaks.filterMap s.program.graph.typeOf) :=
    Types.join_congr (canonicalMembers_congr fun a => by simp only [List.mem_flatMap, hinputs])
  have hderivation : (s.program.graph.node (s.program.nodeOf call)).derivation = .identity := by
    rw [h.proper.formed.derivation call hid]
    have hcall := hleaves.isCall
    cases hc : s.program.construct call <;> rw [hc] at hcall <;> first | rfl | cases hcall
  have htype : s.program.typeOf call =
      (s.program.types.join (type :: breaks.filterMap s.program.graph.typeOf)).1 := by
    rw [← hjoin]
    refine ((horderly.steady _).resolve_right nofun).typeOf_eq_join horderly.linked
      hderivation fun hnil => ?_
    have hmem := (hinputs type).mpr List.mem_cons_self
    rw [hnil] at hmem
    cases hmem
  refine ⟨⟨breaks, hbreaks, htype⟩, fun hblock => ?_⟩
  rw [htype, hnone hblock, List.filterMap_nil]
  exact congrArg Prod.fst
    (horderly.linked.whole.toSolid.canonical.join_of_forall (by simp) fun a ha =>
      List.mem_singleton.mp ha)

/-- A call of a function that is resolved passes what the signature accepts, and results in what it
returns. -/
theorem Running.callsFun (h : s.Running (.done call :: L)) (htidy : setting.tools.Tidy)
    (hresolves : setting.tools.resolvesCalls = true) {fuel : Nat} {lib : TypeId} {name : String}
    {types : List TypeId} {block : Option ExprId} {signature : Signature}
    (hcall : s.CallsFun call lib name types block)
    (hfun : (s.program.types.get lib).funs.get? name = some signature)
    (hd : (resolve (Infer.walk fuel) call).Does setting s () s') :
    signature.Accepts types ∧ s'.ResultsIn call block signature.returnType := by
  have hs' := (h.does (runnable_resolve (walks_walk htidy fuel) h.reached.ready call)
    (proceeds_resolve (proceeds_walk htidy fuel) call)
      (leaves_resolve (finishes_walk htidy fuel) h.intact) hd).1
  obtain ⟨m, -, hprogram, hmemo, hbind⟩ := does_resolve hresolves hd
  obtain ⟨receiver, args, metaclass, hc, hargs, hreceiver, haddresses⟩ := hcall.addresses
  have hsingle : receiverTypes s.program call (some receiver) = [metaclass] := by
    simp only [receiverTypes, hreceiver, haddresses.kind]
  rw [← hprogram] at hc hargs hsingle haddresses hfun
  have hleaves := hcall.leaves
  rw [← hprogram] at hleaves
  obtain ⟨node, m₁, breaks, htarget, hvalues, hexprs, hexpansions, htargets, hnone, hbreaks⟩ :=
    does_bindToTargets_singleton hc hleaves.unexpanded hargs hsingle hbind
  obtain ⟨haccepts, hvalue, n, hm₁⟩ := does_targetFor haddresses hfun htarget
  rw [hm₁] at hexprs hexpansions
  exact ⟨haccepts, hs'.resultsIn (hleaves.of_eq hexprs hexpansions)
    (hvalues ▸ hvalue) htargets hnone hbreaks⟩

/-! ### What follows a declaration -/

/-- What may come after a state: steps are taken, however they end, and in between the types of the
program stay. -/
inductive Follows (setting : Setting) (s : WalkState) : WalkState → Prop where
  | refl : Follows setting s s
  | beside {s' s'' : WalkState} : Follows setting s s' → s''.program.types = s'.program.types →
      Follows setting s s''
  | step {α : Type} {s' : WalkState} {x : Infer α} : Follows setting s s' → Composed setting s' x →
      Follows setting s (x.outcome setting s').2

theorem Follows.keepsNames (h : Follows setting s s') (htidy : setting.tools.Tidy) :
    s.program.types.KeepsNames s'.program.types := by
  induction h with
  | refl => exact .refl _
  | beside _ htypes ih => exact htypes ▸ ih
  | step _ hx ih => exact ih.trans (hx.relates htidy relates_keepsNames)

theorem Follows.topLevel (h : Follows setting s s') : Follows setting s ⟨s'.session, {}⟩ :=
  h.beside rfl

/-- All that follows goes by the signature: what reaches the function on a receiver, calls that are
resolved, and declarations under the same name, which have to describe it again. -/
structure GoesBy (setting : Setting) (lib : TypeId) (name : String) (signature : Signature)
    (s : WalkState) : Prop where
  reaches : ∀ ⦃walk r receiver node s'⦄, r.name = name →
    s.program.types.Addresses lib receiver name r.args →
    (targetFor walk r receiver).Does setting s node s' →
      signature.Accepts r.args ∧ s'.memo.values.get? signature.returnType = some node
  calls : setting.tools.resolvesCalls = true → ∀ ⦃call L fuel types block s'⦄,
    s.Running (.done call :: L) →
    s.CallsFun call lib name types block → (resolve (Infer.walk fuel) call).Does setting s () s' →
      signature.Accepts types ∧ s'.ResultsIn call block signature.returnType
  declares : s.frame.innermostType = lib → ∀ ⦃fuel id realName args returnType pointers varargs s'⦄,
    (walkConstruct (Infer.walk fuel) id
      (.funDef name realName args returnType pointers varargs)).Does setting s () s' ↔
      ∃ m, (declaredSignature (Infer.walk fuel) realName args returnType varargs).Does
        setting s signature m ∧
        (giveType id .nil).Does setting (withSignature m lib name signature) () s'

theorem goesBy {lib : TypeId} {name : String} {signature : Signature} (htidy : setting.tools.Tidy)
    (h : (s.program.types.get lib).funs.get? name = some signature) :
    s.GoesBy setting lib name signature where
  reaches walk r receiver node s' hname haddresses hd := by
    subst hname
    obtain ⟨haccepts, hvalue, -⟩ := does_targetFor haddresses h hd
    exact ⟨haccepts, hvalue⟩
  calls hresolves _ _ _ _ _ _ hrunning hcall hd := hrunning.callsFun htidy hresolves hcall h hd
  declares howner fuel id realName args returnType pointers varargs s' := by
    rw [walkConstruct, walkFunDef_eq, does_bind_of_ok outcome_innermostType, howner, does_bind]
    -- the description leaves the signature that the function has
    have hkept : ∀ other m, (declaredSignature (Infer.walk fuel) realName args returnType
        varargs).Does setting s other m →
        (m.program.types.get lib).funs.get? name = some signature := fun other m hd => by
      have hnames :=
        (composed_declaredSignature (composed_walk fuel) realName args returnType varargs).relates
        (s := s) htidy relates_keepsNames
      rw [show (declaredSignature _ _ _ _ _).outcome setting s = _ from hd] at hnames
      exact hnames.signature _ _ _ h
    constructor
    · rintro ⟨other, m, hdescribes, hdeclare⟩
      obtain ⟨hsame, hgive⟩ := declareFun_iff.mp hdeclare
      obtain rfl := hsame signature (hkept other m hdescribes)
      exact ⟨m, hdescribes, hgive⟩
    · rintro ⟨m, hdescribes, hgive⟩
      refine ⟨signature, m, hdescribes, declareFun_iff.mpr ⟨fun previous hprevious => ?_, hgive⟩⟩
      exact Option.some.inj (hprevious.symm.trans (hkept signature m hdescribes))

/-- A declaration that has been walked describes a signature, by which everything goes that follows:
arguments have to be of the types in it, a call has the type in it, and a declaration of the
function has to describe it again. What the signature returns is the type that is declared for it,
without its pointers. -/
theorem Running.signsFun (h : m.Running (.whole id :: L)) (htidy : setting.tools.Tidy) {fuel : Nat}
    {name realName : String} {args : List (Field ExprId)} {returnType : Option ExprId}
    {pointers : Nat} {varargs : Bool}
    (hc : m.program.construct id = .funDef name realName args returnType pointers varargs)
    (hd : (Infer.walk (fuel + 1) id).Does setting m () m') :
    ∃ signature, Describes setting (Infer.walk fuel) realName args returnType
        varargs signature m m' ∧
      (∀ previous, (m.program.types.get m.frame.innermostType).funs.get? name = some previous →
        previous = signature) ∧
      ∀ s, Follows setting m' s →
        (s.program.types.get m.frame.innermostType).funs.get? name = some signature ∧
        s.GoesBy setting m.frame.innermostType name signature := by
  obtain ⟨signature, hdescribes, hprevious, hrecorded⟩ := h.recordsFun htidy hc hd
  refine ⟨signature, hdescribes, hprevious, fun s hs => ?_⟩
  have hkept := (hs.keepsNames htidy).signature _ _ _ hrecorded
  exact ⟨hkept, goesBy htidy hkept⟩

theorem Running.inType {type : TypeId} (h : s.Running L) (ht : type.index < s.program.types.size) :
    (s.withFrame ((Region.inType type).enter s.frame)).Running L where
  reached := .enter (.inType type) h.reached trivial
  proper := h.proper.of_frame_eq rfl rfl
  intact := h.intact.withFrame
    { h.intact.frame with enclosing := List.forall_mem_cons.mpr ⟨ht, h.intact.frame.enclosing⟩ }

/-- The state after `lib C; end`. -/
def afterLib : WalkState :=
  ((Infer.walk 9 ⟨0⟩).outcome ⟨.standard, {}⟩ (lowered (.bare (.libDef "C" none none)))).2

/-- In the lib, `fun f = g(x : Int32) : Int32` is declared, with pointers for its result. -/
def signing (pointers : Nat) : WalkState :=
  let function := .funDef "f" "g" [⟨"x", .path "Int32", 0⟩] (some (.path "Int32")) pointers false
  ((lowerTree (.bare function)).outcome ⟨.standard, {}⟩
    (afterLib.withFrame ((Region.inType ⟨24⟩).enter afterLib.frame))).2

def signed (pointers : Nat) : WalkState :=
  ((Infer.walk 9 ⟨3⟩).outcome ⟨.standard, {}⟩ (signing pointers)).2

/-- After the lib comes `C.f(1)`. -/
def applying (pointers : Nat) : WalkState :=
  ((lowerTree (.call (some (.path "C")) "f" [.int32 1])).outcome ⟨.standard, {}⟩
    ⟨(signed pointers).session, {}⟩).2

def applied (pointers : Nat) : WalkState :=
  ((Infer.walk 9 ⟨6⟩).outcome ⟨.standard, {}⟩ (applying pointers)).2

/-- With as many pointers as are tried here, the declaration is lowered. -/
theorem running_signing {pointers : Nat} (hpointers : pointers = 0 ∨ pointers = 1) :
    (signing pointers).Running [.whole ⟨3⟩, .done ⟨0⟩] := by
  have hlower : (lowerTree (.bare (.libDef "C" none none))).Does ⟨.standard, {}⟩ ⟨{}, {}⟩ ⟨0⟩
      (lowered (.bare (.libDef "C" none none))) := rfl
  have hlib : (Infer.walk 9 ⟨0⟩).Does ⟨.standard, {}⟩
      (lowered (.bare (.libDef "C" none none))) () afterLib :=
    does_of_isOk (by decide +kernel)
  have hsize : 24 < afterLib.program.types.size := by decide +kernel
  have hinside :=
    ((WalkState.Running.start.lower hlower).walk Toolchain.tidy_standard hlib).inType hsize
  exact hinside.lower (does_of_toOption (by rcases hpointers with rfl | rfl <;> decide +kernel))

/-- With as many pointers as are tried here, the declaration and the call go through. -/
theorem running_applied {pointers : Nat} (hpointers : pointers = 0 ∨ pointers = 1) :
    (Infer.walk 9 ⟨3⟩).Does ⟨.standard, {}⟩ (signing pointers) () (signed pointers) ∧
      (applied pointers).Running [.done ⟨6⟩, .done ⟨3⟩, .done ⟨0⟩] := by
  have hsign : (Infer.walk 9 ⟨3⟩).Does ⟨.standard, {}⟩ (signing pointers) () (signed pointers) :=
    does_of_isOk (by rcases hpointers with rfl | rfl <;> decide +kernel)
  have hlower : (lowerTree (.call (some (.path "C")) "f" [.int32 1])).Does ⟨.standard, {}⟩
      ⟨(signed pointers).session, {}⟩ ⟨6⟩ (applying pointers) :=
    does_of_toOption (by rcases hpointers with rfl | rfl <;> decide +kernel)
  have happly : (Infer.walk 9 ⟨6⟩).Does ⟨.standard, {}⟩ (applying pointers) () (applied pointers) :=
    does_of_isOk (by rcases hpointers with rfl | rfl <;> decide +kernel)
  have hsigned := (running_signing hpointers).walk Toolchain.tidy_standard hsign
  exact ⟨hsign, (hsigned.topLevel.lower hlower).walk Toolchain.tidy_standard happly⟩

theorem follows_applied (pointers : Nat) :
    Follows ⟨.standard, {}⟩ (signed pointers) (applied pointers) := by
  have happlying : Follows ⟨.standard, {}⟩ (signed pointers) (applying pointers) :=
    Follows.refl.topLevel.step (composed_lowerTree (.call (some (.path "C")) "f" [.int32 1]))
  exact happlying.step (composed_walk 9 ⟨6⟩ (applying pointers))

theorem signsFun_applied : (signing 0).Running [.whole ⟨3⟩, .done ⟨0⟩] ∧ Toolchain.standard.Tidy ∧
    (Infer.walk 9 ⟨3⟩).Does ⟨.standard, {}⟩ (signing 0) () (signed 0) ∧
    (applied 0).CallsFun ⟨6⟩ ⟨24⟩ "f" [.int32] none ∧
    ∃ s', (resolve (Infer.walk 9) ⟨6⟩).Does ⟨.standard, {}⟩ (applied 0) () s' ∧
      s'.program.typeOf ⟨6⟩ = some .int32 := by
  have hc : (signing 0).program.construct ⟨3⟩ = .funDef "f" "g" [⟨"x", ⟨1⟩, 0⟩]
      (some ⟨2⟩) 0 false := by decide +kernel
  obtain ⟨hsign, hrunning⟩ := running_applied (.inl rfl)
  obtain ⟨signature, -, -, hfollows⟩ :=
    (running_signing (.inl rfl)).signsFun Toolchain.tidy_standard hc hsign
  have howner : (signing 0).frame.innermostType = ⟨24⟩ := by decide +kernel
  rw [howner] at hfollows
  obtain ⟨hrecorded, hgoes⟩ := hfollows _ (follows_applied 0)
  have hsignature : ((applied 0).program.types.get ⟨24⟩).funs.get? "f" = some
      ⟨"g", [.int32], .int32, false⟩ := by
    decide +kernel
  obtain rfl := Option.some.inj (hrecorded.symm.trans hsignature)
  have hleaves : (applied 0).program.LeavesToResolution ⟨6⟩ :=
    ⟨by decide +kernel, by decide +kernel, Program.not_isParameter_of_all (by decide +kernel) _⟩
  have haddresses : (applied 0).program.types.Addresses ⟨24⟩ ⟨26⟩ "f" [.int32] :=
    ⟨by decide +kernel, by decide +kernel, fun h => absurd h (by decide),
      fun h => absurd h (by decide)⟩
  have hcall : (applied 0).CallsFun ⟨6⟩ ⟨24⟩ "f" [.int32] none :=
    ⟨hleaves, ⟨4⟩, [⟨5⟩], ⟨26⟩, by decide +kernel, by decide +kernel, by decide +kernel, haddresses⟩
  have hresolve : (resolve (Infer.walk 9) ⟨6⟩).Does ⟨.standard, {}⟩ (applied 0) () _ :=
    does_of_isOk (by decide +kernel)
  have hresults := (hgoes.calls rfl hrunning hcall hresolve).2
  exact ⟨running_signing (.inl rfl), Toolchain.tidy_standard, hsign, hcall, _, hresolve,
    (hresults (by decide +kernel)).2 rfl⟩

/-- A pointer is declared for the result, but the call has the type that it points to. -/
theorem unpointed_applied :
    (signing 1).program.construct ⟨3⟩ = .funDef "f" "g" [⟨"x", ⟨1⟩, 0⟩] (some ⟨2⟩) 1 false ∧
    (signing 1).program.construct ⟨2⟩ = .path ["Int32"] false ∧
    (Infer.walk 9 ⟨3⟩).Does ⟨.standard, {}⟩ (signing 1) () (signed 1) ∧
    (applied 1).Running [.done ⟨6⟩, .done ⟨3⟩, .done ⟨0⟩] ∧
    (applied 1).program.construct ⟨6⟩ = .call (some ⟨4⟩) "f" [⟨5⟩] none ∧
    (applied 1).program.typeOf ⟨6⟩ = some .int32 := by
  obtain ⟨hsign, hrunning⟩ := running_applied (.inr rfl)
  exact ⟨by decide +kernel, by decide +kernel, hsign, hrunning, by decide +kernel,
    by decide +kernel⟩

end WalkState

end TypeFlow
