import TypeFlow.Proofs.Inference.Composed.Kept

/-!
# What is left over from other programs

What the resolution of calls remembers speaks of expressions, types and nodes of one program, and
none of its keys says of which. If it is used for another program, whatever is found under a key of
the earlier one is taken to be about the new one. That is the only way in which the earlier program
can be noticed: an inference that comes to remember nothing under a key that is left over goes on as
if nothing were (`Session.infer_leftover`).

`Overlooks setting old s x` says this of a step. It holds of all that is composed of reads, changes
and the steps that remember, if only methods are registered (`Composes.overlooks`).
-/

namespace TypeFlow

/-! ### Memos with something left over -/

namespace OrderedMap
variable {κ ν : Type} [DecidableEq κ] {old m m' m'' : OrderedMap κ ν} {k : κ} {v : ν}

/-- `m'` has what `m` has, and what is left over under other keys. -/
def Over (old m m' : OrderedMap κ ν) : Prop := ∀ k, m'.get? k = (m.get? k).or (old.get? k)

/-- No key of `m` is left over. -/
def Apart (old m : OrderedMap κ ν) : Prop := ∀ k, m.get? k ≠ none → old.get? k = none

/-- All keys of `m` are keys of `m'`. -/
def KeysWithin (m m' : OrderedMap κ ν) : Prop := ∀ k, m.get? k ≠ none → m'.get? k ≠ none

theorem over_empty (old : OrderedMap κ ν) : Over old ∅ old := fun _ => rfl

theorem apart_of_keys (h : ∀ k ∈ m.keys, old.get? k = none) : old.Apart m :=
  fun k hk => h k (mem_keys.mpr hk)

theorem Over.get?_of_some (h : Over old m m') (hk : m.get? k = some v) :
    m'.get? k = some v := by rw [h k, hk]; rfl

theorem Over.get?_of_free (h : Over old m m') (hk : old.get? k = none) : m'.get? k = m.get? k := by
  rw [h k, hk, Option.or_none]

theorem Over.insert (h : Over old m m') (k : κ) (v : ν) :
    Over old (m.insert k v) (m'.insert k v) := by
  intro l
  rw [get?_insert, get?_insert]
  split
  · rfl
  · exact h l

theorem keysWithin_insert (m : OrderedMap κ ν) (k : κ) (v : ν) : m.KeysWithin (m.insert k v) := by
  intro l hl
  rw [get?_insert]
  split
  · exact Option.some_ne_none v
  · exact hl

theorem get?_insert_ne_none (m : OrderedMap κ ν) (k : κ) (v : ν) :
    (m.insert k v).get? k ≠ none := by
  rw [get?_insert_self]
  exact Option.some_ne_none v

end OrderedMap

namespace CallMemo
variable {old m m' m'' : CallMemo}

structure Over (old m m' : CallMemo) : Prop where
  instances : old.instances.Over m.instances m'.instances
  targets : old.targets.Over m.targets m'.targets
  values : old.values.Over m.values m'.values

structure Apart (old m : CallMemo) : Prop where
  instances : old.instances.Apart m.instances
  targets : old.targets.Apart m.targets
  values : old.values.Apart m.values

structure KeysWithin (m m' : CallMemo) : Prop where
  instances : m.instances.KeysWithin m'.instances
  targets : m.targets.KeysWithin m'.targets
  values : m.values.KeysWithin m'.values

theorem over_empty (old : CallMemo) : old.Over {} old :=
  ⟨OrderedMap.over_empty _, OrderedMap.over_empty _, OrderedMap.over_empty _⟩

theorem KeysWithin.refl (m : CallMemo) : m.KeysWithin m :=
  ⟨fun _ h => h, fun _ h => h, fun _ h => h⟩

theorem KeysWithin.trans (h : m.KeysWithin m') (h' : m'.KeysWithin m'') : m.KeysWithin m'' :=
  ⟨fun k hk => h'.instances k (h.instances k hk), fun k hk => h'.targets k (h.targets k hk),
    fun k hk => h'.values k (h.values k hk)⟩

theorem Apart.of_keysWithin (h : old.Apart m') (hm : m.KeysWithin m') : old.Apart m :=
  ⟨fun k hk => h.instances k (hm.instances k hk), fun k hk => h.targets k (hm.targets k hk),
    fun k hk => h.values k (hm.values k hk)⟩

end CallMemo

namespace Infer
variable {α β : Type} {setting : Setting} {old : CallMemo} {s s' : WalkState}

/-! ### Steps that overlook what is left over -/

/-- Unless the step comes to remember something under a key that is left over, it does the same as
if nothing were. -/
structure Overlooks (setting : Setting) (old : CallMemo) (s : WalkState) (x : Infer α) : Prop where
  within : s.memo.KeysWithin (x.outcome setting s).2.memo
  same : s.program.MethodsOnly → old.Apart (x.outcome setting s).2.memo → ∀ m, old.Over s.memo m →
    ∃ m', old.Over (x.outcome setting s).2.memo m' ∧
      x.outcome setting (s.withMemo m) =
        ((x.outcome setting s).1, (x.outcome setting s).2.withMemo m')

theorem overlooks_of_outcome {x : Infer α} {r : Except Failure α}
    (hout : x.outcome setting s = (r, s')) (hwithin : s.memo.KeysWithin s'.memo)
    (hsame : s.program.MethodsOnly → old.Apart s'.memo → ∀ m, old.Over s.memo m →
      ∃ m', old.Over s'.memo m' ∧ x.outcome setting (s.withMemo m) = (r, s'.withMemo m')) :
    Overlooks setting old s x := by
  constructor <;> rw [hout]
  · exact hwithin
  · exact hsame

/-- A step that neither asks nor changes what is remembered. -/
theorem overlooks_of_blind {x : Infer α} (hmemo : (x.outcome setting s).2.memo = s.memo)
    (hx : ∀ m, x.outcome setting (s.withMemo m) =
      ((x.outcome setting s).1, (x.outcome setting s).2.withMemo m)) :
    Overlooks setting old s x :=
  ⟨hmemo ▸ .refl _, fun _ _ m hm => ⟨m, hmemo ▸ hm, hx m⟩⟩

theorem Overlooks.bind {x : Infer α} {f : α → Infer β} (hx : Overlooks setting old s x)
    (hmethods : s.program.MethodsOnly → (x.outcome setting s).2.program.MethodsOnly)
    (hf : ∀ a s', x.Does setting s a s' → Overlooks setting old s' (f a)) :
    Overlooks setting old s (x >>= f) := by
  obtain ⟨hwithin, hsame⟩ := hx
  rcases hd : x.outcome setting s with ⟨e | a, s'⟩ <;> rw [hd] at hwithin hsame hmethods
  · refine overlooks_of_outcome (by rw [outcome_bind, hd]) hwithin fun hs hapart m hm => ?_
    obtain ⟨m', hm', hsame⟩ := hsame hs hapart m hm
    exact ⟨m', hm', by rw [outcome_bind, hsame]⟩
  · obtain ⟨hwithin', hsame'⟩ := hf a s' hd
    refine overlooks_of_outcome (by rw [outcome_bind, hd]) (hwithin.trans hwithin')
      fun hs hapart m hm => ?_
    obtain ⟨m₁, hm₁, hsame⟩ := hsame hs (hapart.of_keysWithin hwithin') m hm
    obtain ⟨m₂, hm₂, hsame'⟩ := hsame' (hmethods hs) hapart m₁ hm₁
    refine ⟨m₂, hm₂, ?_⟩
    rw [outcome_bind, hsame]
    exact hsame'

theorem Overlooks.mapError {x : Infer α} (h : Overlooks setting old s x)
    (f : Diagnostic → Diagnostic) : Overlooks setting old s (mapError f x) := by
  refine overlooks_of_outcome (outcome_mapError f x) h.within fun hs hapart m hm => ?_
  obtain ⟨m', hm', hsame⟩ := h.same hs hapart m hm
  exact ⟨m', hm', by rw [outcome_mapError, hsame]⟩

theorem Overlooks.inside {x : Infer α} (enter : Frame → Frame) (leave : Frame → Frame → Frame)
    (h : Overlooks setting old (s.withFrame (enter s.frame)) x) :
    Overlooks setting old s (Infer.within enter leave x) := by
  have hwithin : s.memo.KeysWithin _ := h.within
  refine overlooks_of_outcome (outcome_within enter leave x) hwithin fun hs hapart m hm => ?_
  obtain ⟨m', hm', hsame⟩ := h.same hs hapart m hm
  refine ⟨m', hm', (outcome_within enter leave x).trans ?_⟩
  exact congrArg (fun r : Except Failure α × WalkState =>
    (r.1, r.2.withFrame (leave s.frame r.2.frame))) hsame

theorem Overlooks.deeper {x : Infer α}
    (h : Overlooks setting old (atDepth s (s.program.expansionDepth + 1)) x) :
    Overlooks setting old s (inExpansion x) := by
  refine overlooks_of_outcome (outcome_inExpansion x) h.within fun hs hapart m hm => ?_
  obtain ⟨m', hm', hsame⟩ := h.same hs hapart m hm
  refine ⟨m', hm', (outcome_inExpansion x).trans ?_⟩
  exact congrArg (fun r : Except Failure α × WalkState =>
    (r.1, atDepth r.2 (r.2.program.expansionDepth - 1))) hsame

theorem overlooks_evaluateConstant {walk : Step} {reference : ExprId} {const : ConstantId}
    (hpending : (s.program.constant const).state = .pending)
    (h : Overlooks setting old (s.withProgram (s.program.beginConstant const))
      (walkValue walk (s.program.constant const))) :
    Overlooks setting old s (evaluateConstant walk reference const) := by
  refine overlooks_of_outcome (outcome_evaluateConstant reference hpending rfl) h.within
    fun hs hapart m hm => ?_
  obtain ⟨m', hm', hsame⟩ := h.same hs hapart m hm
  exact ⟨m', hm', outcome_evaluateConstant reference (s := s.withMemo m) hpending hsame⟩

/-! ### Steps that remember -/

theorem overlooks_knownValue (s : WalkState) (type : TypeId) :
    Overlooks setting old s (knownValue type) := by
  rcases hvalue : s.memo.values.get? type with _ | node
  · refine overlooks_of_outcome (outcome_knownValue_of_none hvalue)
      ⟨fun _ h => h, fun _ h => h, OrderedMap.keysWithin_insert _ _ _⟩ fun _ hapart m hm => ?_
    have hfree : old.values.get? type = none :=
      hapart.values type (OrderedMap.get?_insert_ne_none _ _ _)
    refine ⟨{ m with values := m.values.insert type (s.program.addValue type).1 },
      ⟨hm.instances, hm.targets, hm.values.insert type _⟩, ?_⟩
    exact outcome_knownValue_of_none (s := s.withMemo m)
      ((hm.values.get?_of_free hfree).trans hvalue)
  · refine overlooks_of_outcome (outcome_knownValue_of_some hvalue)
      (.refl _) fun _ _ m hm => ⟨m, hm, ?_⟩
    exact outcome_knownValue_of_some (s := s.withMemo m) (hm.values.get?_of_some hvalue)

theorem overlooks_rebind (s : WalkState) (call : ExprId) (targets : List NodeId) :
    Overlooks setting old s (rebind call targets) := by
  by_cases htargets : s.memo.targets.get? call = some targets
  · refine overlooks_of_outcome (outcome_rebind_of_eq htargets)
      (.refl _) fun _ _ m hm => ⟨m, hm, ?_⟩
    exact outcome_rebind_of_eq (s := s.withMemo m) (hm.targets.get?_of_some htargets)
  · have hbind : ∀ s', (mapError (Diagnostic.placedAt (s.program.location call))
        (bind (s.program.nodeOf call) targets)).outcome setting s' = _ := fun s' => by
      rw [outcome_mapError, Infer.bind, outcome_onNetwork]
    refine overlooks_of_outcome ((outcome_rebind_of_ne htargets).trans (hbind _))
      ⟨fun _ h => h, OrderedMap.keysWithin_insert _ _ _, fun _ h => h⟩ fun _ hapart m hm => ?_
    have hfree : old.targets.get? call = none :=
      hapart.targets call (OrderedMap.get?_insert_ne_none _ _ _)
    have hprevious : m.targets.get? call = s.memo.targets.get? call := hm.targets.get?_of_free hfree
    refine ⟨{ m with targets := m.targets.insert call targets },
      ⟨hm.instances, hm.targets.insert call targets, hm.values⟩, ?_⟩
    rw [outcome_rebind_of_ne (s := s.withMemo m) fun h => htargets (hprevious ▸ h)]
    refine (hbind _).trans ?_
    unfold unbound
    rw [show (s.withMemo m).memo.targets.get? call = s.memo.targets.get? call from hprevious]
    rfl

section
variable {walk : Step} {call : ExprId} {key : MethodInstance}

theorem overlooks_recalled {result : NodeId} (h : s.memo.instances.get? key = some result) :
    Overlooks setting old s
      (methodResult walk call key.owner key.definition key.args key.block) := by
  refine overlooks_of_outcome (outcome_methodResult_of_some h) (.refl _) fun _ _ m hm => ⟨m, hm, ?_⟩
  exact outcome_methodResult_of_some (s := s.withMemo m) (hm.instances.get?_of_some h)

theorem overlooks_methodResult {receiver : Option ExprId} {name : String} {params : List String}
    {body returnType : Option ExprId} {blockParam : Option (BlockParam ExprId)}
    (hnone : s.memo.instances.get? key = none)
    (hc : s.program.construct key.definition = .methodDef receiver name params body
      returnType blockParam)
    (h : Overlooks setting old (s.recording key)
      (typeInstance walk call key s.program.addVar.1 name params body returnType blockParam)) :
    Overlooks setting old s
      (methodResult walk call key.owner key.definition key.args key.block) := by
  have hrecorded : s.memo.KeysWithin (s.recording key).memo :=
    ⟨OrderedMap.keysWithin_insert _ _ _, fun _ h => h, fun _ h => h⟩
  refine overlooks_of_outcome (outcome_methodResult_of_none hnone hc) (hrecorded.trans h.within)
    fun hs hapart m hm => ?_
  have hfree : old.instances.get? key = none :=
    (hapart.of_keysWithin h.within).instances key (OrderedMap.get?_insert_ne_none _ _ _)
  obtain ⟨m', hm', hsame⟩ :=
    h.same hs hapart { m with instances := m.instances.insert key s.program.addVar.1 }
    ⟨hm.instances.insert key _, hm.targets, hm.values⟩
  refine ⟨m', hm', ?_⟩
  refine (outcome_methodResult_of_none (s := s.withMemo m)
    ((hm.instances.get?_of_free hfree).trans hnone) hc).trans ?_
  exact congrArg (fun r : Except Failure Unit × WalkState =>
    (r.1.map fun _ => s.program.addVar.1, r.2)) hsame

/-- There is no such step where only methods are registered. -/
theorem overlooks_stray (hnone : s.memo.instances.get? key = none)
    (hregistered : ∃ owner name, (s.program.types.get owner).defs.get? name = some key.definition)
    (hc : ∀ receiver name params body returnType blockParam,
      s.program.construct key.definition ≠ .methodDef receiver name params body
      returnType blockParam) :
    Overlooks setting old s
      (methodResult walk call key.owner key.definition key.args key.block) := by
  refine overlooks_of_outcome (outcome_methodResult_of_stray hnone hc) (.refl _) fun hs _ m hm => ?_
  obtain ⟨owner, name, hregistered⟩ := hregistered
  have hmethod := hs owner name _ hregistered
  cases hconstruct : s.program.construct key.definition with
  | methodDef => exact (hc _ _ _ _ _ _ hconstruct).elim
  | _ => rw [hconstruct] at hmethod; cases hmethod

theorem overlooks_expanderFor (s : WalkState) (definition : ExprId) (args : List ExprId) :
    Overlooks setting old s (expanderFor definition args) := by
  rcases hkept : s.session.expanders.get? (keyOf s.program definition args) with _ | expander
  · refine overlooks_of_outcome (outcome_expanderFor_of_none hkept)
      (.refl _) fun _ _ m hm => ⟨m, hm, ?_⟩
    exact outcome_expanderFor_of_none (s := s.withMemo m) hkept
  · refine overlooks_of_outcome (outcome_expanderFor_of_some hkept)
      (.refl _) fun _ _ m hm => ⟨m, hm, ?_⟩
    exact outcome_expanderFor_of_some (s := s.withMemo m) hkept

theorem overlooks_expand (s : WalkState) (expander : Expander) :
    Overlooks setting old s (expand expander call) := by
  refine overlooks_of_outcome (outcome_expand expander) (.refl _) fun _ _ m hm => ⟨m, hm, ?_⟩
  exact outcome_expand (s := s.withMemo m) expander

end

/-- By induction on what the step is composed of. -/
theorem Composes.overlooks {stage : Stage} {x : Infer α} (h : Composes setting stage s x)
    (htidy : setting.tools.Tidy) : Overlooks setting old s x := by
  induction h with
  | pure | throw | frame | fresh | journal => exact overlooks_of_blind rfl fun _ => rfl
  | read hreads _ ih =>
    rename_i s x f a _
    have hout : ∀ m, (x >>= f).outcome setting (s.withMemo m) =
        (f a).outcome setting (s.withMemo m) := fun m => by
      rw [outcome_bind, hreads m]
    have hs : (x >>= f).outcome setting s = (f a).outcome setting s := hout s.memo
    refine overlooks_of_outcome hs ih.within fun hmethods hapart m hm => ?_
    rw [hout m]
    exact ih.same hmethods hapart m hm
  | bind hx _ ihx ihf => exact ihx.bind (hx.relates htidy (relates_methodsOnly htidy)) ihf
  | declaration _ hx _ ih =>
    refine ih.bind (hx.relates htidy (relates_methodsOnly htidy)) fun _ _ _ =>
      overlooks_of_blind rfl fun _ => rfl
  | mapError _ _ ih => exact ih.mapError _
  | within enter leave _ _ ih => exact ih.inside enter leave
  | phase _ ih | breaks _ ih | loop _ ih => exact ih
  | update | marks | normalize => exact overlooks_of_blind rfl fun _ => rfl
  | value s type => exact overlooks_knownValue s type
  | rebind s call targets => exact overlooks_rebind s call targets
  | recalled hinstance => exact overlooks_recalled hinstance
  | «instance» hnone hc _ ih => exact overlooks_methodResult hnone hc ih
  | stray hnone hregistered hc => exact overlooks_stray hnone hregistered hc
  | evaluation hpending _ ih => exact overlooks_evaluateConstant hpending ih
  | expander s definition args => exact overlooks_expanderFor s definition args
  | expand => exact overlooks_expand _ _
  | deeper _ _ ih => exact ih.deeper

/-! ### Inference of a program -/

/-- The phase of the constants as a step. -/
def unreadConstants (options : Options) : Infer Unit :=
  if options.inferUnreadConstants then evaluateRemaining (walk depthBudget) else pure ()

/-- The last phase as a step. -/
def settled (options : Options) (root : ExprId) : Infer Inferred :=
  updateProgram fun p =>
    let (fixedNodes, p) := p.settleUntyped
    let stats : RunStats :=
      { expressions := p.exprs.size, nodes := p.graph.size, types := p.types.size, fixedNodes }
    ({ root, stats := if options.stats then some stats else none }, p)

/-- All phases as one step, which comes back to the top level between them. -/
def inference (options : Options) (tree : Tree) : Infer Inferred := do
  let root ← lowerTree tree
  modifyFrame fun _ => {}
  walk depthBudget root
  modifyFrame fun _ => {}
  unreadConstants options
  modifyFrame fun _ => {}
  settled options root

theorem composed_inference (options : Options) (tree : Tree) :
    Composes setting .between s (inference options tree) := by
  refine (Composes.phase (composed_lowerTree tree)).bind fun root _ _ =>
    (Composes.fresh _).bind fun _ _ _ => ?_
  refine (Composes.phase (composed_walk depthBudget root _)).bind fun _ _ _ =>
    (Composes.fresh _).bind fun _ s _ => ?_
  have hconstants : Composed setting s (unreadConstants options) := by
    unfold unreadConstants
    split
    · exact composed_evaluateRemaining fun id s => composed_walk depthBudget id s
    · exact .pure _ _
  refine hconstants.phase.bind fun _ _ _ => (Composes.fresh _).bind fun _ s _ => ?_
  exact composed_change (.settle s) rfl rfl rfl rfl rfl (.refl _)

end Infer

namespace Phase
open Infer
variable {α β : Type} {setting : Setting}

theorem ofStep_bind (x : Infer α) (f : α → Infer β) :
    (ofStep setting x >>= fun a => ofStep setting (f a)) =
    ofStep setting (x >>= fun a => modifyFrame (fun _ => {}) >>= fun _ => f a) := by
  funext s
  show (ExceptT.run (ofStep setting x >>= fun a => ofStep setting (f a))).run s =
    (((x >>= fun a => modifyFrame (fun _ => {}) >>= fun _ => f a).outcome setting ⟨s, {}⟩).1,
      ((x >>= fun a => modifyFrame (fun _ => {}) >>= fun _ => f a).outcome
        setting ⟨s, {}⟩).2.session)
  rw [WalkState.Reached.run_bind_phase, show (ExceptT.run (ofStep setting x)).run s =
    ((x.outcome setting ⟨s, {}⟩).1, (x.outcome setting ⟨s, {}⟩).2.session) from rfl, outcome_bind]
  rcases x.outcome setting ⟨s, {}⟩ with ⟨e | a, s'⟩ <;> rfl

theorem all_eq_ofStep (tree : Tree) :
    all setting tree = ofStep setting (inference setting.options tree) := by
  have hconstants : constants setting = ofStep setting (unreadConstants setting.options) := by
    unfold constants unreadConstants
    split <;> rfl
  show (ofStep setting (lowerTree tree) >>= fun root =>
    ofStep setting (Infer.walk depthBudget root) >>= fun _ =>
    constants setting >>= fun _ => ofStep setting (settled setting.options root)) = _
  simp only [hconstants, ofStep_bind]
  rfl

end Phase

namespace Session
open Infer
variable {setting : Setting}

theorem infer_eq_inference (s : Session) (tree : Tree) : s.infer setting tree =
    (((inference setting.options tree).outcome setting ⟨s, {}⟩).1,
      ((inference setting.options tree).outcome setting ⟨s, {}⟩).2.session) := by
  unfold infer
  rw [Phase.all_eq_ofStep]
  rfl

/-- Whatever is left over from inferences of other programs: if the inference of a tree on a new
program, with nothing left over, comes to remember nothing under the same keys, then with that left
over it ends in the same way, with the same result or error, and leaves the same program. -/
theorem infer_leftover (htidy : setting.tools.Tidy) (old : CallMemo) (tree : Tree)
    (hapart : old.Apart (({} : Session).infer setting tree).2.memo) :
    ∃ m, old.Over (({} : Session).infer setting tree).2.memo m ∧
      ({ memo := old } : Session).infer setting tree =
        ((({} : Session).infer setting tree).1,
          { (({} : Session).infer setting tree).2 with memo := m }) := by
  rw [infer_eq_inference] at hapart
  have hoverlooks : Overlooks setting old ⟨{}, {}⟩ (inference setting.options tree) :=
    (composed_inference setting.options tree).overlooks htidy
  obtain ⟨m, hm, hsame⟩ := hoverlooks.same Program.methodsOnly_initial hapart old old.over_empty
  refine ⟨m, (infer_eq_inference {} tree).symm ▸ hm, ?_⟩
  rw [infer_eq_inference, infer_eq_inference]
  exact congrArg (fun r : Except Failure Inferred × WalkState => (r.1, r.2.session)) hsame

/-- A method without parameters and a call of it, after `count` statements that do nothing. -/
def defining (count : Nat) (name : String) (value : Tree) : Tree :=
  .sequence
    (List.replicate count (.bare .nop) ++ [.methodDef name [] (some value), .call none name []])

def plain : Setting := ⟨.standard, {}⟩

/-- After `f` of one program, `g` of another one is found where it should be. -/
theorem infer_leftover_shifted :
    ∃ m, ({ memo := (({} : Session).infer plain (defining 2 "f" (.int32 1))).2.memo } :
        Session).infer plain (defining 0 "g" (.char 'c')) =
      ((({} : Session).infer plain (defining 0 "g" (.char 'c'))).1,
        { (({} : Session).infer plain (defining 0 "g" (.char 'c'))).2 with memo := m }) ∧
      (({} : Session).infer plain (defining 0 "g" (.char 'c'))).2.typeNameOf ⟨2⟩ = some "Char" := by
  have hapart : (({} : Session).infer plain (defining 2 "f" (.int32 1))).2.memo.Apart
      (({} : Session).infer plain (defining 0 "g" (.char 'c'))).2.memo := by
    constructor <;> refine OrderedMap.apart_of_keys ?_ <;> decide +kernel
  obtain ⟨m, -, hsame⟩ :=
    infer_leftover Toolchain.tidy_standard _ (defining 0 "g" (.char 'c')) hapart
  exact ⟨m, hsame, by decide +kernel⟩

/-- What is left over from a program is noticed by the same program, started anew: its call finds a
result of the method remembered, and remembers that it is bound to it, and so gets no type. -/
theorem leftover_noticed : ¬ ∀ (earlier tree : Tree) (id : ExprId),
    (({ memo := (({} : Session).infer plain earlier).2.memo } :
        Session).infer plain tree).2.typeNameOf id =
      (({} : Session).infer plain tree).2.typeNameOf id := by
  intro h
  have hcall := h (defining 0 "f" (.int32 1)) (defining 0 "f" (.int32 1)) ⟨2⟩
  revert hcall
  decide +kernel

end Session

end TypeFlow
