import TypeFlow.Inference.JsonToolchain
import TypeFlow.Proofs.Flow.Single
import TypeFlow.Proofs.Inference.Course.Formed
import TypeFlow.Proofs.Inference.Composed.Walk
import TypeFlow.Proofs.Inference.Finished
import TypeFlow.Proofs.Inference.Restored.Walk

/-!
# Generated code in its place

Where generated code is JSON, a call of a macro stands for the tree that the macro's body spells. To
walk the call is to walk this tree in its place, as part of one more expansion, and to give its type
to the call (`WalkState.walk_expands`). The expander that is kept for such calls writes the text of
the body whenever it was built (`Course.spells`). But the call remains a call: it proves nothing as
a condition, whatever the tree proves, and it assigns to no variables
(`WalkState.branching_differs`).
-/

namespace TypeFlow

/-! ### Expanders -/

/-- Without arguments the calls of a macro expand to a text: the text of its body, which the
expander that may be kept for them was built from. -/
structure Session.Spells (s : Session) (definition : ExprId) (text : String) : Prop where
  template : Toolchain.template? s.program definition = some text
  kept : ∀ expander, s.expanders.get? ⟨definition, []⟩ = some expander →
    expander = Toolchain.expandTemplate (some text)

theorem Toolchain.template?_eq_some {p : Program} {definition : ExprId} {text : String} :
    template? p definition = some text ↔ ∃ receiver name params body,
      p.construct definition = .macroDef receiver name params (some body) ∧
      p.construct body = .stringLiteral text := by
  unfold template?
  split
  · rename_i hc
    split
    · rename_i hbody
      rw [hc]
      constructor
      · rintro ⟨⟩; exact ⟨_, _, _, _, rfl, hbody⟩
      · rintro ⟨_, _, _, _, ⟨⟩, h⟩
        cases hbody.symm.trans h; rfl
    · rename_i hbody
      refine iff_of_false nofun ?_
      rintro ⟨_, _, _, _, h, hbody'⟩
      cases hc.symm.trans h
      exact hbody _ hbody'
  · rename_i hc
    refine iff_of_false nofun ?_
    rintro ⟨_, _, _, _, h, -⟩
    exact hc _ _ _ _ h

namespace Infer
variable {s s' : WalkState} {deed : Deed} {deeds : List Deed} {definition : ExprId} {text : String}

theorem Change.spells (h : Change {.json} deed s s') (hs : s.session.Spells definition text) :
    s'.session.Spells definition text := by
  have htemplate : Toolchain.template? s'.program definition = some text := by
    obtain ⟨receiver, name, params, body, hc, hbody⟩ := Toolchain.template?_eq_some.mp hs.template
    exact Toolchain.template?_eq_some.mpr
      ⟨receiver, name, params, body, h.later.construct_eq hc nofun nofun,
      h.later.construct_eq hbody nofun nofun⟩
  refine ⟨htemplate, ?_⟩
  cases h with
  | expander _ key hused =>
    intro expander hkept
    rw [OrderedMap.get?_insert] at hkept
    split at hkept
    · rename_i hkey
      cases hkept
      cases hkey
      cases Set.mem_singleton_iff.mp hused
      exact congrArg Toolchain.expandTemplate hs.template
    · exact hs.kept expander hkept
  | _ => exact hs.kept

theorem Course.spells (h : Course {.json} s deeds s') (hs : s.session.Spells definition text) :
    s'.session.Spells definition text := by
  induction h with
  | nil => exact hs
  | cons hchange _ ih => exact ih (hchange.spells hs)

end Infer

/-! ### What the tools are asked -/

namespace WalkState

/-- The session may keep other things of its tools, and that is all. -/
structure SameWork (s s' : WalkState) : Prop where
  program : s'.program = s.program
  memo : s'.memo = s.memo
  frame : s'.frame = s.frame

variable {s s' s'' : WalkState}

theorem SameWork.refl (s : WalkState) : s.SameWork s := ⟨rfl, rfl, rfl⟩

theorem SameWork.trans (h : s.SameWork s') (h' : s'.SameWork s'') : s.SameWork s'' :=
  ⟨h'.program.trans h.program, h'.memo.trans h.memo, h'.frame.trans h.frame⟩

end WalkState

namespace Infer
variable {α β : Type} {options : Options} {setting : Setting} {s : WalkState} {x : Infer α}
  {f : α → Infer β} {a : α}
  {b : β} {definition : ExprId} {text : String} {tree : Tree}

/-- The step is carried through with this answer, and only asks the tools for something. -/
def Asks (setting : Setting) (s : WalkState) (x : Infer α) (a : α) : Prop :=
  ∃ m, x.outcome setting s = (.ok a, m) ∧ s.SameWork m

theorem asks_pure (a : α) : Asks setting s (pure a) a := ⟨s, rfl, .refl s⟩

theorem asks_modifyJournal (g : Journal → Journal) : Asks setting s (modifyJournal g) () :=
  ⟨_, rfl, rfl, rfl, rfl⟩

theorem Asks.bind (hx : Asks setting s x a) (hf : ∀ m, s.SameWork m → Asks setting m (f a) b) :
    Asks setting s (x >>= f) b := by
  obtain ⟨m, hdoes, hm⟩ := hx
  obtain ⟨m', hdoes', hm'⟩ := hf m hm
  exact ⟨m', by rw [outcome_bind, hdoes]; exact hdoes', hm.trans hm'⟩

theorem asks_read (h : x.outcome setting s = (.ok a, s)) (hf : Asks setting s (f a) b) :
    Asks setting s (x >>= f) b := by
  obtain ⟨m, hdoes, hm⟩ := hf
  exact ⟨m, by rw [outcome_bind, h]; exact hdoes, hm⟩

theorem asks_expanderFor (hs : s.session.Spells definition text) :
    Asks ⟨.json, options⟩ s (expanderFor definition []) (Toolchain.expandTemplate (some text)) := by
  refine asks_read outcome_get ?_
  dsimp only
  split
  · rename_i hkept
    rw [hs.kept _ hkept]
    exact asks_pure _
  · refine asks_read outcome_read ((asks_modifyJournal _).bind fun m _ => ?_)
    refine Asks.bind (a := ()) ⟨_, rfl, rfl, rfl, rfl⟩ fun m' _ => ?_
    rw [← hs.template]
    exact asks_pure _

theorem asks_expand (call : ExprId) :
    Asks setting s (expand (Toolchain.expandTemplate (some text)) call) text :=
  (asks_modifyJournal _).bind fun _ _ => asks_read outcome_program (asks_pure text)

theorem asks_parseGenerated (htree : Tree.ofJson? text = some tree) (file : String) :
    Asks ⟨.json, options⟩ s (parseGenerated text file) tree := by
  refine asks_read outcome_frame ((asks_modifyJournal _).bind fun _ _ => asks_read outcome_read ?_)
  have hparse : Toolchain.json.parse text file s.frame.vars.keys = .ok tree := by
    show Toolchain.parseJson text file = .ok tree
    rw [Toolchain.parseJson, htree]
  rw [hparse]
  exact asks_pure tree

end Infer

/-! ### The tree in the place of the call -/

namespace WalkState

/-- The state in which a tree is in place, as part of one more expansion. -/
def holding (s : WalkState) (tree : Tree) : WalkState :=
  s.withProgram { (s.program.lower tree).2 with expansionDepth := s.program.expansionDepth + 1 }

/-- The state after an expansion: it has been noted what was generated for the call. -/
def expanded (s : WalkState) (call generated : ExprId) : WalkState :=
  s.withProgram { s.program with
    expansionDepth := s.program.expansionDepth - 1
    expansions := s.program.expansions.insert call generated }

end WalkState

namespace Infer
variable {options : Options} {setting : Setting} {walk : Step} {s s' : WalkState}
  {call definition : ExprId}
  {name text : String} {tree : Tree}

theorem does_lowerTree {root : ExprId} : (lowerTree tree).Does setting s root s' ↔
    (s.program.lower tree).1 = .ok root ∧ s' = s.withProgram (s.program.lower tree).2 := by
  unfold lowerTree
  rw [does_bind_of_ok (outcome_updateProgram _)]
  rcases (s.program.lower tree).1 with e | lowered
  · exact iff_of_false nofun nofun
  · rw [does_pure]
    exact ⟨fun ⟨h, h'⟩ => ⟨congrArg _ h, h'.symm⟩, fun ⟨h, h'⟩ => ⟨Except.ok.inj h, h'.symm⟩⟩

theorem does_inExpansion {x : Infer Unit} : (inExpansion x).Does setting s () s' ↔
    ∃ m, x.Does setting (atDepth s (s.program.expansionDepth + 1)) () m ∧
      s' = atDepth m (m.program.expansionDepth - 1) := by
  rw [Does, outcome_inExpansion]
  unfold Does
  rcases x.outcome setting (atDepth s (s.program.expansionDepth + 1)) with ⟨_ | ⟨⟩, m⟩
  · constructor
    · rintro ⟨⟩
    · rintro ⟨_, ⟨⟩, -⟩
  · constructor
    · rintro ⟨⟩; exact ⟨m, rfl, rfl⟩
    · rintro ⟨_, ⟨⟩, rfl⟩; rfl

theorem does_typeExpansion (options : Options) (walk : Step) (s : WalkState)
    (htree : Tree.ofJson? text = some tree) (file : String) :
    ∃ σ, (s.holding tree).SameWork σ ∧ ∀ generated s',
      (typeExpansion walk text file).Does ⟨.json, options⟩ s generated s' ↔
        (s.program.lower tree).1 = .ok generated ∧
        ∃ σ', (walk generated).Does ⟨.json, options⟩ σ () σ' ∧
          s' = atDepth σ' (σ'.program.expansionDepth - 1) := by
  have hasks : Asks ⟨.json, options⟩ s (parseGenerated text file) tree :=
    asks_parseGenerated htree file
  obtain ⟨m, hparse, hm⟩ := hasks
  have hdepth : (m.program.lower tree).2.expansionDepth = s.program.expansionDepth := by
    rw [hm.program, (s.program.adds_lower tree).1.expansionDepth_eq]
  refine ⟨atDepth (m.withProgram (m.program.lower tree).2) (s.program.expansionDepth + 1),
    ⟨?_, hm.memo, hm.frame⟩, fun generated s' => ?_⟩
  · show { (m.program.lower tree).2 with expansionDepth := s.program.expansionDepth + 1 } = _
    rw [hm.program]
    rfl
  unfold typeExpansion
  rw [does_bind_of_ok hparse, does_bind_of_ok outcome_read,
    does_bind_of_ok (outcome_updateProgram _)]
  show (lowerTree tree >>= fun generated => inExpansion (walk generated) >>= fun _ =>
    pure generated).Does _ m _ _ ↔ _
  rw [does_bind]
  constructor
  · rintro ⟨root, m', hlower, hrest⟩
    obtain ⟨hroot, rfl⟩ := does_lowerTree.mp hlower
    obtain ⟨⟨⟩, m', hexpansion, hend⟩ := does_bind.mp hrest
    obtain ⟨rfl, rfl⟩ := does_pure.mp hend
    obtain ⟨σ', hwalk, rfl⟩ := does_inExpansion.mp hexpansion
    rw [WalkState.withProgram_program, hdepth] at hwalk
    exact ⟨hm.program ▸ hroot, σ', hwalk, rfl⟩
  · rintro ⟨hroot, σ', hwalk, rfl⟩
    refine ⟨generated, _, does_lowerTree.mpr ⟨hm.program ▸ hroot, rfl⟩, ?_⟩
    refine does_bind.mpr ⟨(), _, does_inExpansion.mpr ⟨σ', ?_, rfl⟩, does_pure.mpr ⟨rfl, rfl⟩⟩
    rwa [WalkState.withProgram_program, hdepth]

/-- The call of a macro that is JSON is the walk of its tree, the type of which is then the
call's. -/
theorem does_expandCall (walk : Step) (call : ExprId) (name : String)
    (hs : s.session.Spells definition text) (htree : Tree.ofJson? text = some tree)
    (hdepth : s.program.expansionDepth < options.maxExpansionDepth) :
    ∃ σ, (s.holding tree).SameWork σ ∧ ∀ s', (expandCall walk call definition name []).Does
        ⟨.json, options⟩ s () s' ↔
      ∃ generated σ', (s.program.lower tree).1 = .ok generated ∧
      (walk generated).Does ⟨.json, options⟩ σ () σ' ∧
        (deriveFrom call [σ'.program.nodeOf generated]).Does ⟨.json, options⟩
          (σ'.expanded call generated) () s' := by
  have hfor : Asks ⟨.json, options⟩ s (expanderFor definition []) _ := asks_expanderFor hs
  obtain ⟨m₁, hexpander, hm₁⟩ := hfor
  have htext : Asks ⟨.json, options⟩ m₁ (expand _ call) text := asks_expand call
  obtain ⟨m₂, hexpand, hm₂⟩ := htext
  obtain ⟨σ, hσ, hexpansion⟩ := does_typeExpansion options walk m₂ htree s!"expanded macro {name}"
  have hm := hm₁.trans hm₂
  have hholding : (s.holding tree).SameWork (m₂.holding tree) := by
    refine ⟨?_, hm.memo, hm.frame⟩
    unfold WalkState.holding
    rw [hm.program]
    rfl
  refine ⟨σ, hholding.trans hσ, fun s' => ?_⟩
  unfold expandCall
  rw [does_bind_of_ok outcome_read, does_bind_of_ok outcome_program]
  dsimp only
  rw [if_neg (Nat.not_le.mpr hdepth), does_bind_of_ok hexpander, does_bind_of_ok hexpand,
    does_bind_of_ok (outcome_locationOf call), does_bind]
  constructor
  · rintro ⟨generated, m', hgenerated, hrest⟩
    obtain ⟨hroot, σ', hwalk, rfl⟩ := (hexpansion generated m').mp (does_mapError.mp hgenerated)
    rw [does_bind_of_ok (outcome_modifyProgram _),
      does_bind_of_ok (outcome_nodeOf generated)] at hrest
    exact ⟨generated, σ', hm.program ▸ hroot, hwalk, hrest⟩
  · rintro ⟨generated, σ', hroot, hwalk, hderive⟩
    refine ⟨generated, _,
      does_mapError.mpr ((hexpansion generated _).mpr ⟨hm.program ▸ hroot, σ', hwalk, rfl⟩), ?_⟩
    rw [does_bind_of_ok (outcome_modifyProgram _), does_bind_of_ok (outcome_nodeOf generated)]
    exact hderive

end Infer

namespace WalkState

/-- The state `m` comes after `σ`, in which generated code has been walked, and its type has been
given to the call. Other types only change if something has been bound to the call before; no
expression proves more than it did, and the variables are the same. -/
structure StandsFor (m : WalkState) (call generated : ExprId) (σ : WalkState) : Prop where
  recorded : m.program.expansions.get? call = some generated
  dependencies : (m.program.graph.node (m.program.nodeOf call)).dependencies =
    [m.program.nodeOf generated]
  typeOf_eq : m.program.typeOf call = m.program.typeOf generated
  others : (∀ o ∈ (σ.program.graph.node (σ.program.nodeOf call)).observers, ∃ waiting,
    o = .call waiting) →
    ∀ node, node ≠ σ.program.nodeOf call → m.program.graph.typeOf node = σ.program.graph.typeOf node
  guardOf_eq : ∀ id, m.program.guardOf id = σ.program.guardOf id
  frame_eq : m.frame = σ.frame

end WalkState

namespace Infer
variable {options : Options} {setting : Setting} {s s' m σ σ' : WalkState} {L : List Duty}
  {call generated : ExprId}
  {name text : String} {tree : Tree} {fuel : Nat}

theorem intact_calling (hs : s.Intact [] (.whole call :: L))
    (hc : s.program.construct call = .call none name [] none) :
    (s.calling call).Intact [] (.single call :: L) := by
  have hparts : s.Intact [] (.single call :: L) := by
    have hunfold := hs.duties hs.program.unfold
    rwa [hc] at hunfold
  have hleaves : Leaves ⟨.json, {}⟩ s typeOfSelf [] _ InTable := leaves_typeOfSelf hparts
  obtain ⟨-, hself, hlt⟩ := hleaves.does _ _ outcome_typeOfSelf
  obtain ⟨hl, hp⟩ := hself.program.noteScope call hlt
  exact hself.withProgram hl hp

theorem intact_holding (hs : s.Intact [] L) (hlower : (s.program.lower tree).1 = .ok generated)
    (hσ : (s.holding tree).SameWork σ) :
    s.program.Later σ.program ∧ σ.Intact [] (.whole generated :: L) := by
  have hleaves : Leaves ⟨.json, {}⟩ s (lowerTree tree) [] _ _ := leaves_lowerTree hs tree
  obtain ⟨hlater, -, hroot⟩ := hleaves.does _ _ (does_lowerTree.mpr ⟨hlower, rfl⟩)
  obtain ⟨hl, hp⟩ := hroot.program.note (.expansionDepth _ (s.program.expansionDepth + 1))
  obtain ⟨hprogram, hframe, hmemo⟩ := hroot.withProgram hl hp
  refine ⟨hσ.program ▸ hlater.trans hl, hσ.program ▸ hprogram, ?_, ?_⟩
  · rw [hσ.program, hσ.frame]; exact hframe
  · rw [hσ.program, hσ.memo]; exact hmemo

theorem formed_holding (hs : s.program.Formed) (hσ : ((s.calling call).holding tree).SameWork σ) :
    σ.program.Formed := by
  have hcalling : (s.calling call).program.Formed := ⟨hs.lt, hs.derivation⟩
  have hgrows : (∃ deeds, Course .univ (s.calling call) deeds _) ∧ _ :=
    course_grows ((s.calling call).program.adds_lower tree).1.grows
  obtain ⟨⟨deeds, hcourse⟩, -⟩ := hgrows
  have hlowered := hcourse.formed hcalling
  rw [hσ.program]
  exact ⟨hlowered.lt, hlowered.derivation⟩

/-- A call of which nothing has been derived before gets the type of what was generated for it. -/
theorem standsFor_of_deriveFrom (hs : σ.Intact [] (.done generated :: .single call :: L))
    (hformed : σ.program.Formed) (hc : σ.program.construct call = .call none name [] none)
    (hd : (deriveFrom call [σ.program.nodeOf generated]).Does setting
      (σ.expanded call generated) () m) :
    m.StandsFor call generated σ := by
  have hcall : σ.Intact [] (.single call :: L) := hs.tail
  have hvacant := (hcall.program.awaits.idle call ⟨.single call, by simp, trivial, rfl⟩).vacant
  have hne := hs.program.avoids_done call ⟨.single call, by simp, trivial, rfl⟩
  have hnoted : (σ.expanded call generated).Intact [] (.done call :: L) := by
    obtain ⟨hl, hp⟩ := hcall.finish.program.note (.expansionDepth _ (σ.program.expansionDepth - 1))
    obtain ⟨hl', hp'⟩ := hp.note (.expansion _ call generated)
    exact hcall.finish.withProgram (hl.trans hl') hp'
  have hdeps : ∀ d ∈ [σ.program.nodeOf generated],
      d.index < (σ.expanded call generated).program.graph.size :=
    List.forall_mem_singleton.mpr (hs.program.node_lt hs.has)
  obtain ⟨-, hm, -⟩ := (leaves_deriveFrom hnoted hdeps).does () m hd
  have hlawful : m.program.toNetwork.Lawful (m.program.nodeOf call) :=
    (hm.program.orderly.steady _).resolve_right nofun
  rw [deriveFrom, does_bind_of_ok (outcome_nodeOf call)] at hd
  obtain ⟨n, hbind, rfl⟩ := does_onNetwork.mp hd
  have hderivation : (σ.program.graph.node (σ.program.nodeOf call)).derivation = .identity := by
    rw [hformed.derivation call hcall.has, hc]
    rfl
  obtain ⟨hdependencies, htype⟩ :=
    Binding.typeOf_bind_vacant hvacant (hcall.program.node_lt hcall.has) hderivation hbind hlawful
  have hguards := Network.SameGuards.outcome_bindNode (σ.expanded call generated).program.toNetwork
    (σ.program.nodeOf call) [σ.program.nodeOf generated]
  rw [show (Binding.bind (σ.program.nodeOf call) _).outcome _ = (.ok (), n) from hbind] at hguards
  refine ⟨OrderedMap.get?_insert_self .., hdependencies, htype, fun hcalls _ => ?_,
    fun id => hguards _, rfl⟩
  exact Binding.typeOf_bind_of_ne hne.symm hcalls hbind

theorem does_walk_succ_iff : (Infer.walk (fuel + 1) call).Does setting s () s' ↔
    ∃ m, (walkConstruct (Infer.walk fuel) call (s.program.construct call)).Does setting s () m ∧
      (resolvePending (Infer.walk fuel) fuel).Does setting m () s' := by
  rw [Infer.walk, does_bind_of_ok (outcome_construct call),
    does_bind_of_ok (outcome_locationOf call), does_bind]
  constructor
  · rintro ⟨_, m, h, h'⟩
    exact ⟨m, does_mapError.mp h, h'⟩
  · rintro ⟨m, h, h'⟩
    exact ⟨(), m, does_mapError.mpr h, h'⟩

theorem state_macroFor (receiver : Option ExprId) (args : List ExprId) :
    ((macroFor receiver name args).outcome setting s).2 = s := by
  unfold macroFor nameScope
  split
  · rfl
  · rw [outcome_bind, outcome_types]
    dsimp only
    rw [outcome_bind, outcome_bind, outcome_frame]
    dsimp only
    cases s.frame.scope <;> rfl

theorem does_walkCall {walk : Step} {definition : ExprId}
    (hfound : (macroFor none name []).Does setting (s.calling call)
      (some definition) (s.calling call)) :
    (walkCall walk call none name [] none).Does setting s () s' ↔
      (expandCall walk call definition name []).Does setting (s.calling call) () s' := by
  unfold walkCall
  rw [does_bind_of_ok outcome_typeOfSelf, does_bind_of_ok (outcome_modifyProgram _)]
  exact does_bind_of_ok hfound

end Infer

namespace WalkState
open Infer
variable {options : Options} {before after : List Deed} {s₀ s : WalkState} {L : List Duty}
  {call definition : ExprId}
  {name text : String} {tree : Tree}

/-- Where generated code is JSON, a macro expands to the tree that its body spells at some moment of
a run before any of its calls was expanded. To walk such a call is to walk this tree where it
stands, with the variables and types that there are, as part of one more expansion: the one is
carried through if and only if the other is, and the tree's type can then be given to the call. The
call has that type before any other calls are resolved. -/
theorem walk_expands (hbefore : Course {.json} ⟨{}, {}⟩ before s₀)
    (hbody : Toolchain.template? s₀.program definition = some text)
    (hnew : s₀.session.expanders.get? ⟨definition, []⟩ = none) (hafter : Course {.json} s₀ after s)
    (htree : Tree.ofJson? text = some tree) (hs : s.Intact [] (.whole call :: L))
    (hc : s.program.construct call = .call none name [] none)
    (hfound : (macroFor none name []).Does ⟨.json, options⟩ (s.calling call)
      (some definition) (s.calling call))
    (hdepth : s.program.expansionDepth < options.maxExpansionDepth) (fuel : Nat) :
    ∃ σ, ((s.calling call).holding tree).SameWork σ ∧
      ∀ s', (Infer.walk (fuel + 1) call).Does ⟨.json, options⟩ s () s' ↔
      ∃ generated σ' m, ((s.calling call).program.lower tree).1 = .ok generated ∧
        (Infer.walk fuel generated).Does ⟨.json, options⟩ σ () σ' ∧
        (deriveFrom call [σ'.program.nodeOf generated]).Does ⟨.json, options⟩
          (σ'.expanded call generated) () m ∧
        m.StandsFor call generated σ' ∧
        (resolvePending (Infer.walk fuel) fuel).Does ⟨.json, options⟩ m () s' := by
  have hspells : s.session.Spells definition text :=
    hafter.spells ⟨hbody, fun _ h => by rw [hnew] at h; cases h⟩
  have hcalling : (s.calling call).session.Spells definition text :=
    ⟨hspells.template, hspells.kept⟩
  obtain ⟨σ, hσ, hexpand⟩ := does_expandCall (Infer.walk fuel) call name hcalling htree hdepth
  refine ⟨σ, hσ, fun s' => ?_⟩
  rw [does_walk_succ_iff, hc]
  show (∃ m, (walkCall (Infer.walk fuel) call none name [] none).Does _ s () m ∧ _) ↔ _
  simp only [does_walkCall hfound, hexpand]
  constructor
  · rintro ⟨m, ⟨generated, σ', hlower, hwalk, hderive⟩, hresolve⟩
    refine ⟨generated, σ', m, hlower, hwalk, hderive, ?_, hresolve⟩
    obtain ⟨hl, hplaced⟩ := intact_holding (intact_calling hs hc) hlower hσ
    obtain ⟨hl', hwalked, -⟩ :=
      (finishes_walk Toolchain.tidy_json fuel _ _ σ generated hplaced).does () σ' hwalk
    have htakes : Takes ⟨.json, options⟩ σ (Infer.walk fuel generated) :=
      takes_walk Toolchain.tidy_json ..
    obtain ⟨deeds, hcourse⟩ := htakes.course
    rw [show (Infer.walk fuel generated).outcome _ σ = (.ok (), σ') from hwalk] at hcourse
    have hformed := (hbefore.append hafter).formed Program.formed_initial
    have hcall : σ'.program.construct call = .call none name [] none :=
      (hl.trans hl').construct_eq hc nofun nofun
    exact standsFor_of_deriveFrom hwalked (hcourse.formed (formed_holding hformed hσ)) hcall hderive
  · rintro ⟨generated, σ', m, hlower, hwalk, hderive, -, hresolve⟩
    exact ⟨m, ⟨generated, σ', hlower, hwalk, hderive⟩, hresolve⟩

/-- `x = 1`. -/
def assigning : Tree := .assign (.var "x") (.int32 1)

/-- The JSON text of `x = 1`. -/
def assigningText : String :=
  "\x7b\"node\":\"assign\",\"target\":\x7b\"node\":\"var\",\"name\":\"x\"\x7d," ++
    "\"value\":\x7b\"node\":\"number_literal\",\"value\":\"1\",\"kind\":\"i32\"\x7d\x7d"

theorem ofJson?_assigningText : Tree.ofJson? assigningText = some assigning := by
  have hparse : Json.parse? Tree.scope Tree.nestingLimit assigningText = some (.object
      [("node", .string "assign"),
        ("target", .object [("node", .string "var"), ("name", .string "x")]),
        ("value", .object [("node", .string "number_literal"), ("value", .string "1"),
          ("kind", .string "i32")])]) := by
    cbv
  rw [Tree.ofJson?, hparse]
  rfl

/-- A macro `m` with `assigningText` as its body, a conditional that assigns to `x` in its second
branch, and `x`. -/
def branching (branch : Tree) : Tree := .sequence
  [.bare (.macroDef none "m" [] (some (.string assigningText))),
    .conditional (.bool true) (some branch) (some assigning), .var "x"]

def branchingCall : Tree := branching (.call none "m" [])

/-- The conditional with `m` in its first branch has still to be walked. -/
def declared : WalkState := ((Infer.walk 9 ⟨1⟩).outcome ⟨.json, {}⟩ (lowered branchingCall)).2

theorem intact_declared : declared.Intact [] [.whole ⟨3⟩] := by
  have hconstructs : ((Program.initial.lower branchingCall).1.toOption = some ⟨9⟩) ∧
      (lowered branchingCall).program.construct ⟨9⟩ = .sequence [⟨1⟩, ⟨7⟩, ⟨8⟩] ∧
      declared.program.construct ⟨7⟩ = .conditional ⟨2⟩ (some ⟨3⟩)
        (some ⟨6⟩) none := by decide +kernel
  have hwalk : (Infer.walk 9 ⟨1⟩).Does ⟨.json, {}⟩ (lowered branchingCall) () declared :=
    does_of_isOk (by decide +kernel)
  obtain ⟨hlower, hitems, hbranches⟩ := hconstructs
  have hlowers : Leaves ⟨.json, {}⟩ ⟨{}, {}⟩ (lowerTree branchingCall) [] _ _ :=
    leaves_lowerTree .start _
  rcases h : (Program.initial.lower branchingCall).1 with e | root <;>
    rw [h] at hlower <;> cases hlower
  obtain ⟨-, -, hs⟩ := hlowers.does _ _ (does_lowerTree.mpr ⟨h, rfl⟩)
  have hroot : (lowered branchingCall).Intact [] [.whole ⟨9⟩] := hs
  have hparts := hroot.duties hroot.program.unfold
  rw [hitems] at hparts
  have hfirst : (lowered branchingCall).Intact [] [.whole ⟨1⟩, .whole ⟨7⟩] :=
    hparts.sublist (by decide)
  obtain ⟨-, hnext, -⟩ := (finishes_walk Toolchain.tidy_json 9 _ _ _ _ hfirst).does () _ hwalk
  have hconditional : declared.Intact [] [.whole ⟨7⟩] := hnext.sublist (by decide)
  have hinner := hconditional.duties hconditional.program.unfold
  rw [hbranches] at hinner
  exact hinner.sublist (by decide)

/-- The call of `m` is walked, and is an `Int32` as `x = 1` is. -/
theorem walk_expands_assigning :
    ∃ before after, Course {.json} ⟨{}, {}⟩ before (lowered branchingCall) ∧
    Toolchain.template? (lowered branchingCall).program ⟨1⟩ = some assigningText ∧
    (lowered branchingCall).session.expanders.get? ⟨⟨1⟩, []⟩ = none ∧
    Course {.json} (lowered branchingCall) after declared ∧
    Tree.ofJson? assigningText = some assigning ∧
    declared.Intact [] [.whole ⟨3⟩] ∧ declared.program.construct ⟨3⟩ = .call none "m" [] none ∧
    (macroFor none "m" []).Does ⟨.json, {}⟩ (declared.calling ⟨3⟩) (some ⟨1⟩)
      (declared.calling ⟨3⟩) ∧
    declared.program.expansionDepth < ({} : Options).maxExpansionDepth ∧
    ∃ s', (Infer.walk 9 ⟨3⟩).Does ⟨.json, {}⟩ declared () s' ∧ s'.program.typeOf ⟨3⟩ = some .int32 ∧
      ∃ generated σ m, m.StandsFor ⟨3⟩ generated σ ∧
        (resolvePending (Infer.walk 8) 8).Does ⟨.json, {}⟩ m () s' := by
  have hlower : (∃ deeds, Course {.json} ⟨{}, {}⟩ deeds (lowered branchingCall)) ∧ _ :=
    course_grows (Program.initial.adds_lower branchingCall).1.grows
  have htakes : Takes ⟨.json, {}⟩ (lowered branchingCall) (Infer.walk 9 ⟨1⟩) :=
    takes_walk Toolchain.tidy_json 9 ⟨1⟩ _
  obtain ⟨⟨before, hbefore⟩, -⟩ := hlower
  obtain ⟨after, hafter⟩ : ∃ after, Course {.json} (lowered branchingCall) after declared :=
    htakes.course
  have hbody : Toolchain.template? (lowered branchingCall).program ⟨1⟩ = some assigningText := by
    decide +kernel
  have hc : declared.program.construct ⟨3⟩ = .call none "m" [] none := by decide +kernel
  have hfound : (macroFor none "m" []).Does ⟨.json, {}⟩ (declared.calling ⟨3⟩) (some ⟨1⟩)
      (declared.calling ⟨3⟩) := by
    have hanswer : ((macroFor none "m" []).outcome ⟨.json, {}⟩ (declared.calling ⟨3⟩)).1.toOption =
        some (some ⟨1⟩) := by
      decide +kernel
    have hdoes := does_of_toOption hanswer
    rwa [state_macroFor] at hdoes
  have hnew : (lowered branchingCall).session.expanders.get? ⟨⟨1⟩, []⟩ = none :=
    OrderedMap.get?_empty _
  have hdepth : declared.program.expansionDepth < ({} : Options).maxExpansionDepth := by
    decide +kernel
  have hwalked : ((Infer.walk 9 ⟨3⟩).outcome ⟨.json, {}⟩ declared).1.isOk = true ∧
      ((Infer.walk 9 ⟨3⟩).outcome ⟨.json, {}⟩ declared).2.program.typeOf ⟨3⟩ =
        some .int32 := by decide +kernel
  have hd := does_of_isOk hwalked.1
  obtain ⟨σ, -, hiff⟩ :=
    walk_expands hbefore hbody hnew hafter ofJson?_assigningText intact_declared hc hfound hdepth 8
  obtain ⟨generated, σ', m, -, -, -, hstands, hresolve⟩ := (hiff _).mp hd
  exact ⟨before, after, hbefore, hbody, hnew, hafter, ofJson?_assigningText, intact_declared, hc,
    hfound, hdepth, _, hd, hwalked.2, generated, σ', m, hstands, hresolve⟩

/-- When branches are compared the call of `m` assigns to no variables, so that `x` is taken to be
untouched by the first one: with the call it is read as an `Int32 | Nil`, and with `x = 1` in its
place as an `Int32`. -/
theorem branching_differs : Tree.ofJson? assigningText = some assigning ∧ ∃ inferred s inferred' s',
    ({} : Session).infer ⟨.json, {}⟩ branchingCall = (.ok inferred, s) ∧
    ({} : Session).infer ⟨.json, {}⟩ (branching assigning) = (.ok inferred', s') ∧
    s.program.construct ⟨9⟩ = .sequence [⟨1⟩, ⟨7⟩, ⟨8⟩] ∧
    s'.program.construct ⟨11⟩ = .sequence [⟨1⟩, ⟨9⟩, ⟨10⟩] ∧
    s.program.construct ⟨3⟩ = .call none "m" [] none ∧ s.program.expansions.get? ⟨3⟩ ≠ none ∧
    s.program.construct ⟨8⟩ = .var "x" ∧ s'.program.construct ⟨10⟩ = .var "x" ∧
    s.typeNameOf ⟨8⟩ = some "Int32 | Nil" ∧ s'.typeNameOf ⟨10⟩ = some "Int32" := by
  have hend : (({} : Session).infer ⟨.json, {}⟩ branchingCall).1.isOk = true ∧
      (({} : Session).infer ⟨.json, {}⟩ (branching assigning)).1.isOk = true ∧
      let s := (({} : Session).infer ⟨.json, {}⟩ branchingCall).2
      let s' := (({} : Session).infer ⟨.json, {}⟩ (branching assigning)).2
      s.program.construct ⟨9⟩ = .sequence [⟨1⟩, ⟨7⟩, ⟨8⟩] ∧
        s'.program.construct ⟨11⟩ = .sequence [⟨1⟩, ⟨9⟩, ⟨10⟩] ∧
      s.program.construct ⟨3⟩ = .call none "m" [] none ∧ s.program.expansions.get? ⟨3⟩ ≠ none ∧
      s.program.construct ⟨8⟩ = .var "x" ∧ s'.program.construct ⟨10⟩ = .var "x" ∧
      s.typeNameOf ⟨8⟩ = some "Int32 | Nil" ∧ s'.typeNameOf ⟨10⟩ = some "Int32" := by decide +kernel
  obtain ⟨hcall, htree, hend⟩ := hend
  rcases h : ({} : Session).infer ⟨.json, {}⟩ branchingCall with ⟨_ | inferred, s⟩ <;>
    rw [h] at hcall hend
  · cases hcall
  rcases h' : ({} : Session).infer ⟨.json, {}⟩ (branching assigning) with ⟨_ | inferred', s'⟩ <;>
    rw [h'] at htree hend
  · cases htree
  exact ⟨ofJson?_assigningText, inferred, s, inferred', s', rfl, rfl, hend⟩

end WalkState

end TypeFlow
