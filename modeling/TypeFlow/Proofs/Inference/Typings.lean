import TypeFlow.Proofs.Inference.Remembered
import TypeFlow.Proofs.Program.Awaits

/-!
# Instances are typed once

`Recounts setting s x log` reads off from how a step is written what it does with instances of
methods, in order: an instance is recorded with a new node, before its body is copied and walked,
and a call gets the node of an instance. All that is put to a program while its tools and options
stay the same, whatever becomes of it, can be recounted. In no such log an instance is recorded
twice, and the nodes that calls get are the same exactly for the same instance
(`requests_typeOnce`). This is so because an instance that is still being typed answers already.
-/

namespace TypeFlow

/-- No instance is recorded or forgotten, and no node. -/
structure WalkState.KeepsInstances (s s' : WalkState) : Prop where
  instances : s'.memo.instances = s.memo.instances
  size_le : s.program.graph.size ≤ s'.program.graph.size

namespace Infer
variable {α β : Type} {setting : Setting} {s s' m : WalkState} {key key' : MethodInstance}
  {node node' : NodeId}

/-! ### Logs -/

inductive Typing where
  /-- An instance is recorded, and its body is copied and walked. -/
  | types (m : WalkState) (key : MethodInstance) (node : NodeId)
  /-- A call that needs the instance gets the node of its result. -/
  | answers (m : WalkState) (key : MethodInstance) (node : NodeId)

def Typing.typed? : Typing → Option MethodInstance
  | .types _ key _ => some key
  | .answers .. => none

/-- The log of a step that is taken in a state. -/
inductive Recounts (setting : Setting) : {α : Type} → WalkState → Infer α → List Typing → Prop where
  -- what only reads, changes something else at once, or fails
  | throw {α : Type} (s : WalkState) (e : Failure) : Recounts setting s (throw e : Infer α) []
  | reads {α : Type} {s : WalkState} {x : Infer α} {a : α} : Reads setting s x a →
      Recounts setting s x []
  | changes {α : Type} {s : WalkState} {f : WalkState → α × WalkState} : s.KeepsInstances (f s).2 →
      Recounts setting s (modifyGet f) []
  | value (s : WalkState) (type : TypeId) : Recounts setting s (knownValue type) []
  | rebind (s : WalkState) (call : ExprId) (targets : List NodeId) : Recounts setting s
      (rebind call targets) []
  | expander (s : WalkState) (definition : ExprId) (args : List ExprId) :
      Recounts setting s (expanderFor definition args) []
  | expand (s : WalkState) (call : ExprId) (expander : Expander) : Recounts setting s
      (expand expander call) []
  -- what is put together
  | bind {α β : Type} {s s' : WalkState} {x : Infer α} {f : α → Infer β} {a : α}
      {log log' : List Typing} :
      Recounts setting s x log → x.Does setting s a s' → Recounts setting s' (f a) log' →
        Recounts setting s (x >>= f) (log ++ log')
  | fails {α β : Type} {s s' : WalkState} {x : Infer α} {f : α → Infer β} {e : Failure}
      {log : List Typing} :
      Recounts setting s x log → x.outcome setting s = (.error e, s') →
        Recounts setting s (x >>= f) log
  | mapError {α : Type} {s : WalkState} {x : Infer α} {log : List Typing}
      (f : Diagnostic → Diagnostic) :
      Recounts setting s x log → Recounts setting s (mapError f x) log
  | within {α : Type} {s : WalkState} {x : Infer α} {log : List Typing} (enter : Frame → Frame)
      (leave : Frame → Frame → Frame) : Recounts setting (s.withFrame (enter s.frame)) x log →
        Recounts setting s (within enter leave x) log
  | evaluation {s : WalkState} {fuel : Nat} {reference : ExprId} {const : ConstantId}
      {log : List Typing} :
      (s.program.constant const).state = .pending →
        Recounts setting (s.withProgram (s.program.beginConstant const))
          (walkValue (walk fuel) (s.program.constant const)) log →
            Recounts setting s (evaluateConstant (walk fuel) reference const) log
  | deeper {α : Type} {s : WalkState} {x : Infer α} {log : List Typing} :
      Recounts setting (atDepth s (s.program.expansionDepth + 1)) x log →
        Recounts setting s (inExpansion x) log
  -- instances
  | recalled {s : WalkState} {fuel : Nat} {call : ExprId} {key : MethodInstance} {node : NodeId} :
      s.memo.instances.get? key = some node →
        Recounts setting s
          (methodResult (walk fuel) call key.owner key.definition key.args key.block)
          [.answers s key node]
  | typed {s s' : WalkState} {fuel : Nat} {call : ExprId} {key : MethodInstance}
      {receiver : Option ExprId}
      {name : String} {params : List String} {body returnType : Option ExprId}
      {blockParam : Option (BlockParam ExprId)} {log : List Typing} :
        s.memo.instances.get? key = none →
        s.program.construct key.definition = .methodDef receiver name params body
          returnType blockParam → Recounts setting (s.recording key)
            (typeInstance (walk fuel) call key s.program.addVar.1 name params body
              returnType blockParam) log →
            (typeInstance (walk fuel) call key s.program.addVar.1 name params body returnType
              blockParam).Does setting (s.recording key) () s' →
              Recounts setting s
                (methodResult (walk fuel) call key.owner key.definition key.args key.block)
                (.types s key s.program.addVar.1 :: log ++ [.answers s' key s.program.addVar.1])
  | failed {s s' : WalkState} {fuel : Nat} {call : ExprId} {key : MethodInstance}
      {receiver : Option ExprId}
      {name : String} {params : List String} {body returnType : Option ExprId}
      {blockParam : Option (BlockParam ExprId)} {e : Failure} {log : List Typing} :
      s.memo.instances.get? key = none →
        s.program.construct key.definition = .methodDef receiver name params body
          returnType blockParam → Recounts setting (s.recording key)
            (typeInstance (walk fuel) call key s.program.addVar.1 name params body
              returnType blockParam) log →
            (typeInstance (walk fuel) call key s.program.addVar.1 name params body
              returnType blockParam).outcome setting (s.recording key) = (.error e, s') →
              Recounts setting s
                (methodResult (walk fuel) call key.owner key.definition key.args key.block)
                (.types s key s.program.addVar.1 :: log)
  | stray {s : WalkState} {fuel : Nat} {call : ExprId} {key : MethodInstance} :
      s.memo.instances.get? key = none →
      (∀ receiver name params body returnType blockParam,
        s.program.construct key.definition ≠ .methodDef receiver name params body
          returnType blockParam) →
          Recounts setting s
            (methodResult (walk fuel) call key.owner key.definition key.args key.block) []

/-- By induction on what the step is composed of. -/
theorem Composes.recounts {stage : Stage} {x : Infer α} (h : Composes setting stage s x)
    (htidy : setting.tools.Tidy) : ∃ log, Recounts setting s x log := by
  have hthen : ∀ {α β : Type} {s : WalkState} {x : Infer α} {f : α → Infer β},
      (∃ log, Recounts setting s x log) →
      (∀ a s', x.Does setting s a s' → ∃ log, Recounts setting s' (f a) log) →
        ∃ log, Recounts setting s (x >>= f) log :=
    fun {α β s x f} ⟨log, hx⟩ hf => by
      rcases hd : x.outcome setting s with ⟨e | a, s'⟩
      · exact ⟨log, hx.fails hd⟩
      · obtain ⟨log', hlog'⟩ := hf a s' hd
        exact ⟨log ++ log', hx.bind hd hlog'⟩
  induction h with
  | pure s a => exact ⟨[], .reads fun _ => rfl⟩
  | throw s => exact ⟨[], .throw s _⟩
  | read hreads _ ih =>
    refine hthen ⟨[], .reads hreads⟩ fun b s' hd => ?_
    cases (hreads _).symm.trans hd
    exact ih
  | bind _ _ ihx ihf => exact hthen ihx ihf
  | mapError _ _ ih => exact ih.imp fun _ h => h.mapError _
  | within enter leave _ _ ih => exact ih.imp fun _ h => h.within enter leave
  | frame | fresh => exact ⟨[], .changes ⟨rfl, Nat.le_refl _⟩⟩
  | journal => exact ⟨[], .changes ⟨rfl, Nat.le_refl _⟩⟩
  | update hquiet | marks hquiet =>
    obtain ⟨deeds, hcourse⟩ := hquiet.course htidy
    exact ⟨[], .changes ⟨rfl, hcourse.later.nodes_le⟩⟩
  | phase _ ih | breaks _ ih | loop _ ih => exact ih
  | normalize s tree =>
    obtain ⟨count, hcount⟩ := htidy s.program tree
    refine ⟨[], .changes ⟨rfl, ?_⟩⟩
    show _ ≤ (setting.tools.normalize s.program tree).2.graph.size
    rw [hcount]
  | declaration _ _ _ ih => exact hthen ih fun _ _ _ => ⟨[], .changes ⟨rfl, Nat.le_refl _⟩⟩
  | value s type => exact ⟨[], .value s type⟩
  | rebind s call targets => exact ⟨[], .rebind s call targets⟩
  | recalled hsome => exact ⟨_, .recalled hsome⟩
  | «instance» hnone hc _ ih =>
    obtain ⟨log, hlog⟩ := ih
    rcases hd : (typeInstance _ _ _ _ _ _ _ _ _).outcome setting _ with ⟨e | ⟨⟩, s'⟩
    · exact ⟨_, .failed hnone hc hlog hd⟩
    · exact ⟨_, .typed hnone hc hlog hd⟩
  | stray hnone _ hc => exact ⟨[], .stray hnone hc⟩
  | evaluation hpending _ ih => exact ih.imp fun _ h => .evaluation hpending h
  | expander s definition args => exact ⟨[], .expander s definition args⟩
  | expand => exact ⟨[], .expand ..⟩
  | deeper _ _ ih => exact ih.imp fun _ h => h.deeper

/-! ### What the log says of what is remembered -/

/-- The log tells how all that is remembered of instances has come about. -/
structure Records (log : List Typing) (s : WalkState) : Prop where
  typed : ∀ key node, s.memo.instances.get? key = some node ↔ ∃ m, .types m key node ∈ log
  once : (log.filterMap Typing.typed?).Nodup
  answered : ∀ m key node, .answers m key node ∈ log → s.memo.instances.get? key = some node
  lt : ∀ key node, s.memo.instances.get? key = some node → node.index < s.program.graph.size
  /-- Every instance has a node of its own. -/
  apart : ∀ key key' node, s.memo.instances.get? key = some node →
    s.memo.instances.get? key' = some node → key = key'

namespace Records
variable {log : List Typing}

theorem start : Records [] ⟨{}, {}⟩ where
  typed _ _ := ⟨fun h => (nomatch h), fun ⟨_, h⟩ => nomatch h⟩
  once := .nil
  answered _ _ _ h := nomatch h
  lt _ _ h := nomatch h
  apart _ _ _ h := nomatch h

theorem keeps (h : Records log s) (hkeeps : s.KeepsInstances s') : Records log s' where
  typed key node := by rw [hkeeps.instances]; exact h.typed key node
  once := h.once
  answered m key node hmem := by rw [hkeeps.instances]; exact h.answered m key node hmem
  lt key node hnode := Nat.lt_of_lt_of_le (h.lt key node (hkeeps.instances ▸ hnode)) hkeeps.size_le
  apart key key' node hnode hnode' :=
    h.apart key key' node (hkeeps.instances ▸ hnode) (hkeeps.instances ▸ hnode')

theorem keeps_of_eq (h : Records log s) (hinstances : s'.memo.instances = s.memo.instances)
    (hgraph : s'.program.graph = s.program.graph) : Records log s' :=
  h.keeps ⟨hinstances, Nat.le_of_eq (congrArg FlowGraph.size hgraph).symm⟩

/-- A new instance gets a new node. -/
theorem types (h : Records log s) (hnone : s.memo.instances.get? key = none) :
    Records (log ++ [.types s key s.program.addVar.1]) (s.recording key) := by
  have hget : ∀ other, (s.recording key).memo.instances.get? other =
      if other = key then some s.program.addVar.1 else s.memo.instances.get? other :=
    fun other => OrderedMap.get?_insert s.memo.instances key other s.program.addVar.1
  have hnew : ∀ other, s.memo.instances.get? other ≠ some s.program.addVar.1 := fun other hother =>
    Nat.lt_irrefl _ (h.lt other _ hother)
  refine ⟨fun other node => ?_, ?_, fun m other node hmem => ?_, fun other node hnode => ?_,
    fun one two node h₁ h₂ => ?_⟩
  · rw [hget]
    simp only [List.mem_append, List.mem_singleton, Typing.types.injEq]
    split
    · rename_i heq
      subst heq
      constructor
      · rintro ⟨⟩
        exact ⟨s, .inr ⟨rfl, rfl, rfl⟩⟩
      · rintro ⟨m, hold | ⟨-, -, rfl⟩⟩
        · rw [(h.typed other node).mpr ⟨m, hold⟩] at hnone
          cases hnone
        · rfl
    · rename_i hne
      refine (h.typed other node).trans ⟨Exists.imp fun _ => .inl, ?_⟩
      rintro ⟨m, hold | ⟨-, heq, -⟩⟩
      · exact ⟨m, hold⟩
      · exact absurd heq hne
  · rw [List.filterMap_append, List.nodup_append]
    refine ⟨h.once, List.nodup_singleton key, ?_⟩
    rintro other hother other' hlast rfl
    obtain rfl : other = key := List.mem_singleton.mp hlast
    obtain ⟨event, hevent, htyped⟩ := List.mem_filterMap.mp hother
    cases event with
    | types m known node =>
      cases htyped
      rw [(h.typed other node).mpr ⟨m, hevent⟩] at hnone
      cases hnone
    | answers => cases htyped
  · rcases List.mem_append.mp hmem with hmem | hlast
    · have hold := h.answered m other node hmem
      rw [hget, if_neg fun heq => by rw [heq, hnone] at hold; cases hold]
      exact hold
    · cases List.mem_singleton.mp hlast
  · have hsize : (s.recording key).program.graph.size = s.program.graph.size + 1 :=
      FlowGraph.size_addNode ..
    rw [hget] at hnode
    rw [hsize]
    split at hnode
    · cases hnode
      exact Nat.lt_succ_self _
    · exact Nat.lt_succ_of_lt (h.lt other node hnode)
  · rw [hget] at h₁ h₂
    split at h₁ <;> split at h₂
    · exact (‹one = key›).trans (‹two = key›).symm
    · cases h₁
      exact absurd h₂ (hnew two)
    · cases h₂
      exact absurd h₁ (hnew one)
    · exact h.apart one two node h₁ h₂

theorem answers (h : Records log s) (hsome : s.memo.instances.get? key = some node) :
    Records (log ++ [.answers m key node]) s where
  typed other node' := by
    refine (h.typed other node').trans (exists_congr fun m' => ?_)
    simp only [List.mem_append, List.mem_singleton, reduceCtorEq, or_false]
  once := by
    rw [List.filterMap_append, show List.filterMap Typing.typed? [.answers m key node] = [] from
      rfl, List.append_nil]
    exact h.once
  answered m' other node' hmem := by
    rcases List.mem_append.mp hmem with hmem | hlast
    · exact h.answered m' other node' hmem
    · cases List.mem_singleton.mp hlast
      exact hsome
  lt := h.lt
  apart := h.apart

end Records

/-- By induction on the log of the step. -/
theorem Recounts.records {x : Infer α} {log log' : List Typing} (h : Recounts setting s x log')
    (hs : Records log s) : Records (log ++ log') (x.outcome setting s).2 := by
  induction h generalizing log with
  | throw s => rwa [List.append_nil]
  | @reads _ s x a hreads =>
    rw [List.append_nil, show x.outcome setting s = (.ok a, s) from hreads s.memo]
    exact hs
  | changes hkeeps =>
    rw [List.append_nil]
    exact hs.keeps hkeeps
  | value s type =>
    rw [List.append_nil]
    rcases hvalue : s.memo.values.get? type with _ | node
    · rw [outcome_knownValue_of_none hvalue]
      exact hs.keeps ⟨rfl, (FlowGraph.keepsNodes_addTyped s.program.graph type).1⟩
    · rwa [outcome_knownValue_of_some hvalue]
  | rebind s call targets =>
    rw [List.append_nil]
    by_cases htargets : s.memo.targets.get? call = some targets
    · rwa [outcome_rebind_of_eq htargets]
    · rw [outcome_rebind_of_ne htargets, outcome_mapError, Infer.bind, outcome_onNetwork]
      have hext := Network.Extends.outcome_bindNode (unbound s call targets).program.toNetwork
          (s.program.nodeOf call)
        targets
      exact hs.keeps ⟨rfl, Nat.le_of_eq
        (hext.size.trans ((FlowGraph.size_link ..).trans (FlowGraph.size_unbind ..))).symm⟩
  | expander s definition args =>
    rw [List.append_nil]
    rcases hkept : s.session.expanders.get? (keyOf s.program definition args) with _ | expander
    · rw [outcome_expanderFor_of_none hkept]
      exact hs.keeps_of_eq rfl rfl
    · rwa [outcome_expanderFor_of_some hkept]
  | expand =>
    rw [List.append_nil, state_expand]
    exact hs.keeps_of_eq rfl rfl
  | bind _ hd _ ihx ihf =>
    have hmid := ihx hs
    rw [show Infer.outcome _ _ _ = _ from hd] at hmid
    rw [outcome_bind, hd, ← List.append_assoc]
    exact ihf hmid
  | fails _ hd ih =>
    have hend := ih hs
    rw [hd] at hend
    rwa [outcome_bind, hd]
  | mapError f _ ih =>
    rw [outcome_mapError]
    exact ih hs
  | within enter leave _ ih =>
    rw [outcome_within]
    exact (ih (hs.keeps_of_eq rfl rfl)).keeps_of_eq rfl rfl
  | evaluation hpending _ ih =>
    rw [outcome_evaluateConstant _ hpending rfl]
    exact (ih (hs.keeps_of_eq rfl rfl)).keeps_of_eq rfl rfl
  | deeper _ ih =>
    rw [outcome_inExpansion]
    exact (ih (hs.keeps_of_eq rfl rfl)).keeps_of_eq rfl rfl
  | recalled hsome =>
    rw [outcome_methodResult_of_some hsome]
    exact hs.answers hsome
  | @typed s _ _ _ key _ _ _ _ _ _ _ hnone hc _ hd ih =>
    have hend := ih (hs.types hnone)
    rw [show Infer.outcome _ _ _ = _ from hd, List.append_assoc] at hend
    rw [outcome_methodResult_of_none hnone hc, show Infer.outcome _ _ _ = _ from hd,
      ← List.append_assoc]
    exact hend.answers ((hend.typed key _).mpr ⟨s, by simp⟩)
  | failed hnone hc _ hd ih =>
    have hend := ih (hs.types hnone)
    rw [hd, List.append_assoc] at hend
    rw [outcome_methodResult_of_none hnone hc, hd]
    exact hend
  | stray hnone hc =>
    rw [List.append_nil, outcome_methodResult_of_stray hnone hc]
    exact hs

/-! ### Requests -/

/-- No node gets lost. -/
def Request.Grows : Request → Prop
  | .edit f _ => ∀ p : Program, p.graph.size ≤ (f p).graph.size
  | _ => True

theorem Request.grows_lower (tree : Tree)
    (hdepth : ∀ p : Program, (p.lower tree).2.expansionDepth = p.expansionDepth) :
    (edit (fun p => (p.lower tree).2) hdepth).Grows :=
  fun p => (p.adds_lower tree).1.later.nodes_le

/-- The logs of requests, one after the other. -/
inductive RecountsAll (setting : Setting) : WalkState → List Request → List Typing → Prop where
  | nil (s : WalkState) : RecountsAll setting s [] []
  | cons {s : WalkState} {request : Request} {requests : List Request} {log log' : List Typing} :
      Recounts setting s request.step log →
        RecountsAll setting (request.step.outcome setting s).2 requests log' →
        RecountsAll setting s (request :: requests) (log ++ log')

theorem Request.recounts (request : Request) (htidy : setting.tools.Tidy) (hgrows : request.Grows)
    (s : WalkState) : ∃ log, Recounts setting s request.step log := by
  cases request with
  | edit f hdepth => exact ⟨[], .changes ⟨rfl, hgrows s.program⟩⟩
  | visitor frame => exact ⟨[], .changes ⟨rfl, Nat.le_refl _⟩⟩
  | visit fuel id => exact (composed_walk fuel id s).recounts htidy
  | remaining fuel =>
    exact (composed_evaluateRemaining fun id s => composed_walk fuel id s).recounts htidy

theorem recountsAll (htidy : setting.tools.Tidy) {requests : List Request}
    (hgrows : ∀ request ∈ requests, request.Grows) : ∃ log, RecountsAll setting s requests log := by
  induction requests generalizing s with
  | nil => exact ⟨[], .nil s⟩
  | cons request requests ih =>
    obtain ⟨log, hlog⟩ := request.recounts htidy (hgrows request (by simp)) s
    obtain ⟨log', hlog'⟩ := ih (s := (request.step.outcome setting s).2) fun r hr =>
      hgrows r (List.mem_cons_of_mem _ hr)
    exact ⟨log ++ log', .cons hlog hlog'⟩

theorem RecountsAll.records {requests : List Request} {log log' : List Typing}
    (h : RecountsAll setting s requests log') (hs : Records log s) :
    Records (log ++ log') (after setting s requests) := by
  induction h generalizing log with
  | nil => rwa [List.append_nil]
  | cons hfirst _ ih =>
    rw [← List.append_assoc]
    exact ih (hfirst.records hs)

/-- Whatever is put to a program, successful or not, can be recounted, and then no instance was
recorded, and its body copied and walked, more than once. The instances that were are just those
that are remembered in the end, each with the node that was new at that time. All calls that need an
instance get that node, those inside of its own body included, and calls that need different
instances get different nodes. -/
theorem requests_typeOnce (htidy : setting.tools.Tidy) {requests : List Request}
    (hgrows : ∀ request ∈ requests, request.Grows) :
    (∃ log, RecountsAll setting ⟨{}, {}⟩ requests log) ∧
    ∀ log, RecountsAll setting ⟨{}, {}⟩ requests log →
      (log.filterMap Typing.typed?).Nodup ∧
      (∀ key node, (sessionAfter setting requests).memo.instances.get? key = some node ↔
        ∃ m, .types m key node ∈ log) ∧
      (∀ m key node, .answers m key node ∈ log → ∃ m', .types m' key node ∈ log) ∧
      ∀ m m' key key' node node', .answers m key node ∈ log → .answers m' key' node' ∈ log →
        (key = key' ↔ node = node') := by
  refine ⟨recountsAll htidy hgrows, fun log hlog => ?_⟩
  have hend : Records log (sessionAfter setting requests) := hlog.records .start
  refine ⟨hend.once, hend.typed, fun m key node hmem =>
    (hend.typed key node).mp (hend.answered m key node hmem),
    fun m m' key key' node node' hmem hmem' => ?_⟩
  have hnode := hend.answered m key node hmem
  have hnode' := hend.answered m' key' node' hmem'
  constructor
  · rintro rfl
    exact Option.some.inj (hnode.symm.trans hnode')
  · rintro rfl
    exact hend.apart key key' node hnode hnode'

/-- `def f(x); g(x); end; def g(x); f(x); end; f(1); g(1); f('c')` -/
def pingPong : Tree := .sequence
  [.bare (.methodDef none "f" ["x"] (some (.call none "g" [.var "x"])) none none),
    .bare (.methodDef none "g" ["x"] (some (.call none "f" [.var "x"])) none none),
    .call none "f" [.int32 1], .call none "g" [.int32 1], .call none "f" [.char 'c']]

/-- The definitions and the calls are visited one after the other. -/
def pingPongRequests : List Request :=
  .edit (fun p => (p.lower pingPong).2)
    (fun p => (grows_same (p.adds_lower pingPong).1.grows).2.1) ::
    [2, 5, 7, 9, 11].map fun index => .visit 30 ⟨index⟩

/-- The instances of the two methods for a number and for a character. -/
def pingPongInstances : List (MethodInstance × NodeId) :=
  [(⟨.program, ⟨2⟩, [.int32], none⟩, ⟨14⟩), (⟨.program, ⟨5⟩, [.int32], none⟩, ⟨19⟩),
    (⟨.program, ⟨2⟩, [.char], none⟩, ⟨24⟩), (⟨.program, ⟨5⟩, [.char], none⟩, ⟨29⟩)]

theorem grows_pingPongRequests : ∀ request ∈ pingPongRequests, request.Grows := by
  intro request hrequest
  rcases List.mem_cons.mp hrequest with rfl | hvisit
  · exact Request.grows_lower pingPong _
  · obtain ⟨index, -, rfl⟩ := List.mem_map.mp hvisit
    trivial

/-- Either method is typed once for numbers and once for characters, although each needs the other
to be typed. -/
theorem requests_typeOnce_pingPong :
    Toolchain.standard.Tidy ∧ (∀ request ∈ pingPongRequests, request.Grows) ∧
    ∃ log, RecountsAll ⟨.standard, {}⟩ ⟨{}, {}⟩ pingPongRequests log ∧
      (log.filterMap Typing.typed?).Nodup ∧
      ∀ entry ∈ pingPongInstances, ∃ m, .types m entry.1 entry.2 ∈ log := by
  have htidy : (⟨.standard, {}⟩ : Setting).tools.Tidy := Toolchain.tidy_standard
  have hinstances : ∀ entry ∈ pingPongInstances,
      (sessionAfter ⟨.standard, {}⟩ pingPongRequests).memo.instances.get? entry.1 =
        some entry.2 := by decide +kernel
  obtain ⟨⟨log, hlog⟩, hall⟩ := requests_typeOnce htidy grows_pingPongRequests
  obtain ⟨honce, htyped, -⟩ := hall log hlog
  exact ⟨htidy, grows_pingPongRequests, log, hlog, honce,
    fun entry hmem => (htyped entry.1 entry.2).mp (hinstances entry hmem)⟩

end Infer

end TypeFlow
