import TypeFlow.Proofs.Inference.Composed.Walk
import TypeFlow.Tree.Builder

/-!
# Expanders are built once, and expansions do not go too deep

`Logged setting s x log` reads off from how a step is written what it does with expanders, in order:
the `Event`s are that the backend builds an expander, that an expander is asked for the source of a
call, and that such source begins and ends to be typed. Each comes with the state it takes place in.
All that is put to a program while its tools and options stay the same, whatever becomes of it, has
such a log, and in this log every event is in order (`requests_expand`): what is built was not built
before, what is asked was built for the call's own macro and the kinds of its arguments, and no more
expansions are being typed than the options allow.
-/

namespace TypeFlow

/-- Nothing has happened to expanders: what is kept, what was asked for, and how deep the expansions
are. -/
structure WalkState.SameExpanders (s s' : WalkState) : Prop where
  expanders : s'.session.expanders = s.session.expanders
  builds : s'.session.journal.builds = s.session.journal.builds
  expansions : s'.session.journal.expansions = s.session.journal.expansions
  depth : s'.program.expansionDepth = s.program.expansionDepth

namespace Infer
variable {α β : Type} {setting : Setting} {s s' : WalkState}

/-! ### Logs -/

inductive Event where
  /-- The backend is asked for an expander. -/
  | builds (m : WalkState) (key : ExpanderKey)
  /-- An expander is asked for the source of a call. -/
  | expands (m : WalkState) (call : ExprId) (expander : Expander)
  /-- What has been generated begins to be typed. -/
  | enters (m : WalkState)
  /-- It has been typed or has failed to be: the states before it and afterwards. -/
  | leaves (m m' : WalkState)

namespace Event

def built? : Event → Option ExpanderKey
  | .builds _ key => some key
  | _ => none

def isExpansion : Event → Bool
  | .expands .. => true
  | _ => false

/-- How many expansions are being typed after an event. -/
def track (depth : Nat) : Event → Nat
  | .enters _ => depth + 1
  | .leaves .. => depth - 1
  | _ => depth

end Event

/-- How many expansions are being typed in the end. -/
def underway (log : List Event) : Nat := log.foldl Event.track 0

/-- The log of a step that is taken in a state. What changes the state at once and leaves expanders
alone is not told. -/
inductive Logged (setting : Setting) : {α : Type} → WalkState → Infer α → List Event → Prop where
  | throw {α : Type} (s : WalkState) (e : Failure) : Logged setting s (throw e : Infer α) []
  | reads {α : Type} {s : WalkState} {x : Infer α} {a : α} : x.outcome setting s = (.ok a, s) →
      Logged setting s x []
  | changes {α : Type} {s : WalkState} {f : WalkState → α × WalkState} : s.SameExpanders (f s).2 →
      Logged setting s (modifyGet f) []
  | bind {α β : Type} {s s' : WalkState} {x : Infer α} {f : α → Infer β} {a : α}
      {log log' : List Event} :
      Logged setting s x log → x.Does setting s a s' → Logged setting s' (f a) log' →
        Logged setting s (x >>= f) (log ++ log')
  | fails {α β : Type} {s s' : WalkState} {x : Infer α} {f : α → Infer β} {e : Failure}
      {log : List Event} :
      Logged setting s x log → x.outcome setting s = (.error e, s') → Logged setting s (x >>= f) log
  | mapError {α : Type} {s : WalkState} {x : Infer α} {log : List Event}
      (f : Diagnostic → Diagnostic) :
      Logged setting s x log → Logged setting s (mapError f x) log
  | observing {s : WalkState} {x : Infer Unit} {log : List Event} : Logged setting s x log →
      Logged setting s (evaluateConstant.observing x) log
  | within {α : Type} {s : WalkState} {x : Infer α} {log : List Event} (enter : Frame → Frame)
      (leave : Frame → Frame → Frame) : Logged setting (s.withFrame (enter s.frame)) x log →
        Logged setting s (within enter leave x) log
  | build {s : WalkState} {definition : ExprId} {args : List ExprId} :
      s.session.expanders.get? (keyOf s.program definition args) = none →
        Logged setting s (expanderFor definition args) [.builds s (keyOf s.program definition args)]
  | expand (s : WalkState) (call : ExprId) (expander : Expander) :
      Logged setting s (expand expander call) [.expands s call expander]
  | deeper {α : Type} {s : WalkState} {x : Infer α} {log : List Event} :
      Logged setting (atDepth s (s.program.expansionDepth + 1)) x log →
        Logged setting s (inExpansion x)
          (.enters s :: log ++ [.leaves s ((inExpansion x).outcome setting s).2])

/-- What the log does not tell of was not done. -/
theorem Logged.asked {x : Infer α} {log : List Event} (h : Logged setting s x log) :
    (x.outcome setting s).2.session.journal.builds = s.session.journal.builds +
      (log.filterMap Event.built?).length ∧
    (x.outcome setting s).2.session.journal.expansions =
      s.session.journal.expansions + log.countP Event.isExpansion := by
  induction h with
  | throw => exact ⟨rfl, rfl⟩
  | reads hx => rw [hx]; exact ⟨rfl, rfl⟩
  | changes hsame => exact ⟨hsame.builds, hsame.expansions⟩
  | bind _ hx _ ih ih' =>
    rw [outcome_bind, hx]
    rw [show Infer.outcome _ _ _ = _ from hx] at ih
    rw [List.filterMap_append, List.length_append, List.countP_append, ← Nat.add_assoc,
      ← Nat.add_assoc, ← ih.1, ← ih.2]
    exact ih'
  | fails _ hx ih =>
    rw [outcome_bind, hx]
    rwa [hx] at ih
  | mapError _ _ ih => rwa [outcome_mapError]
  | observing _ ih => exact ih
  | within enter leave _ ih => rwa [outcome_within]
  | build hnone => rw [outcome_expanderFor_of_none hnone]; exact ⟨rfl, rfl⟩
  | expand s call expander => rw [state_expand]; exact ⟨rfl, rfl⟩
  | deeper _ ih =>
    rw [outcome_inExpansion, List.filterMap_append, List.length_append, List.countP_append]
    exact ih

/-! ### What is in order -/

/-- What an event has to be after what has happened before. -/
def Event.InOrder (setting : Setting) (before : List Event) : Event → Prop
  | .builds _ key => ∀ m, .builds m key ∉ before
  | .expands m call expander => ∃ key m', m.OwnKey call key ∧ .builds m' key ∈ before ∧
      expander = setting.tools.buildExpander m'.program key.definition
  | .enters m => underway before = m.program.expansionDepth ∧
      m.program.expansionDepth < setting.options.maxExpansionDepth
  | .leaves m m' => .enters m ∈ before ∧ m'.program.expansionDepth = m.program.expansionDepth

/-- The log is in order and accounts for what is kept and how deep the expansions are. -/
structure Accounts (setting : Setting) (log : List Event) (s : WalkState) : Prop where
  inOrder : ∀ before event after, log = before ++ event :: after → event.InOrder setting before
  kept : ∀ key expander, s.session.expanders.get? key = some expander →
    ∃ m, .builds m key ∈ log ∧ expander = setting.tools.buildExpander m.program key.definition
  built : ∀ m key, .builds m key ∈ log → s.session.expanders.get? key ≠ none
  depth : underway log = s.program.expansionDepth

namespace Accounts
variable {log log' : List Event} {event : Event}

theorem start : Accounts setting [] ⟨{}, {}⟩ where
  inOrder before event after h := by simp at h
  kept key _ h := nomatch h
  built _ _ h := nomatch h
  depth := rfl

theorem same (h : Accounts setting log s) (hsame : s.SameExpanders s') :
    Accounts setting log s' where
  inOrder := h.inOrder
  kept key expander hkept := h.kept key expander (hsame.expanders ▸ hkept)
  built m key hbuilt := hsame.expanders ▸ h.built m key hbuilt
  depth := h.depth.trans hsame.depth.symm

/-- One more event at the end. -/
theorem inOrder_append (h : Accounts setting log s) (hevent : event.InOrder setting log)
    {before after : List Event}
    {other : Event} (hsplit : log ++ [event] = before ++ other :: after) :
    other.InOrder setting before := by
  rcases List.eq_nil_or_concat after with rfl | ⟨init, last, rfl⟩
  · obtain ⟨rfl, hlast⟩ := List.append_inj' hsplit rfl
    cases hlast
    exact hevent
  · rw [List.concat_eq_append, ← List.cons_append, ← List.append_assoc] at hsplit
    obtain ⟨hlog, -⟩ := List.append_inj' hsplit rfl
    exact h.inOrder before other init hlog

theorem underway_append (log : List Event) (event : Event) :
    underway (log ++ [event]) = Event.track (underway log) event :=
  List.foldl_append ..

/-- An event that is no build. -/
theorem append (h : Accounts setting log s) (hevent : event.InOrder setting log)
    (hbuild : event.built? = none) (hkept : s'.session.expanders = s.session.expanders)
    (hdepth : Event.track s.program.expansionDepth event = s'.program.expansionDepth) :
    Accounts setting (log ++ [event]) s' where
  inOrder _ _ _ hsplit := h.inOrder_append hevent hsplit
  kept key expander hexpander := by
    obtain ⟨m, hm, heq⟩ := h.kept key expander (hkept ▸ hexpander)
    exact ⟨m, List.mem_append_left _ hm, heq⟩
  built m key hbuilt := by
    rw [hkept]
    rcases List.mem_append.mp hbuilt with hbuilt | hlast
    · exact h.built m key hbuilt
    · cases List.mem_singleton.mp hlast
      cases hbuild
  depth := by rw [underway_append, h.depth, hdepth]

theorem build (h : Accounts setting log s) {definition : ExprId} {args : List ExprId}
    (hnone : s.session.expanders.get? (keyOf s.program definition args) = none) :
    Accounts setting (log ++ [.builds s (keyOf s.program definition args)])
      ((expanderFor definition args).outcome setting s).2 := by
  have hfresh : (Event.builds s (keyOf s.program definition args)).InOrder setting log :=
    fun m hm => h.built m _ hm hnone
  rw [outcome_expanderFor_of_none hnone]
  refine ⟨fun _ _ _ => h.inOrder_append hfresh, fun key expander hkept => ?_,
    fun m key hbuilt => ?_, ?_⟩
  · rw [OrderedMap.get?_insert] at hkept
    split at hkept
    · rename_i heq
      cases heq
      cases hkept
      exact ⟨s, List.mem_append_right _ (List.mem_singleton_self _), rfl⟩
    · obtain ⟨m, hm, heq⟩ := h.kept key expander hkept
      exact ⟨m, List.mem_append_left _ hm, heq⟩
  · rw [OrderedMap.get?_insert]
    split
    · exact Option.some_ne_none _
    · rename_i hne
      rcases List.mem_append.mp hbuilt with hbuilt | hlast
      · exact h.built m key hbuilt
      · cases List.mem_singleton.mp hlast
        exact (hne rfl).elim
  · rw [underway_append]
    exact h.depth

/-- By induction on the log. -/
theorem nodup (h : Accounts setting log s) : (log.filterMap Event.built?).Nodup := by
  have hprefix : ∀ before after, log = before ++ after → (before.filterMap Event.built?).Nodup := by
    intro before
    induction before using List.reverseRecOn with
    | nil => exact fun _ _ => .nil
    | append_singleton before event ih =>
      intro after hlog
      rw [List.append_assoc] at hlog
      have hevent := h.inOrder before event after hlog
      rw [List.filterMap_append, List.nodup_append]
      refine ⟨ih _ hlog, ?_, ?_⟩
      · cases event with
        | builds m key => exact List.nodup_singleton key
        | _ => exact .nil
      · rintro key hbefore key' hlast rfl
        cases event with
        | builds m key' =>
          obtain rfl : key = key' := by simpa [Event.built?] using hlast
          obtain ⟨other, hother, hkey⟩ := List.mem_filterMap.mp hbefore
          cases other with
          | builds m' key' => cases hkey; exact hevent m' hother
          | _ => cases hkey
        | _ => simp [Event.built?] at hlast
  exact hprefix log [] (List.append_nil log).symm

theorem underway_le (h : Accounts setting log s) {before after : List Event}
    (hlog : log = before ++ after) : underway before ≤ setting.options.maxExpansionDepth := by
  induction before using List.reverseRecOn generalizing after with
  | nil => exact Nat.zero_le _
  | append_singleton before event ih =>
    rw [List.append_assoc] at hlog
    have hbefore := ih hlog
    have hevent := h.inOrder before event after hlog
    rw [underway_append]
    cases event with
    | builds | expands => exact hbefore
    | enters m => exact hevent.1 ▸ Nat.succ_le_of_lt hevent.2
    | leaves => exact Nat.le_trans (Nat.sub_le ..) hbefore

end Accounts

/-! ### Every step has a log that is in order -/

/-- What a step does when the log so far accounts for the state. -/
def Lawful (setting : Setting) (s : WalkState) (x : Infer α) : Prop :=
  ∀ log, Accounts setting log s → ∃ log', Logged setting s x log' ∧
    Accounts setting (log ++ log') (x.outcome setting s).2

theorem lawful_silent {x : Infer α} (hlogged : Logged setting s x [])
    (hsame : s.SameExpanders (x.outcome setting s).2) :
    Lawful setting s x := fun log h => ⟨[], hlogged, (List.append_nil log).symm ▸ h.same hsame⟩

theorem lawful_reads {x : Infer α} {a : α} (hx : x.outcome setting s = (.ok a, s)) :
    Lawful setting s x :=
  lawful_silent (.reads hx) (by rw [hx]; exact ⟨rfl, rfl, rfl, rfl⟩)

theorem lawful_changes {f : WalkState → α × WalkState} (hsame : s.SameExpanders (f s).2) :
    Lawful setting s (modifyGet f) :=
  lawful_silent (.changes hsame) hsame

theorem Lawful.bind {x : Infer α} {f : α → Infer β} (hx : Lawful setting s x)
    (hf : ∀ a s', x.Does setting s a s' → Lawful setting s' (f a)) :
    Lawful setting s (x >>= f) := by
  intro log h
  obtain ⟨log₁, hlogged₁, h₁⟩ := hx log h
  rcases hd : x.outcome setting s with ⟨e | a, s'⟩ <;> rw [hd] at h₁
  · refine ⟨log₁, hlogged₁.fails hd, ?_⟩
    rw [outcome_bind, hd]
    exact h₁
  · obtain ⟨log₂, hlogged₂, h₂⟩ := hf a s' hd _ h₁
    refine ⟨log₁ ++ log₂, hlogged₁.bind hd hlogged₂, ?_⟩
    rw [outcome_bind, hd, ← List.append_assoc]
    exact h₂

theorem Lawful.mapError {x : Infer α} (h : Lawful setting s x) (f : Diagnostic → Diagnostic) :
    Lawful setting s (mapError f x) := by
  intro log haccounts
  obtain ⟨log', hlogged, h'⟩ := h log haccounts
  exact ⟨log', hlogged.mapError f, by rw [outcome_mapError]; exact h'⟩

theorem Lawful.within {x : Infer α} (enter : Frame → Frame) (leave : Frame → Frame → Frame)
    (h : Lawful setting (s.withFrame (enter s.frame)) x) :
    Lawful setting s (within enter leave x) := by
  intro log haccounts
  obtain ⟨log', hlogged, h'⟩ := h log (haccounts.same ⟨rfl, rfl, rfl, rfl⟩)
  exact ⟨log', hlogged.within enter leave,
    by rw [outcome_within]; exact h'.same ⟨rfl, rfl, rfl, rfl⟩⟩

theorem Lawful.deeper {x : Infer α}
    (hdepth : s.program.expansionDepth < setting.options.maxExpansionDepth)
    (hx : Composed setting (atDepth s (s.program.expansionDepth + 1)) x)
    (hdiscreet : setting.tools.Discreet)
    (h : Lawful setting (atDepth s (s.program.expansionDepth + 1)) x) :
    Lawful setting s (inExpansion x) := by
  intro log haccounts
  have henter : Accounts setting (log ++ [.enters s]) (atDepth s (s.program.expansionDepth + 1)) :=
    haccounts.append ⟨haccounts.depth, hdepth⟩ rfl rfl rfl
  obtain ⟨log', hlogged, h'⟩ := h _ henter
  have hrestored : ((inExpansion x).outcome setting s).2.program.expansionDepth =
      s.program.expansionDepth :=
    (Composes.deeper (fun _ => hdepth) hx).depth_eq hdiscreet
  have hleave : Accounts setting
      (log ++ [.enters s] ++ log' ++ [.leaves s ((inExpansion x).outcome setting s).2])
      ((inExpansion x).outcome setting s).2 := by
    refine h'.append ⟨by simp, hrestored⟩ rfl ?_ ?_ <;> rw [outcome_inExpansion] <;> rfl
  refine ⟨_, hlogged.deeper, ?_⟩
  rwa [List.append_assoc, List.append_assoc] at hleave

/-- How the first step ends is known. -/
theorem Lawful.then {x : Infer α} {f : α → Infer β} {a : α} (hx : Lawful setting s x)
    (hd : x.outcome setting s = (.ok a, s')) (hf : Lawful setting s' (f a)) :
    Lawful setting s (x >>= f) := by
  refine hx.bind fun b s'' hd' => ?_
  cases hd.symm.trans hd'
  exact hf

theorem lawful_throw (e : Failure) : Lawful setting s (throw e : Infer α) :=
  lawful_silent (.throw s e) ⟨rfl, rfl, rfl, rfl⟩

theorem lawful_ofBinding (r : Except GraphFailure α) : Lawful setting s (ofBinding r) := by
  cases r with
  | error failure => exact lawful_throw _
  | ok a => exact lawful_reads rfl

theorem lawful_rebind (call : ExprId) (targets : List NodeId) :
    Lawful setting s (rebind call targets) := by
  by_cases htargets : s.memo.targets.get? call = some targets
  · exact lawful_reads (outcome_rebind_of_eq htargets)
  · unfold rebind
    refine (lawful_reads (outcome_nodeOf call)).then (outcome_nodeOf call) ?_
    refine (lawful_reads outcome_get).then outcome_get ?_
    dsimp only
    rw [if_pos htargets]
    refine (lawful_changes ⟨rfl, rfl, rfl, rfl⟩).then rfl
      ((lawful_changes ⟨rfl, rfl, rfl, rfl⟩).then rfl ?_)
    refine (lawful_reads (outcome_locationOf call)).then (outcome_locationOf call)
      (Lawful.mapError ?_ _)
    exact (lawful_changes ⟨rfl, rfl, rfl, rfl⟩).bind fun r _ _ => lawful_ofBinding r

theorem lawful_knownValue (type : TypeId) : Lawful setting s (knownValue type) := by
  rcases hvalue : s.memo.values.get? type with _ | node
  · unfold knownValue
    refine (lawful_reads outcome_get).then outcome_get ?_
    rw [hvalue]
    refine (lawful_changes ⟨rfl, rfl, rfl, rfl⟩).then rfl
      ((lawful_changes ⟨rfl, rfl, rfl, rfl⟩).then rfl ?_)
    exact lawful_reads rfl
  · exact lawful_reads (outcome_knownValue_of_some hvalue)

/-- A new instance is recorded before it is typed. -/
theorem lawful_methodResult {walk : Step} {call : ExprId} {key : MethodInstance}
    {receiver : Option ExprId} {name : String} {params : List String}
    {body returnType : Option ExprId} {blockParam : Option (BlockParam ExprId)}
    (hnone : s.memo.instances.get? key = none)
    (hc : s.program.construct key.definition = .methodDef receiver name params body
      returnType blockParam)
    (h : Lawful setting (s.recording key)
      (typeInstance walk call key s.program.addVar.1 name params body returnType blockParam)) :
    Lawful setting s (methodResult walk call key.owner key.definition key.args key.block) := by
  have hall : Lawful setting (s.recording key)
      (typeInstance walk call key s.program.addVar.1 name params body returnType
        blockParam >>= fun _ =>
        pure s.program.addVar.1) := h.bind fun _ _ _ => lawful_reads rfl
  simp only [typeInstance, bind_assoc] at hall
  unfold methodResult
  refine (lawful_reads outcome_get).then outcome_get ?_
  rw [hnone]
  refine (lawful_reads (outcome_construct key.definition)).then
    (outcome_construct key.definition) ?_
  rw [hc]
  dsimp only
  exact (lawful_changes ⟨rfl, rfl, rfl, rfl⟩).then rfl
    ((lawful_changes ⟨rfl, rfl, rfl, rfl⟩).then rfl hall)

theorem lawful_stray {walk : Step} {call : ExprId} {key : MethodInstance}
    (hnone : s.memo.instances.get? key = none)
    (hc : ∀ receiver name params body returnType blockParam,
      s.program.construct key.definition ≠ .methodDef receiver name params body
      returnType blockParam) :
    Lawful setting s (methodResult walk call key.owner key.definition key.args key.block) := by
  unfold methodResult
  refine (lawful_reads outcome_get).then outcome_get ?_
  rw [hnone]
  refine (lawful_reads (outcome_construct key.definition)).then
    (outcome_construct key.definition) ?_
  split
  · rename_i heq
    exact (hc _ _ _ _ _ _ heq).elim
  · exact (lawful_reads (outcome_locationOf _)).then (outcome_locationOf _) (lawful_throw _)

theorem Lawful.observing {x : Infer Unit} (h : Lawful setting s x) :
    Lawful setting s (evaluateConstant.observing x) := by
  intro log haccounts
  obtain ⟨log', hlogged, h'⟩ := h log haccounts
  exact ⟨log', hlogged.observing, h'⟩

theorem lawful_evaluateConstant {walk : Step} (reference : ExprId) {const : ConstantId}
    (hpending : (s.program.constant const).state = .pending)
    (h : Lawful setting (s.withProgram (s.program.beginConstant const))
      (walkValue walk (s.program.constant const))) :
    Lawful setting s (evaluateConstant walk reference const) := by
  unfold evaluateConstant
  refine (lawful_reads outcome_program).then outcome_program ?_
  dsimp only
  rw [hpending]
  dsimp only
  refine (lawful_changes ⟨rfl, rfl, rfl, rfl⟩).then rfl ?_
  refine (lawful_reads (outcome_locationOf _)).then (outcome_locationOf _)
    (h.observing.bind fun result s' _ => ?_)
  refine (lawful_changes ⟨rfl, rfl, rfl, rfl⟩).then rfl ?_
  split
  · exact lawful_reads rfl
  all_goals exact lawful_throw _

theorem lawful_expanderFor (definition : ExprId) (args : List ExprId) :
    Lawful setting s (expanderFor definition args) := by
  rcases hkept : s.session.expanders.get? (keyOf s.program definition args) with _ | expander
  · exact fun log h => ⟨_, .build hkept, h.build hkept⟩
  · exact lawful_reads (outcome_expanderFor_of_some hkept)

theorem lawful_expand {call : ExprId} {key : ExpanderKey} {expander : Expander}
    (hkey : s.OwnKey call key) (hkept : s.session.expanders.get? key = some expander) :
    Lawful setting s (expand expander call) := by
  intro log h
  obtain ⟨m, hbuilt, hexpander⟩ := h.kept key expander hkept
  refine ⟨_, .expand s call expander, ?_⟩
  refine h.append ⟨key, m, hkey, hbuilt, hexpander⟩ rfl ?_ ?_ <;> rw [state_expand]
  rfl

/-- By induction on what the step is composed of. -/
theorem Composes.lawful {stage : Stage} {x : Infer α} (h : Composes setting stage s x)
    (hdiscreet : setting.tools.Discreet) :
    Lawful setting s x := by
  induction h with
  | pure => exact lawful_reads rfl
  | throw => exact lawful_throw _
  | read hreads _ ih => exact (lawful_reads (hreads _)).then (hreads _) ih
  | bind _ _ ihx ihf => exact ihx.bind ihf
  | mapError _ _ ih => exact ih.mapError _
  | within enter leave _ _ ih => exact ih.within enter leave
  | frame | fresh => exact lawful_changes ⟨rfl, rfl, rfl, rfl⟩
  | journal s hf => exact lawful_changes ⟨rfl, (hf _).1, (hf _).2, rfl⟩
  | update hquiet | marks hquiet => exact lawful_changes ⟨rfl, rfl, rfl, hquiet.depth⟩
  | phase _ ih | breaks _ ih | loop _ ih => exact ih
  | normalize s tree => exact lawful_changes ⟨rfl, rfl, rfl, hdiscreet ..⟩
  | declaration _ _ _ ih => exact ih.bind fun _ _ _ => lawful_changes ⟨rfl, rfl, rfl, rfl⟩
  | value s type => exact lawful_knownValue type
  | rebind s call targets => exact lawful_rebind call targets
  | recalled hinstance => exact lawful_reads (outcome_methodResult_of_some hinstance)
  | «instance» hnone hc _ ih => exact lawful_methodResult hnone hc ih
  | stray hnone _ hc => exact lawful_stray hnone hc
  | evaluation hpending _ ih => exact lawful_evaluateConstant _ hpending ih
  | expander s definition args => exact lawful_expanderFor definition args
  | expand hkey hkept => exact lawful_expand hkey hkept
  | deeper hdepth hx ih => exact .deeper (hdepth hdiscreet) hx hdiscreet ih

/-! ### Requests -/

/-- What is done to a program from outside while its tools and options stay the same. -/
inductive Request where
  /-- The program is edited; how deep the expansions are is none of the editor's business. -/
  | edit (f : Program → Program) (hdepth : ∀ p, (f p).expansionDepth = p.expansionDepth)
  /-- From now on another visitor walks. -/
  | visitor (frame : Frame)
  | visit (fuel : Nat) (id : ExprId)
  | remaining (fuel : Nat)

namespace Request

def step : Request → Infer Unit
  | .edit f _ => modifyProgram f
  | .visitor frame => modifyFrame fun _ => frame
  | .visit fuel id => walk fuel id
  | .remaining fuel => evaluateRemaining (walk fuel)

theorem lawful (request : Request) (hdiscreet : setting.tools.Discreet) (s : WalkState) :
    Lawful setting s request.step := by
  cases request with
  | edit f hdepth => exact lawful_changes ⟨rfl, rfl, rfl, hdepth _⟩
  | visitor frame => exact lawful_changes ⟨rfl, rfl, rfl, rfl⟩
  | visit fuel id => exact (composed_walk fuel id s).lawful hdiscreet
  | remaining fuel =>
    exact (composed_evaluateRemaining fun id s => composed_walk fuel id s).lawful hdiscreet

end Request

/-- The state after requests, of which any may have failed. -/
def after (setting : Setting) (s : WalkState) : List Request → WalkState
  | [] => s
  | request :: requests => after setting (request.step.outcome setting s).2 requests

/-- The logs of requests, one after the other. -/
inductive LoggedAll (setting : Setting) : WalkState → List Request → List Event → Prop where
  | nil (s : WalkState) : LoggedAll setting s [] []
  | cons {s : WalkState} {request : Request} {requests : List Request} {log log' : List Event} :
      Logged setting s request.step log →
        LoggedAll setting (request.step.outcome setting s).2 requests log' →
        LoggedAll setting s (request :: requests) (log ++ log')

theorem LoggedAll.asked {requests : List Request} {log : List Event}
    (h : LoggedAll setting s requests log) :
    (after setting s requests).session.journal.builds = s.session.journal.builds +
      (log.filterMap Event.built?).length ∧
    (after setting s requests).session.journal.expansions =
      s.session.journal.expansions + log.countP Event.isExpansion := by
  induction h with
  | nil => exact ⟨rfl, rfl⟩
  | cons hlogged _ ih =>
    rw [List.filterMap_append, List.length_append, List.countP_append,
      ← Nat.add_assoc, ← Nat.add_assoc,
      ← hlogged.asked.1, ← hlogged.asked.2]
    exact ih

theorem Request.depth_eq (request : Request) (hdiscreet : setting.tools.Discreet) (s : WalkState) :
    (request.step.outcome setting s).2.program.expansionDepth = s.program.expansionDepth := by
  cases request with
  | edit f hdepth => exact hdepth _
  | visitor frame => rfl
  | visit fuel id => exact (composed_walk fuel id s).depth_eq hdiscreet
  | remaining fuel =>
    exact (composed_evaluateRemaining fun id s => composed_walk fuel id s).depth_eq hdiscreet

theorem depth_after (hdiscreet : setting.tools.Discreet) (requests : List Request) (s : WalkState) :
    (after setting s requests).program.expansionDepth = s.program.expansionDepth := by
  induction requests generalizing s with
  | nil => rfl
  | cons request requests ih => exact (ih _).trans (request.depth_eq hdiscreet s)

theorem accounts_after (hdiscreet : setting.tools.Discreet) (requests : List Request)
    {log : List Event} (h : Accounts setting log s) :
    ∃ log', LoggedAll setting s requests log' ∧
      Accounts setting (log ++ log') (after setting s requests) := by
  induction requests generalizing s log with
  | nil => exact ⟨[], .nil s, (List.append_nil log).symm ▸ h⟩
  | cons request requests ih =>
    obtain ⟨log₁, hlogged₁, h₁⟩ := request.lawful hdiscreet s log h
    obtain ⟨log₂, hlogged₂, h₂⟩ := ih h₁
    exact ⟨log₁ ++ log₂, .cons hlogged₁ hlogged₂, by rwa [← List.append_assoc]⟩

/-- Whatever is done to a program, successful or not, has a log that misses no build and no
expansion. In it no expander is built twice for a macro and kinds of arguments; each call is
expanded by the expander that was built for the macro that it names and the kinds of its arguments;
at no moment more expansions are being typed than the options allow; and when one has ended, in
success or failure, as many are counted as before it. In the end none is left. -/
theorem requests_expand (hdiscreet : setting.tools.Discreet) (requests : List Request) :
    ∃ log, LoggedAll setting ⟨{}, {}⟩ requests log ∧
      (after setting ⟨{}, {}⟩ requests).session.journal.builds =
        (log.filterMap Event.built?).length ∧
      (after setting ⟨{}, {}⟩ requests).session.journal.expansions = log.countP Event.isExpansion ∧
      (log.filterMap Event.built?).Nodup ∧
      (∀ before m call expander later, log = before ++ .expands m call expander :: later →
        ∃ key m', m.OwnKey call key ∧ .builds m' key ∈ before ∧
          expander = setting.tools.buildExpander m'.program key.definition) ∧
      (∀ before later, log = before ++ later →
        underway before ≤ setting.options.maxExpansionDepth) ∧
      (∀ before m later, log = before ++ .enters m :: later →
        underway before = m.program.expansionDepth) ∧
      (∀ m m', .leaves m m' ∈ log → m'.program.expansionDepth = m.program.expansionDepth) ∧
      (after setting ⟨{}, {}⟩ requests).program.expansionDepth = 0 ∧ underway log = 0 := by
  obtain ⟨log, hlogged, h⟩ := accounts_after hdiscreet requests .start
  rw [List.nil_append] at h
  have hbuilds := hlogged.asked.1
  have hexpansions := hlogged.asked.2
  rw [Nat.zero_add] at hbuilds hexpansions
  refine ⟨log, hlogged, hbuilds, hexpansions, h.nodup, fun _ _ _ _ _ hlog => h.inOrder _ _ _ hlog,
    fun _ _ => h.underway_le, fun _ _ _ hlog => (h.inOrder _ _ _ hlog).1, fun m m' hmem => ?_,
    depth_after hdiscreet requests _, h.depth.trans (depth_after hdiscreet requests _)⟩
  obtain ⟨before, later, hlog⟩ := List.append_of_mem hmem
  exact (h.inOrder _ _ _ hlog).2

/-- `{"node":"call","name":"m","args":[{"node":"char_literal","value":"c"}]}` -/
def againText : String :=
  "\x7b\"node\":\"call\",\"name\":\"m\",\"args\":[\x7b\"node\":\"char_literal\",\"value\":\"c\"\x7d]\x7d"

/-- A macro that expands to another call of itself, and the calls `m(1)` and `m('c')`. -/
def runaway : Tree := .sequence
  [.bare (.macroDef none "m" ["x"] (some (.string againText))), .call none "m" [.int32 1],
    .call none "m" [.char 'c']]

/-- The tree is lowered, and the macro and its calls are visited one after the other. -/
def runawayRequests : List Request :=
  [.edit (fun p => (p.lower runaway).2) fun p => (grows_same (p.adds_lower runaway).1.grows).2.1,
    .visit 9 ⟨1⟩, .visit 9 ⟨3⟩, .visit 9 ⟨5⟩]

/-- No more than two expansions inside each other. -/
def shallow : Setting := ⟨.json, { maxExpansionDepth := 2 }⟩

/-- Either call has two expansions and is refused a third. For the first call two expanders are
built, since a number and a character are of different kinds, and the second call needs no other. -/
theorem requests_expand_runaway : shallow.tools.Discreet ∧
    ((walk 9 ⟨3⟩).outcome shallow
      (after shallow ⟨{}, {}⟩ (runawayRequests.take 2))).1.isOk = false ∧
    ((walk 9 ⟨5⟩).outcome shallow
      (after shallow ⟨{}, {}⟩ (runawayRequests.take 3))).1.isOk = false ∧
    ∃ log, LoggedAll shallow ⟨{}, {}⟩ runawayRequests log ∧
      (log.filterMap Event.built?).length = 2 ∧
      (log.filterMap Event.built?).Nodup ∧ log.countP Event.isExpansion = 4 ∧
      (∀ before later, log = before ++ later → underway before ≤ 2) ∧ underway log = 0 := by
  have hdiscreet : shallow.tools.Discreet := Toolchain.tidy_json.discreet
  have hasked : (after shallow ⟨{}, {}⟩ runawayRequests).session.journal.builds = 2 ∧
      (after shallow ⟨{}, {}⟩ runawayRequests).session.journal.expansions = 4 := by decide +kernel
  obtain ⟨log, hlogged, hbuilds, hexpansions, hnodup, -, hdepth, -, -, -, hend⟩ :=
    requests_expand hdiscreet runawayRequests
  exact ⟨hdiscreet, by decide +kernel, by decide +kernel, log, hlogged, hbuilds ▸ hasked.1, hnodup,
    hexpansions ▸ hasked.2, hdepth, hend⟩

end Infer

end TypeFlow
