import TypeFlow.Proofs.Inference.Course.Constants
import TypeFlow.Proofs.Inference.Expanders

/-!
# What is left of failures

An instance of a method is recorded before it is typed, and a constant is done when its evaluation
has ended, whether it has failed or not. So what has failed counts as finished for whatever is done
later: a call that needs the instance is bound to it, and the constant is read
(`failed_then_resolved`). But this cannot come of a request that succeeds: all instances that it has
recorded have been typed to the end, and all constants that are done since have a value
(`requests_remember`).
-/

namespace TypeFlow

namespace Program
variable {p p' : Program} {id other : ConstantId}

def IsDone (p : Program) (id : ConstantId) : Prop :=
  id.index < p.constants.size ∧ (p.constant id).state = .done

theorem Declares.isDone_iff (h : p.Declares p') (id : ConstantId) : p'.IsDone id ↔ p.IsDone id := by
  constructor
  · rintro ⟨hlt, hdone⟩
    rcases Nat.lt_or_ge id.index p.constants.size with hid | hge
    · exact ⟨hid, (h.state_eq id hid).symm.trans hdone⟩
    · rw [h.pending id hge hlt] at hdone
      cases hdone
  · rintro ⟨hid, hdone⟩
    exact ⟨Nat.lt_of_lt_of_le hid h.size_le, (h.state_eq id hid).trans hdone⟩

theorem isDone_setConstantState (p : Program) (state : ConstantState) (hne : other ≠ id) :
    (p.setConstantState id state).IsDone other ↔ p.IsDone other := by
  have hindex : ¬ id.index = other.index :=
    fun heq => hne (by cases id; cases other; cases heq; rfl)
  have hconstant : (p.setConstantState id state).constant other = p.constant other := by
    unfold setConstantState constant
    rw [Array.getElem?_modify, if_neg hindex]
  have hsize : (p.setConstantState id state).constants.size = p.constants.size := by
    simp [setConstantState]
  rw [IsDone, hsize, hconstant, IsDone]

end Program

namespace Infer
variable {α β : Type} {setting : Setting} {s s' s'' m m' : WalkState}
  {key : MethodInstance} {node : NodeId}
  {const : ConstantId}

/-! ### Carried through -/

/-- Between the states an instance was recorded, and what had to be done to type it was carried
through. -/
def TypedBetween (setting : Setting) (s s' : WalkState) (key : MethodInstance)
    (node : NodeId) : Prop :=
  ∃ m m' before later fuel call receiver name params body returnType blockParam,
    Course {setting.tools} s before m ∧ m.memo.instances.get? key = none ∧
    node = m.program.addVar.1 ∧
    m.program.construct key.definition = .methodDef receiver name params body
      returnType blockParam ∧
    (typeInstance (walk fuel) call key node name params body returnType blockParam).Does setting
      (m.recording key) () m' ∧
    Course {setting.tools} m' later s'

/-- Between the states the evaluation of a constant began, and its value was walked to the end. -/
def EvaluatedBetween (setting : Setting) (s s' : WalkState) (const : ConstantId) : Prop :=
  ∃ m m' before later fuel, Course {setting.tools} s before m ∧
    (m.program.constant const).state = .pending ∧
    (walkValue (walk fuel) (m.program.constant const)).Does setting
      (m.withProgram (m.program.beginConstant const)) () m' ∧
    Course {setting.tools} (m'.withProgram (m'.program.endConstant const)) later s'

theorem TypedBetween.widen (h : TypedBetween setting m m' key node)
    (hbefore : ∃ deeds, Course {setting.tools} s deeds m)
    (hlater : ∃ deeds, Course {setting.tools} m' deeds s') :
    TypedBetween setting s s' key node := by
  obtain ⟨m₁, m₂, before, later, fuel, call, receiver, name, params, body, returnType, blockParam,
    hm₁, hrest, hnode, hc,
    hd, hm₂⟩ := h
  obtain ⟨deeds, hs⟩ := hbefore
  obtain ⟨deeds', hs'⟩ := hlater
  exact ⟨m₁, m₂, _, _, fuel, call, receiver, name, params, body, returnType, blockParam,
    hs.append hm₁, hrest, hnode, hc, hd, hm₂.append hs'⟩

theorem EvaluatedBetween.widen (h : EvaluatedBetween setting m m' const)
    (hbefore : ∃ deeds, Course {setting.tools} s deeds m)
    (hlater : ∃ deeds, Course {setting.tools} m' deeds s') :
    EvaluatedBetween setting s s' const := by
  obtain ⟨m₁, m₂, before, later, fuel, hm₁, hpending, hd, hm₂⟩ := h
  obtain ⟨deeds, hs⟩ := hbefore
  obtain ⟨deeds', hs'⟩ := hlater
  exact ⟨m₁, m₂, _, _, fuel, hs.append hm₁, hpending, hd, hm₂.append hs'⟩

/-! ### What a step leaves behind -/

/-- Nothing is forgotten, however the step ends; if it is carried through, so was what it has
added. -/
structure Remembers (setting : Setting) (s : WalkState) (x : Infer α) : Prop where
  instances : ∀ key node, s.memo.instances.get? key = some node →
    (x.outcome setting s).2.memo.instances.get? key = some node
  constants : ∀ id, s.program.IsDone id → (x.outcome setting s).2.program.IsDone id
  typed : ∀ a s', x.Does setting s a s' → ∀ key node, s.memo.instances.get? key = none →
    s'.memo.instances.get? key = some node → TypedBetween setting s s' key node
  evaluated : ∀ a s', x.Does setting s a s' → ∀ id, ¬ s.program.IsDone id → s'.program.IsDone id →
    EvaluatedBetween setting s s' id

/-- Nothing is added. -/
theorem remembers_of_eq {x : Infer α}
    (hinstances : (x.outcome setting s).2.memo.instances = s.memo.instances)
    (hconstants : ∀ id, (x.outcome setting s).2.program.IsDone id ↔ s.program.IsDone id) :
    Remembers setting s x where
  instances key node h := hinstances ▸ h
  constants id h := (hconstants id).mpr h
  typed a s' hd key node hnone hsome := by
    rw [hd] at hinstances
    rw [show s'.memo.instances = _ from hinstances, hnone] at hsome
    cases hsome
  evaluated a s' hd id hnot hdone := by
    rw [hd] at hconstants
    exact (hnot ((hconstants id).mp hdone)).elim

theorem remembers_of_outcome {x : Infer α} {r : Except Failure α}
    (h : x.outcome setting s = (r, s)) :
    Remembers setting s x :=
  remembers_of_eq (by rw [h]) fun id => by rw [h]

theorem Remembers.bind {x : Infer α} {f : α → Infer β} (hx : Remembers setting s x)
    (hcourse : ∃ deeds, Course {setting.tools} s deeds (x.outcome setting s).2)
    (hf : ∀ a s', x.Does setting s a s' → Remembers setting s' (f a))
    (hcourses : ∀ a s', x.Does setting s a s' → ∃ deeds, Course {setting.tools} s' deeds
      ((f a).outcome setting s').2) :
    Remembers setting s (x >>= f) := by
  rcases hd : x.outcome setting s with ⟨e | a, s'⟩
  · have hout : (x >>= f).outcome setting s = (.error e, s') := by rw [outcome_bind, hd]
    refine ⟨fun key node h => ?_, fun id h => ?_, fun b s'' hb => ?_, fun b s'' hb => ?_⟩
    · rw [hout, ← show (x.outcome setting s).2 = s' from congrArg Prod.snd hd]
      exact hx.instances key node h
    · rw [hout, ← show (x.outcome setting s).2 = s' from congrArg Prod.snd hd]
      exact hx.constants id h
    all_goals exact nomatch hout.symm.trans hb
  · have hout : (x >>= f).outcome setting s = (f a).outcome setting s' := by rw [outcome_bind, hd]
    have hcourse₁ : ∃ deeds, Course {setting.tools} s deeds s' := by rwa [hd] at hcourse
    have hcourse₂ := hcourses a s' hd
    have hf := hf a s' hd
    have hinstances : ∀ key node, s.memo.instances.get? key = some node →
        s'.memo.instances.get? key = some node :=
      fun key node h => by simpa only [hd] using hx.instances key node h
    have hconstants : ∀ id, s.program.IsDone id → s'.program.IsDone id :=
      fun id h => by simpa only [hd] using hx.constants id h
    refine ⟨fun key node h => ?_, fun id h => ?_, fun b s'' hb key node hnone hsome => ?_,
      fun b s'' hb id hnot hdone => ?_⟩
    · rw [hout]
      exact hf.instances key node (hinstances key node h)
    · rw [hout]
      exact hf.constants id (hconstants id h)
    · rw [Does, hout] at hb
      rw [hb] at hcourse₂
      rcases hmid : s'.memo.instances.get? key with _ | node'
      · exact (hf.typed b s'' hb key node hmid hsome).widen hcourse₁ ⟨[], .nil s''⟩
      · have hkept := hf.instances key node' hmid
        rw [hb] at hkept
        cases hsome.symm.trans hkept
        exact (hx.typed a s' hd key node hnone hmid).widen ⟨[], .nil s⟩ hcourse₂
    · rw [Does, hout] at hb
      rw [hb] at hcourse₂
      by_cases hmid : s'.program.IsDone id
      · exact (hx.evaluated a s' hd id hnot hmid).widen ⟨[], .nil s⟩ hcourse₂
      · exact (hf.evaluated b s'' hb id hmid hdone).widen hcourse₁ ⟨[], .nil s''⟩

/-- A step that is another one, taken in a state that is no different, as far as this goes. -/
theorem Remembers.around {x y : Infer α} {r : Except Failure α} (h : Remembers setting m x)
    (hout : y.outcome setting s = (r, s')) (hok : ∀ a, r = .ok a → (x.outcome setting m).1 = .ok a)
    (hinstances : m.memo.instances = s.memo.instances)
    (hdone : ∀ id, m.program.IsDone id ↔ s.program.IsDone id)
    (hbefore : ∃ deeds, Course {setting.tools} s deeds m)
    (hinstances' : s'.memo.instances = (x.outcome setting m).2.memo.instances)
    (hdone' : ∀ id, s'.program.IsDone id ↔ (x.outcome setting m).2.program.IsDone id)
    (hlater : ∃ deeds, Course {setting.tools} (x.outcome setting m).2 deeds s') :
    Remembers setting s y := by
  have hinner : ∀ a s'', y.Does setting s a s'' →
      x.Does setting m a (x.outcome setting m).2 ∧ s' = s'' := by
    intro a s'' hd
    obtain ⟨hr, hs⟩ := Prod.mk.inj (hout.symm.trans hd)
    exact ⟨Prod.ext (hok a hr) rfl, hs⟩
  refine ⟨fun key node hsome => ?_, fun id hid => ?_, fun a s'' hd key node hnone hsome => ?_,
    fun a s'' hd id hnot hid => ?_⟩
  · rw [hout, hinstances']
    exact h.instances key node (hinstances ▸ hsome)
  · rw [hout]
    exact (hdone' id).mpr (h.constants id ((hdone id).mpr hid))
  · obtain ⟨hx, rfl⟩ := hinner a s'' hd
    exact (h.typed a _ hx key node (hinstances ▸ hnone) (hinstances' ▸ hsome)).widen hbefore hlater
  · obtain ⟨hx, rfl⟩ := hinner a s'' hd
    exact (h.evaluated a _ hx id (fun hm => hnot ((hdone id).mp hm)) ((hdone' id).mp hid)).widen
      hbefore hlater

/-- The instance itself has been typed when the step is carried through. -/
theorem remembers_methodResult {fuel : Nat} {call : ExprId} {receiver : Option ExprId}
    {name : String} {params : List String} {body returnType : Option ExprId}
    {blockParam : Option (BlockParam ExprId)} (hnone : s.memo.instances.get? key = none)
    (hc : s.program.construct key.definition = .methodDef receiver name params body
      returnType blockParam)
    (h : Remembers setting (s.recording key)
      (typeInstance (walk fuel) call key s.program.addVar.1 name params body
        returnType blockParam)) :
    Remembers setting s
      (methodResult (walk fuel) call key.owner key.definition key.args key.block) := by
  have hout : (methodResult (walk fuel) call key.owner key.definition key.args key.block).outcome
      setting s = _ :=
    outcome_methodResult_of_none hnone hc
  have hrecorded : ∀ other, (s.recording key).memo.instances.get? other =
      if other = key then some s.program.addVar.1 else s.memo.instances.get? other :=
    fun other => OrderedMap.get?_insert s.memo.instances key other s.program.addVar.1
  have hbefore : ∃ deeds, Course {setting.tools} s deeds (s.recording key) :=
    ⟨_, .cons (.addNode s .identity) (.single (.memo _ _))⟩
  have hinner : ∀ b s', (methodResult (walk fuel) call key.owner key.definition key.args
      key.block).Does setting s b s' →
      (typeInstance (walk fuel) call key s.program.addVar.1 name params body returnType
        blockParam).Does setting
        (s.recording key) () s' := by
    intro b s' hd
    rw [Does, hout] at hd
    rcases hx : (typeInstance (walk fuel) call key s.program.addVar.1 name params body returnType
      blockParam).outcome setting (s.recording key) with ⟨e | a, m⟩ <;> rw [hx] at hd
    · cases hd
    · obtain ⟨-, rfl⟩ := Prod.mk.inj hd
      exact hx
  refine ⟨fun other node hother => ?_, fun id hid => ?_, fun b s' hd other node hother hsome => ?_,
    fun b s' hd id hnot hdone => ?_⟩
  · have hne : other ≠ key := fun heq => by rw [heq, hnone] at hother; cases hother
    rw [hout]
    exact h.instances other node (by rw [hrecorded, if_neg hne, hother])
  · rw [hout]
    exact h.constants id hid
  · have hd := hinner b s' hd
    by_cases heq : other = key
    · subst heq
      have hkept := h.instances other s.program.addVar.1 (by rw [hrecorded, if_pos rfl])
      rw [hd] at hkept
      cases hsome.symm.trans hkept
      exact ⟨s, s', [], [], fuel, call, receiver, name, params, body, returnType, blockParam,
        .nil s, hnone, rfl, hc, hd, .nil s'⟩
    · exact (h.typed () s' hd other node (by rw [hrecorded, if_neg heq, hother]) hsome).widen
        hbefore ⟨[], .nil s'⟩
  · exact (h.evaluated () s' (hinner b s' hd) id hnot hdone).widen hbefore ⟨[], .nil s'⟩

/-- The constant itself has a value when the step is carried through. -/
theorem remembers_evaluateConstant {fuel : Nat} (reference : ExprId)
    (hpending : (s.program.constant const).state = .pending)
    (htakes : Takes setting (s.withProgram (s.program.beginConstant const))
      (walkValue (walk fuel) (s.program.constant const)))
    (h : Remembers setting (s.withProgram (s.program.beginConstant const))
      (walkValue (walk fuel) (s.program.constant const))) :
    Remembers setting s (evaluateConstant (walk fuel) reference const) := by
  have hnot : ¬ s.program.IsDone const := fun hdone => by rw [hdone.2] at hpending; cases hpending
  have hbegin : ∀ id, id ≠ const →
      ((s.program.beginConstant const).IsDone id ↔ s.program.IsDone id) :=
    fun id hne => s.program.isDone_setConstantState .evaluating hne
  have hend : ∀ (p : Program) id, id ≠ const → ((p.endConstant const).IsDone id ↔ p.IsDone id) :=
    fun p id hne => p.isDone_setConstantState .done hne
  have hbefore : ∃ deeds, Course {setting.tools} s deeds
      (s.withProgram (s.program.beginConstant const)) :=
    ⟨_, .single (.begin hpending)⟩
  obtain ⟨-, hstack⟩ := htakes
  rcases hx : (walkValue (walk fuel) (s.program.constant const)).outcome setting
    (s.withProgram (s.program.beginConstant const)) with ⟨r, m⟩
  have hout : (evaluateConstant (walk fuel) reference const).outcome setting s = _ :=
    outcome_evaluateConstant reference hpending hx
  rw [hx] at hstack
  have hlater : ∃ deeds, Course {setting.tools} m deeds
      (m.withProgram (m.program.endConstant const)) :=
    ⟨_, .single (.finish (by rw [hstack]; rfl))⟩
  have hinner : ∀ b s', (evaluateConstant (walk fuel) reference const).Does setting s b s' →
      (walkValue (walk fuel) (s.program.constant const)).Does setting
        (s.withProgram (s.program.beginConstant const)) () m ∧
        s' = m.withProgram (m.program.endConstant const) := by
    intro b s' hd
    obtain ⟨hr, hs'⟩ := Prod.mk.inj (hout.symm.trans hd)
    refine ⟨?_, hs'.symm⟩
    cases r with
    | error e => cases hr
    | ok a => exact hx
  refine ⟨fun key node hsome => ?_, fun id hid => ?_, fun b s' hd key node hnone hsome => ?_,
    fun b s' hd id hnot hdone => ?_⟩
  · rw [hout, WalkState.withProgram_memo, ← show (Infer.outcome _ _ _).2 = m from
      congrArg Prod.snd hx]
    exact h.instances key node hsome
  · have hne : id ≠ const := fun heq => hnot (heq ▸ hid)
    rw [hout]
    exact (hend m.program id hne).mpr
      (by simpa only [hx] using h.constants id ((hbegin id hne).mpr hid))
  · obtain ⟨hvalue, rfl⟩ := hinner b s' hd
    exact (h.typed () m hvalue key node hnone hsome).widen hbefore hlater
  · obtain ⟨hvalue, rfl⟩ := hinner b s' hd
    by_cases heq : id = const
    · subst heq
      exact ⟨s, m, [], [], fuel, .nil s, hpending, hvalue, .nil _⟩
    · exact (h.evaluated () m hvalue id (fun hm => hnot ((hbegin id heq).mp hm))
        ((hend m.program id heq).mp hdone)).widen hbefore hlater

/-- By induction on what the step is composed of. -/
theorem Composes.remembers {stage : Stage} {x : Infer α} (h : Composes setting stage s x)
    (htidy : setting.tools.Tidy) : Remembers setting s x := by
  induction h with
  | pure | throw => exact remembers_of_outcome rfl
  | read hreads _ ih =>
    rename_i s x f a _
    have hx : (x >>= f).outcome setting s = (f a).outcome setting s := by
      rw [outcome_bind, show x.outcome setting s = (.ok a, s) from hreads s.memo]
    obtain ⟨hinstances, hconstants, htyped, hevaluated⟩ := ih
    exact ⟨by rwa [hx], by rwa [hx], fun b s' hd => htyped b s' (hx.symm.trans hd),
      fun b s' hd => hevaluated b s' (hx.symm.trans hd)⟩
  | bind hx hf ihx ihf =>
    exact ihx.bind (hx.takes htidy).course ihf fun a s' hd => ((hf a s' hd).takes htidy).course
  | declaration _ hx _ ih =>
    refine ih.bind (hx.takes htidy).course (fun _ _ _ => remembers_of_eq rfl fun _ => Iff.rfl)
      fun _ _ _ => ⟨[.other], ?_⟩
    exact .single (.types (.declare ..))
  | mapError _ _ ih =>
    refine ih.around (outcome_mapError _ _) (fun a hr => ?_) rfl (fun _ => Iff.rfl)
      ⟨[], .nil _⟩ rfl (fun _ => Iff.rfl) ⟨[], .nil _⟩
    rcases hx : (Infer.outcome _ setting _).1 with e | b <;> rw [hx] at hr <;> cases hr
    rfl
  | within enter leave _ _ ih =>
    exact ih.around (outcome_within enter leave _) (fun _ hr => hr) rfl (fun _ => Iff.rfl)
      ⟨_, .single (.frame _ _)⟩ rfl (fun _ => Iff.rfl) ⟨_, .single (.frame _ _)⟩
  | frame | fresh => exact remembers_of_eq rfl fun _ => Iff.rfl
  | journal => exact remembers_of_eq rfl fun _ => Iff.rfl
  | update hquiet | marks hquiet => exact remembers_of_eq rfl hquiet.declares.isDone_iff
  | phase _ ih | breaks _ ih | loop _ ih => exact ih
  | normalize s tree =>
    obtain ⟨count, hcount⟩ := htidy s.program tree
    refine remembers_of_eq rfl fun id => ?_
    show (setting.tools.normalize s.program tree).2.IsDone id ↔ _
    rw [hcount]
    rfl
  | value s type =>
    rcases hvalue : s.memo.values.get? type with _ | node
    · refine remembers_of_eq ?_ fun id => ?_ <;> rw [outcome_knownValue_of_none hvalue] <;> rfl
    · exact remembers_of_outcome (outcome_knownValue_of_some hvalue)
  | rebind s call targets =>
    by_cases htargets : s.memo.targets.get? call = some targets
    · exact remembers_of_outcome (outcome_rebind_of_eq htargets)
    · refine remembers_of_eq ?_ fun id => ?_ <;>
        rw [outcome_rebind_of_ne htargets, outcome_mapError, Infer.bind, outcome_onNetwork] <;> rfl
  | recalled hinstance => exact remembers_of_outcome (outcome_methodResult_of_some hinstance)
  | «instance» hnone hc _ ih => exact remembers_methodResult hnone hc ih
  | stray hnone _ hc => exact remembers_of_outcome (outcome_methodResult_of_stray hnone hc)
  | evaluation hpending hx ih => exact remembers_evaluateConstant _ hpending (hx.takes htidy) ih
  | expander s definition args =>
    rcases hkept : s.session.expanders.get? (keyOf s.program definition args) with _ | expander
    · refine remembers_of_eq ?_ fun id => ?_ <;> rw [outcome_expanderFor_of_none hkept]
    · exact remembers_of_outcome (outcome_expanderFor_of_some hkept)
  | expand => refine remembers_of_eq ?_ fun id => ?_ <;> rw [state_expand]
  | deeper _ _ ih =>
    exact ih.around (outcome_inExpansion _) (fun _ hr => hr) rfl (fun _ => Iff.rfl)
      ⟨_, .single (.note (.expansionDepth ..))⟩ rfl (fun _ => Iff.rfl)
        ⟨_, .single (.note (.expansionDepth ..))⟩

/-! ### Requests -/

/-- Constants are declared by others at most, and then left alone. -/
def Request.Modest : Request → Prop
  | .edit f _ => ∀ p : Program, p.Declares (f p)
  | _ => True

theorem Request.remembers {request : Request} (htidy : setting.tools.Tidy)
    (hmodest : request.Modest) (s : WalkState) : Remembers setting s request.step := by
  cases request with
  | edit f hdepth => exact remembers_of_eq rfl (hmodest _).isDone_iff
  | visitor frame => exact remembers_of_eq rfl fun _ => Iff.rfl
  | visit fuel id => exact (composed_walk fuel id s).remembers htidy
  | remaining fuel =>
    exact (composed_evaluateRemaining fun id s => composed_walk fuel id s).remembers htidy

theorem after_append (requests more : List Request) :
    after setting s (requests ++ more) = after setting (after setting s requests) more := by
  induction requests generalizing s with
  | nil => rfl
  | cons request requests ih => exact ih

theorem after_remembers (htidy : setting.tools.Tidy) {requests : List Request}
    (hmodest : ∀ request ∈ requests, request.Modest) :
    (∀ key node, s.memo.instances.get? key = some node →
      (after setting s requests).memo.instances.get? key = some node) ∧
      ∀ id, s.program.IsDone id → (after setting s requests).program.IsDone id := by
  induction requests generalizing s with
  | nil => exact ⟨fun _ _ h => h, fun _ h => h⟩
  | cons request requests ih =>
    have hfirst := Request.remembers htidy (hmodest request (by simp)) s
    have hrest :=
      ih (s := (request.step.outcome setting s).2) fun r hr => hmodest r (List.mem_cons_of_mem _ hr)
    exact ⟨fun key node h => hrest.1 key node (hfirst.instances key node h),
      fun id h => hrest.2 id (hfirst.constants id h)⟩

/-- The state of a new session after requests. -/
abbrev sessionAfter (setting : Setting) (requests : List Request) : WalkState :=
  after setting ⟨{}, {}⟩ requests

/-- What holds in the end and not at first began to hold with one of the requests. -/
theorem exists_request {P : WalkState → Prop} (hstart : ¬ P ⟨{}, {}⟩) {requests : List Request}
    (hend : P (sessionAfter setting requests)) :
    ∃ before request later, requests = before ++ request :: later ∧
      ¬ P (sessionAfter setting before) ∧ P (sessionAfter setting (before ++ [request])) := by
  induction requests using List.reverseRecOn with
  | nil => exact (hstart hend).elim
  | append_singleton requests request ih =>
    by_cases hbefore : P (sessionAfter setting requests)
    · obtain ⟨before, first, later, rfl, hrest⟩ := ih hbefore
      exact ⟨before, first, later ++ [request], by simp, hrest⟩
    · exact ⟨requests, request, [], rfl, hbefore, hend⟩

/-- Requests may fail, and others follow. Whatever was recorded by then answers all later calls that
need it, and whatever constant was done is read, without anything more being done. But each instance
was recorded by one request that either failed or has typed it to the end, and each constant became
done with one request that either failed or has carried through its evaluation. -/
theorem requests_remember (htidy : setting.tools.Tidy) {requests : List Request}
    (hmodest : ∀ request ∈ requests, request.Modest) :
    (∀ key node, (sessionAfter setting requests).memo.instances.get? key = some node →
      (∀ more, (∀ request ∈ more, request.Modest) → ∀ walk call,
        (methodResult walk call key.owner key.definition key.args key.block).outcome setting
          (sessionAfter setting (requests ++ more)) =
            (.ok node, sessionAfter setting (requests ++ more))) ∧
      ∃ before request later, requests = before ++ request :: later ∧
        (sessionAfter setting before).memo.instances.get? key = none ∧
        (sessionAfter setting (before ++ [request])).memo.instances.get? key = some node ∧
        ((request.step.outcome setting (sessionAfter setting before)).1.isOk = true →
          TypedBetween setting (sessionAfter setting before)
            (sessionAfter setting (before ++ [request])) key node)) ∧
    (∀ const, (sessionAfter setting requests).program.IsDone const →
      (∀ more, (∀ request ∈ more, request.Modest) → ∀ walk reference,
        (evaluateConstant walk reference const).outcome setting
            (sessionAfter setting (requests ++ more)) =
          (.ok (), sessionAfter setting (requests ++ more))) ∧
      ∃ before request later, requests = before ++ request :: later ∧
        ¬ (sessionAfter setting before).program.IsDone const ∧
        (sessionAfter setting (before ++ [request])).program.IsDone const ∧
        ((request.step.outcome setting (sessionAfter setting before)).1.isOk = true →
          EvaluatedBetween setting (sessionAfter setting before)
            (sessionAfter setting (before ++ [request])) const)) := by
  have hstep : ∀ before request, sessionAfter setting (before ++ [request]) =
      (request.step.outcome setting (sessionAfter setting before)).2 :=
        fun before request => after_append before [request]
  refine ⟨fun key node hsome => ⟨fun more hmore walk call => ?_, ?_⟩,
    fun const hdone => ⟨fun more hmore walk reference => ?_, ?_⟩⟩
  · refine outcome_methodResult_of_some ?_
    rw [sessionAfter, after_append]
    exact (after_remembers htidy hmore).1 key node hsome
  · obtain ⟨before, request, later, rfl, hnone, hnew⟩ := exists_request
      (P := fun s => s.memo.instances.get? key ≠ none) (fun h => h rfl)
        (by rw [hsome]; exact Option.some_ne_none _)
    rw [not_not] at hnone
    obtain ⟨first, hfirst⟩ := Option.ne_none_iff_exists'.mp hnew
    have hkept : (sessionAfter setting (before ++ request :: later)).memo.instances.get?
        key = some first := by
      rw [List.append_cons, sessionAfter, after_append]
      exact (after_remembers htidy fun r hr => hmodest r (by simp [hr])).1 key first hfirst
    cases hsome.symm.trans hkept
    have hremembers :=
      Request.remembers htidy (hmodest request (by simp)) (sessionAfter setting before)
    refine ⟨before, request, later, rfl, hnone, hfirst, fun hok => ?_⟩
    rw [hstep] at hfirst ⊢
    exact hremembers.typed () _ (does_of_isOk hok) key node hnone hfirst
  · refine outcome_evaluateConstant_of_done ?_
    rw [sessionAfter, after_append]
    exact ((after_remembers htidy hmore).2 const hdone).2
  · obtain ⟨before, request, later, rfl, hnot, hnew⟩ := exists_request
      (P := fun s => s.program.IsDone const) (fun h => absurd h.1 (Nat.not_lt_zero _)) hdone
    have hremembers :=
      Request.remembers htidy (hmodest request (by simp)) (sessionAfter setting before)
    refine ⟨before, request, later, rfl, hnot, hnew, fun hok => ?_⟩
    rw [hstep] at hnew ⊢
    exact hremembers.evaluated () _ (does_of_isOk hok) const hnot hnew

/-- `def f; g; end; A = g; f; f; A; A`, without a `g`. -/
def failing : Tree := .sequence
  [.bare (.methodDef none "f" [] (some (.call none "g" [])) none none), .assign (.path "A")
    (.call none "g" []), .call none "f" [], .call none "f" [], .path "A", .path "A"]

/-- The statements are visited one after the other, whatever becomes of each. -/
def failingRequests : List Request :=
  .edit (fun p => (p.lower failing).2) (fun p => (grows_same (p.adds_lower failing).1.grows).2.1) ::
    [1, 4, 5, 6, 7, 8].map fun index => .visit 9 ⟨index⟩

/-- The instance of `f` that the calls of it need. -/
def failingInstance : MethodInstance := ⟨.program, ⟨1⟩, [], none⟩

/-- How a request ends, rendered. -/
def report (request : Request) (s : WalkState) : Option String :=
  match (request.step.outcome ⟨.standard, {}⟩ s).1 with
  | .ok () => none
  | .error (.error e) => some (e.render none)
  | .error .exhausted => some ""

/-- To type `f` fails, and the next call of `f` is bound to the node of its result all the same. To
evaluate `A` fails, and `A` is read all the same the next time. -/
theorem failed_then_resolved :
    (sessionAfter ⟨.standard, {}⟩ (failingRequests.take 3)).memo.instances.get?
      failingInstance = none ∧
    report (.visit 9 ⟨5⟩) (sessionAfter ⟨.standard, {}⟩ (failingRequests.take 3)) =
      some "Error: instantiating '<Program>#f()'\n\nError: undefined method 'g' for <Program>\n" ∧
    (sessionAfter ⟨.standard, {}⟩ (failingRequests.take 4)).memo.instances.get?
      failingInstance = some ⟨11⟩ ∧
    report (.visit 9 ⟨6⟩) (sessionAfter ⟨.standard, {}⟩ (failingRequests.take 4)) = none ∧
    (sessionAfter ⟨.standard, {}⟩ (failingRequests.take 5)).memo.targets.get? ⟨6⟩ = some [⟨11⟩] ∧
    report (.visit 9 ⟨7⟩) (sessionAfter ⟨.standard, {}⟩ (failingRequests.take 5)) =
      some "Error: evaluating constant A\n\nError: undefined method 'g' for <Program>\n" ∧
    report (.visit 9 ⟨8⟩) (sessionAfter ⟨.standard, {}⟩ (failingRequests.take 6)) = none := by
  decide +kernel

theorem modest_failingRequests : ∀ request ∈ failingRequests, request.Modest := by
  intro request hrequest
  rcases List.mem_cons.mp hrequest with rfl | hvisit
  · exact fun p => Program.declares_of_eq (grows_same (p.adds_lower failing).1.grows).1
  · obtain ⟨index, -, rfl⟩ := List.mem_map.mp hvisit
    trivial

/-- The instance of `f` stays, recorded by a request that has failed, and so is `A` done since one
that has. -/
theorem requests_remember_failing :
    Toolchain.standard.Tidy ∧ (∀ request ∈ failingRequests, request.Modest) ∧
    (∀ more, (∀ request ∈ more, request.Modest) → ∀ walk call,
      (methodResult walk call .program ⟨1⟩ [] none).outcome ⟨.standard, {}⟩
        (sessionAfter ⟨.standard, {}⟩ (failingRequests ++ more)) =
          (.ok ⟨11⟩, sessionAfter ⟨.standard, {}⟩ (failingRequests ++ more))) ∧
    (∀ more, (∀ request ∈ more, request.Modest) → ∀ walk reference,
      (evaluateConstant walk reference ⟨0⟩).outcome ⟨.standard, {}⟩
        (sessionAfter ⟨.standard, {}⟩ (failingRequests ++ more)) =
          (.ok (), sessionAfter ⟨.standard, {}⟩ (failingRequests ++ more))) := by
  have hrecorded : (sessionAfter ⟨.standard, {}⟩ failingRequests).memo.instances.get?
      failingInstance = some ⟨11⟩ ∧
      (sessionAfter ⟨.standard, {}⟩ failingRequests).program.constants.size = 1 ∧
      ((sessionAfter ⟨.standard, {}⟩ failingRequests).program.constant ⟨0⟩).state =
        .done := by decide +kernel
  have htidy : (⟨.standard, {}⟩ : Setting).tools.Tidy := Toolchain.tidy_standard
  obtain ⟨hinstances, hconstants⟩ := requests_remember htidy modest_failingRequests
  exact ⟨Toolchain.tidy_standard, modest_failingRequests,
    (hinstances failingInstance ⟨11⟩ hrecorded.1).1,
    (hconstants ⟨0⟩ ⟨by rw [hrecorded.2.1]; exact Nat.one_pos, hrecorded.2.2⟩).1⟩

end Infer

end TypeFlow
