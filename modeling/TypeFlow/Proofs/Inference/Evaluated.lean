import TypeFlow.Proofs.Inference.Reached
import TypeFlow.Tree.Builder

/-!
# Constants that have been evaluated

A walk ends every evaluation of a constant that it begins (`Runs.evaluates`), so that none is left
when inference of a program is over. The constants that nothing has read are taken down once, before
the first of them is evaluated: all that were declared by then are done in the end
(`Session.infer_evaluated`), but not one that was only declared while these were evaluated.
-/

namespace TypeFlow

namespace Program
variable {p p' p'' : Program} {id other : ConstantId}

/-- The evaluations that were going on still are, and no others; constants that were done stay
so. -/
structure Evaluates (p p' : Program) : Prop where
  evaluating_eq : p'.evaluating = p.evaluating
  size_le : p.constants.size ≤ p'.constants.size
  evaluating_iff : ∀ id, (p'.constant id).state = .evaluating ↔ (p.constant id).state = .evaluating
  done : ∀ id : ConstantId, id.index < p.constants.size → (p.constant id).state = .done →
    (p'.constant id).state = .done

namespace Evaluates

theorem of_eq (hconstants : p'.constants = p.constants) (h : p'.evaluating = p.evaluating) :
    p.Evaluates p' := by
  have hconstant : ∀ id, p'.constant id = p.constant id :=
    fun id => by unfold constant; rw [hconstants]
  exact ⟨h, by rw [hconstants], fun id => by rw [hconstant],
    fun id _ hd => (hconstant id).symm ▸ hd⟩

protected theorem refl (p : Program) : p.Evaluates p := of_eq rfl rfl

theorem trans (h : p.Evaluates p') (h' : p'.Evaluates p'') : p.Evaluates p'' where
  evaluating_eq := h'.evaluating_eq.trans h.evaluating_eq
  size_le := h.size_le.trans h'.size_le
  evaluating_iff id := (h'.evaluating_iff id).trans (h.evaluating_iff id)
  done id hid hd := h'.done id (Nat.lt_of_lt_of_le hid h.size_le) (h.done id hid hd)

end Evaluates

theorem index_lt_of_pending (h : (p.constant id).state = .pending) :
    id.index < p.constants.size := by
  refine Nat.lt_of_not_le fun hle => ?_
  rw [constant, Array.getElem?_eq_none hle] at h
  cases h

theorem constant_addConstant (c : Constant) :
    (p.addConstant c).constant id = if id.index = p.constants.size then c else p.constant id := by
  unfold addConstant constant
  rw [Array.getElem?_push]
  split <;> rfl

theorem state_setConstantState (state : ConstantState) (hid : id.index < p.constants.size) :
    ((p.setConstantState id state).constant other).state = if other = id then state
      else (p.constant other).state := by
  unfold setConstantState constant
  rw [Array.getElem?_modify]
  by_cases h : other = id
  · subst h
    simp [Array.getElem?_eq_getElem hid]
  · have hne : ¬ id.index = other.index := fun heq => h (by cases id; cases other; cases heq; rfl)
    rw [if_neg hne, if_neg h]

theorem evaluates_addConstant {c : Constant} (hc : c.state = .pending) :
    p.Evaluates (p.addConstant c) where
  evaluating_eq := rfl
  size_le := by simp [addConstant]
  evaluating_iff id := by
    rw [constant_addConstant]
    split
    · rename_i hid
      have hnone : p.constant id = default := by
        rw [constant, Array.getElem?_eq_none (Nat.le_of_eq hid.symm)]
        rfl
      exact iff_of_false (by rw [hc]; decide) (by rw [hnone]; decide)
    · exact Iff.rfl
  done id hid hd := by rwa [constant_addConstant, if_neg (Nat.ne_of_lt hid)]

/-- The constant itself is pending before and done afterwards; meanwhile it is on top of the
stack. -/
theorem Evaluates.evaluation (hpending : (p.constant id).state = .pending)
    (h : (p.beginConstant id).Evaluates p') :
    p.Evaluates (p'.endConstant id) ∧ ((p'.endConstant id).constant id).state = .done := by
  have hid := index_lt_of_pending hpending
  have hsize : (p.beginConstant id).constants.size = p.constants.size := by
    simp [beginConstant, setConstantState]
  have hid' : id.index < p'.constants.size := Nat.lt_of_lt_of_le hid (hsize ▸ h.size_le)
  have hbegin : ∀ other, ((p.beginConstant id).constant other).state =
      if other = id then .evaluating else (p.constant other).state :=
        fun _ => state_setConstantState _ hid
  have hend : ∀ other, ((p'.endConstant id).constant other).state =
      if other = id then .done else (p'.constant other).state :=
        fun _ => state_setConstantState _ hid'
  refine ⟨⟨?_, ?_, fun other => ?_, fun other hother hd => ?_⟩, by rw [hend, if_pos rfl]⟩
  · exact congrArg List.tail h.evaluating_eq
  · rw [hsize.symm]
    simpa [endConstant, setConstantState] using h.size_le
  · rw [hend]
    split
    · rename_i heq
      exact iff_of_false (by decide) (by rw [heq, hpending]; decide)
    · rename_i hne
      rw [h.evaluating_iff, hbegin, if_neg hne]
  · rw [hend]
    split
    · rfl
    · rename_i hne
      exact h.done other (hsize.symm ▸ hother) (by rw [hbegin, if_neg hne]; exact hd)

end Program

namespace Infer
variable {α : Type} {setting : Setting} {kept : Kept} {ok : Bool} {s s' : WalkState} {walk : Step}

theorem Act.evaluates (h : Act kept ok s s') : s.program.Evaluates s'.program := by
  cases h with
  | note h => cases h <;> exact .of_eq rfl rfl
  | constant _ hpending => exact Program.evaluates_addConstant hpending
  | method owner key definition =>
    rw [WalkState.withProgram_program]
    unfold Program.addMethod
    dsimp only
    split <;> exact .of_eq rfl rfl
  | instanceVar owner name =>
    rw [WalkState.withProgram_program]
    unfold Program.instanceVarNode
    split <;> exact .of_eq rfl rfl
  | breakNode block =>
    rw [WalkState.withProgram_program]
    unfold Program.breakNodeOf
    split <;> exact .of_eq rfl rfl
  | _ => exact .of_eq rfl rfl

theorem CallAct.evaluates {call : ExprId} (h : CallAct call ok s s') :
    s.program.Evaluates s'.program := by
  cases h <;> exact .of_eq rfl rfl

/-- By induction on the run. -/
theorem Runs.evaluates (h : Runs setting kept ok s s') : s.program.Evaluates s'.program := by
  induction h with
  | refl | failed => exact .refl _
  | act h => exact h.evaluates
  | trans _ _ ih ih' => exact ih.trans ih'
  | evaluation hpending _ ih => exact (ih.evaluation hpending).1
  | region r _ _ ih => exact ih
  | resolution h _ h' _ ih => exact (h.evaluates.trans ih).trans h'.evaluates
  | @visit _ _ _ s _ _ call scope _ _ _ _ ih ih' =>
    have hnote : s.program.Evaluates (s.program.noteScope call scope) := .of_eq rfl rfl
    exact (hnote.trans ih).trans ih'

theorem does_evaluateConstant {reference : ExprId} {id : ConstantId} (hw : Walks setting walk)
    (hs : Ready kept s) (hpending : (s.program.constant id).state = .pending)
    (hd : (evaluateConstant walk reference id).Does setting s () s') :
    (s'.program.constant id).state = .done := by
  have hvalue := runnable_constantValue hw hs hpending
  rcases hout : (inFrame _ (walk _)).outcome setting _ with ⟨result, s₁⟩
  have hends := outcome_evaluateConstant reference hpending hout
  rw [Does, hends] at hd
  cases result with
  | error e => cases hd
  | ok a =>
    cases hd
    exact ((hvalue.ok a s₁ hout).1.evaluates.evaluation hpending).2

/-- A constant that is left for later may have been evaluated by then. -/
theorem does_evaluateLater {id : ConstantId} (hw : Walks setting walk) (hs : Ready kept s)
    (hnone : ∀ id, (s.program.constant id).state ≠ .evaluating)
    (hd : (do
      let c := (← program).constant id
      if c.state = .pending then evaluateConstant walk c.value id : Infer Unit).Does setting
      s () s') :
    Runs setting kept true s s' ∧ (s'.program.constant id).state = .done := by
  rw [does_bind_of_ok outcome_program] at hd
  rcases hstate : (s.program.constant id).state with _ | _ | _
  · dsimp only at hd
    rw [if_pos hstate] at hd
    obtain ⟨hruns, -⟩ := (runnable_evaluateConstant hw hs _ id).does hd
    exact ⟨hruns, does_evaluateConstant hw hs hstate hd⟩
  · exact absurd hstate (hnone id)
  · dsimp only at hd
    rw [if_neg (by rw [hstate]; decide)] at hd
    obtain ⟨-, rfl⟩ := does_pure.mp hd
    exact ⟨.refl _ _, hstate⟩

theorem does_evaluateRemaining (hw : Walks setting walk) (hs : Ready kept s)
    (hnone : ∀ id, (s.program.constant id).state ≠ .evaluating)
    (hd : (evaluateRemaining walk).Does setting s () s') :
    Runs setting kept true s s' ∧ ∀ id ∈ s.program.pendingConstants,
      (s'.program.constant id).state = .done := by
  unfold evaluateRemaining at hd
  rw [does_bind_of_ok outcome_program] at hd
  have hids : ∀ id ∈ s.program.pendingConstants, id.index < s.program.constants.size := by
    intro id hid
    obtain ⟨-, hpending⟩ := List.mem_filter.mp hid
    exact Program.index_lt_of_pending (beq_iff_eq.mp hpending)
  generalize s.program.pendingConstants = ids at hd hids ⊢
  -- by induction on those that are left; what has been evaluated before stays so
  induction ids generalizing s with
  | nil =>
    cases hd
    exact ⟨.refl _ _, fun _ h => nomatch h⟩
  | cons first rest ih =>
    obtain ⟨s₁, hfirst, hrest⟩ := does_forM_cons.mp hd
    obtain ⟨hruns, hdone⟩ := does_evaluateLater hw hs hnone hfirst
    have he := hruns.evaluates
    obtain ⟨hruns', hall⟩ :=
      ih (hruns.ready hs).2 (fun id => mt (he.evaluating_iff id).mp (hnone id)) hrest
      fun id hid => Nat.lt_of_lt_of_le (hids id (by simp [hid])) he.size_le
    refine ⟨hruns.trans hruns', fun id hid => ?_⟩
    rcases List.mem_cons.mp hid with rfl | hid
    · exact hruns'.evaluates.done _ (Nat.lt_of_lt_of_le (hids _ (by simp)) he.size_le) hdone
    · exact hall id hid

end Infer

/-! ### Inference of a program -/

namespace Phase
variable {α β : Type} {setting : Setting} {s s' : Session}

theorem does_of_run_ofStep {x : Infer α} {a : α}
    (h : (ExceptT.run (ofStep setting x)).run s = (.ok a, s')) :
    ∃ f, x.Does setting ⟨s, {}⟩ a ⟨s', f⟩ := by
  have hout : (ExceptT.run (ofStep setting x)).run s =
      ((x.outcome setting ⟨s, {}⟩).1, (x.outcome setting ⟨s, {}⟩).2.session) := rfl
  obtain ⟨hresult, hsession⟩ := Prod.mk.inj (hout.symm.trans h)
  refine ⟨(x.outcome setting ⟨s, {}⟩).2.frame, Prod.ext hresult ?_⟩
  rw [← hsession]

theorem ok_of_run_bind {x : Phase α} {f : α → Phase β} {b : β}
    (h : (ExceptT.run (x >>= f)).run s = (.ok b, s')) :
    ∃ a m, (ExceptT.run x).run s = (.ok a, m) ∧ (ExceptT.run (f a)).run m = (.ok b, s') := by
  rw [WalkState.Reached.run_bind_phase] at h
  rcases hx : (ExceptT.run x).run s with ⟨_ | a, m⟩ <;> rw [hx] at h
  · cases h
  · exact ⟨a, m, rfl, h⟩

theorem runs_lower {tree : Tree} {root : ExprId}
    (h : (ExceptT.run (lower setting tree)).run s = (.ok root, s')) :
    ∃ f, Infer.Runs setting none true ⟨s, {}⟩ ⟨s', f⟩ ∧ WalkState.Has ⟨s', {}⟩ root := by
  obtain ⟨f, hd⟩ := does_of_run_ofStep h
  have hlower : Infer.Goes setting none ⟨s, {}⟩ (Infer.lowerTree tree) fun root s' => s'.Has root :=
    Infer.goes_lowerTree tree
  exact ⟨f, hlower.does hd⟩

theorem runs_walk (htidy : setting.tools.Tidy) {root : ExprId} (hs : WalkState.Reached ⟨s, {}⟩)
    (hroot : WalkState.Has ⟨s, {}⟩ root)
    (h : (ExceptT.run (walk setting root)).run s = (.ok (), s')) :
    ∃ f, Infer.Runs setting none true ⟨s, {}⟩ ⟨s', f⟩ ∧
      (Infer.walk Infer.depthBudget root).Does setting ⟨s, {}⟩ () ⟨s', f⟩ := by
  obtain ⟨f, hd⟩ := does_of_run_ofStep h
  obtain ⟨hruns, -⟩ := (Infer.walks_walk htidy Infer.depthBudget none _ root hs.ready hroot).does hd
  exact ⟨f, hruns, hd⟩

end Phase

namespace Session

/-- The walk of a tree, after which the constants that nothing has read are taken down. -/
def walk (s : Session) (setting : Setting) (tree : Tree) : Except Failure Unit × Session :=
  (Phase.lower setting tree >>= Phase.walk setting).run s

variable {setting : Setting}

/-- Once a program has been inferred no constant is being evaluated, and those that had been
declared before the unread ones were taken down are done. -/
theorem infer_evaluated (htidy : setting.tools.Tidy)
    (hunread : setting.options.inferUnreadConstants = true) {tree : Tree} {inferred : Inferred}
    {s' : Session} (h : ({} : Session).infer setting tree = (.ok inferred, s')) :
    s'.program.evaluating = [] ∧ (∀ id, (s'.program.constant id).state ≠ .evaluating) ∧
      ∀ id ∈ s'.program.pendingConstants,
        (({} : Session).walk setting tree).2.program.constants.size ≤ id.index := by
  have hw := Infer.walks_walk htidy Infer.depthBudget
  obtain ⟨root, s₁, hlower, hrest⟩ := Phase.ok_of_run_bind h
  obtain ⟨⟨⟩, s₂, hwalk, hrest⟩ := Phase.ok_of_run_bind hrest
  obtain ⟨⟨⟩, s₃, hconstants, hsettle⟩ := Phase.ok_of_run_bind hrest
  have hwalked : ({} : Session).walk setting tree = (.ok (), s₂) :=
    (WalkState.Reached.run_bind_phase ..).trans (by rw [hlower]; exact hwalk)
  rw [hwalked]
  -- each phase starts at the top level, in a state that has been reached
  obtain ⟨f₁, hruns₁, hroot⟩ := Phase.runs_lower hlower
  have h₁ : WalkState.Reached ⟨s₁, {}⟩ := (WalkState.Reached.runs .start hruns₁).topLevel
  obtain ⟨f₂, hruns₂, -⟩ := Phase.runs_walk htidy h₁ hroot hwalk
  have h₂ : WalkState.Reached ⟨s₂, {}⟩ := (h₁.runs hruns₂).topLevel
  have he₂ : Program.Evaluates .initial s₂.program := hruns₁.evaluates.trans hruns₂.evaluates
  have hnone : ∀ id, (s₂.program.constant id).state ≠ .evaluating :=
    fun id => mt (he₂.evaluating_iff id).mp nofun
  rw [Phase.constants, if_pos hunread] at hconstants
  obtain ⟨f₃, hconstants⟩ := Phase.does_of_run_ofStep hconstants
  obtain ⟨hruns₃, hdone⟩ := Infer.does_evaluateRemaining hw h₂.ready hnone hconstants
  have he₃ : s₂.program.Evaluates s₃.program := hruns₃.evaluates
  cases hsettle
  refine ⟨he₃.evaluating_eq.trans he₂.evaluating_eq, fun id => mt (he₃.evaluating_iff id).mp
    (hnone id), fun id hid => ?_⟩
  have hpending : (s₃.program.constant id).state = .pending :=
    beq_iff_eq.mp (List.mem_filter.mp hid).2
  refine Nat.le_of_not_lt fun hlt => ?_
  suffices hend : (s₃.program.constant id).state = .done by rw [hend] at hpending; cases hpending
  rcases hstate : (s₂.program.constant id).state with _ | _ | _
  · refine hdone id
      (List.mem_filter.mpr ⟨List.mem_map.mpr ⟨id.index, List.mem_range.mpr hlt, rfl⟩, ?_⟩)
    exact beq_iff_eq.mpr hstate
  · exact absurd hstate (hnone id)
  · exact he₃.done id hlt hstate

/-- `A = (B = 1)`. -/
def nestedConstants : Tree := .assign (.path "A") (.assign (.path "B") (.int32 1))

def nestedConstantsRead : Tree := .sequence [nestedConstants, .path "A"]

/-- When `A` is read, `B` is declared before the unread constants are taken down. -/
theorem infer_evaluated_nested : Toolchain.standard.Tidy ∧ ∃ inferred s',
    ({} : Session).infer ⟨.standard, {}⟩ nestedConstantsRead = (.ok inferred, s') ∧
    s'.program.constants.size = 2 ∧ s'.program.evaluating = [] ∧
    (∀ id, (s'.program.constant id).state ≠ .evaluating) ∧ s'.program.pendingConstants = [] := by
  have hok : (({} : Session).infer ⟨.standard, {}⟩ nestedConstantsRead).1.isOk = true := by
    decide +kernel
  have hsizes :
      (({} : Session).infer ⟨.standard, {}⟩ nestedConstantsRead).2.program.constants.size = 2 ∧
      (({} : Session).walk ⟨.standard, {}⟩ nestedConstantsRead).2.program.constants.size = 2 := by
    decide +kernel
  rcases h : ({} : Session).infer ⟨.standard, {}⟩ nestedConstantsRead with ⟨_ | inferred, s'⟩
  · rw [h] at hok; cases hok
  rw [h] at hsizes
  obtain ⟨hsize, hwalked⟩ := hsizes
  obtain ⟨hevaluating, hnone, hpending⟩ := infer_evaluated Toolchain.tidy_standard rfl h
  refine ⟨Toolchain.tidy_standard, inferred, s', rfl, hsize, hevaluating, hnone, ?_⟩
  refine List.eq_nil_iff_forall_not_mem.mpr fun id hid => ?_
  have hlt := Program.index_lt_of_pending (beq_iff_eq.mp (List.mem_filter.mp hid).2)
  exact absurd (hpending id hid) (Nat.not_le.mpr (hwalked.symm ▸ hsize ▸ hlt))

/-- When nothing reads `A`, `B` is only declared while `A` is evaluated, and so it is left
pending. -/
theorem pending_nestedConstants : ∃ inferred s',
    ({} : Session).infer ⟨.standard, {}⟩ nestedConstants = (.ok inferred, s') ∧
    s'.program.pendingConstants = [⟨1⟩] ∧ s'.program.qualifiedName ⟨1⟩ = "B" := by
  have hend : let r := ({} : Session).infer ⟨.standard, {}⟩ nestedConstants
      r.1.isOk = true ∧ r.2.program.pendingConstants = [⟨1⟩] ∧
        r.2.program.qualifiedName ⟨1⟩ = "B" := by decide +kernel
  obtain ⟨hok, hpending⟩ := hend
  rcases h : ({} : Session).infer ⟨.standard, {}⟩ nestedConstants with ⟨_ | inferred, s'⟩ <;>
    rw [h] at hok hpending
  · cases hok
  · exact ⟨inferred, s', rfl, hpending⟩

end Session

end TypeFlow
