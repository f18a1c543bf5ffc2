import TypeFlow.Inference.Walk
import TypeFlow.Proofs.Flow.Runs

/-!
# Outcomes of steps

`x.outcome setting s` is how the step `x` ends when it is taken in the state `s`;
`x.Does setting s a s'` says that it is carried through, answers `a` and ends in `s'`. There is one
equation for each way in which steps are put together.
-/

namespace TypeFlow

namespace WalkState

abbrev program (s : WalkState) : Program := s.session.program

abbrev memo (s : WalkState) : CallMemo := s.session.memo

def withProgram (s : WalkState) (p : Program) : WalkState :=
  { s with session := { s.session with program := p } }

def withMemo (s : WalkState) (m : CallMemo) : WalkState :=
  { s with session := { s.session with memo := m } }

def withFrame (s : WalkState) (f : Frame) : WalkState := { s with frame := f }

variable (s : WalkState) (p p' : Program) (m m' : CallMemo) (f f' : Frame)

@[simp] theorem withProgram_program : (s.withProgram p).program = p := rfl
@[simp] theorem withProgram_memo : (s.withProgram p).memo = s.memo := rfl
@[simp] theorem withProgram_frame : (s.withProgram p).frame = s.frame := rfl
@[simp] theorem withProgram_withProgram : (s.withProgram p).withProgram p' = s.withProgram p' := rfl
@[simp] theorem withProgram_self : s.withProgram s.program = s := rfl
@[simp] theorem withMemo_program : (s.withMemo m).program = s.program := rfl
@[simp] theorem withMemo_memo : (s.withMemo m).memo = m := rfl
@[simp] theorem withMemo_frame : (s.withMemo m).frame = s.frame := rfl
@[simp] theorem withFrame_program : (s.withFrame f).program = s.program := rfl
@[simp] theorem withFrame_memo : (s.withFrame f).memo = s.memo := rfl
@[simp] theorem withFrame_frame : (s.withFrame f).frame = f := rfl
@[simp] theorem withFrame_withFrame : (s.withFrame f).withFrame f' = s.withFrame f' := rfl
@[simp] theorem withFrame_self : s.withFrame s.frame = s := rfl

end WalkState

namespace Infer
variable {α β : Type} {setting : Setting} {s s' : WalkState}

def outcome (x : Infer α) (setting : Setting) (s : WalkState) : Except Failure α × WalkState :=
  (ExceptT.run (x setting)).run s

def Does (x : Infer α) (setting : Setting) (s : WalkState) (a : α) (s' : WalkState) : Prop :=
  x.outcome setting s = (.ok a, s')

theorem does_of_isOk {x : Infer Unit} (h : (x.outcome setting s).1.isOk = true) :
    x.Does setting s () (x.outcome setting s).2 := by
  unfold Does
  revert h
  rcases x.outcome setting s with ⟨_ | ⟨⟩, s'⟩
  · exact nofun
  · exact fun _ => rfl

theorem does_of_toOption {x : Infer α} {a : α} (h : (x.outcome setting s).1.toOption = some a) :
    x.Does setting s a (x.outcome setting s).2 := by
  unfold Does
  revert h
  rcases x.outcome setting s with ⟨_ | b, s'⟩ <;> intro h <;> cases h
  rfl

theorem outcome_pure (a : α) : (pure a : Infer α).outcome setting s = (.ok a, s) := rfl

theorem outcome_bind (x : Infer α) (f : α → Infer β) :
    (x >>= f).outcome setting s = match x.outcome setting s with
      | (.ok a, s') => (f a).outcome setting s'
      | (.error e, s') => (.error e, s') := by
  show (ExceptT.run (x setting >>= fun a => f a setting)).run s = _
  simp only [ExceptT.run_bind, StateT.run_bind, outcome]
  rcases (ExceptT.run (x setting)).run s with ⟨_ | a, s'⟩ <;> rfl

theorem outcome_get : (get : Infer WalkState).outcome setting s = (.ok s, s) := rfl

theorem outcome_read : (read : Infer Setting).outcome setting s = (.ok setting, s) := rfl

theorem does_pure {a b : α} : Does (pure a) setting s b s' ↔ a = b ∧ s = s' := by
  simp [Does, outcome_pure]

theorem does_bind {x : Infer α} {f : α → Infer β} {b : β} :
    (x >>= f).Does setting s b s' ↔ ∃ a m, x.Does setting s a m ∧ (f a).Does setting m b s' := by
  simp only [Does, outcome_bind]
  rcases x.outcome setting s with ⟨_ | a, m⟩
  · simp
  · constructor
    · exact fun h => ⟨a, m, rfl, h⟩
    · rintro ⟨a', m', h, h'⟩; cases h; exact h'

/-- A step that is always carried through comes first. -/
theorem does_bind_of_ok {x : Infer α} {f : α → Infer β} {a : α} {b : β} {m : WalkState}
    (h : x.outcome setting s = (.ok a, m)) :
    (x >>= f).Does setting s b s' ↔ (f a).Does setting m b s' := by
  rw [Does, Does, outcome_bind, h]

theorem does_forM_cons {γ : Type} {c : γ} {cs : List γ} {f : γ → Infer Unit} :
    ((c :: cs).forM f).Does setting s () s' ↔
      ∃ m, (f c).Does setting s () m ∧ (cs.forM f).Does setting m () s' := by
  rw [show (c :: cs).forM f = (f c >>= fun _ => cs.forM f) from rfl]
  exact does_bind.trans ⟨fun ⟨_, m, h⟩ => ⟨m, h⟩, fun ⟨m, h⟩ => ⟨(), m, h⟩⟩

/-! ### Reads -/

theorem outcome_program : program.outcome setting s = (.ok s.program, s) := rfl
theorem outcome_frame : frame.outcome setting s = (.ok s.frame, s) := rfl
theorem outcome_types : types.outcome setting s = (.ok s.program.types, s) := rfl

theorem outcome_locationOf (id : ExprId) :
    (locationOf id).outcome setting s = (.ok (s.program.location id), s) := rfl

theorem outcome_nodeOf (id : ExprId) :
    (nodeOf id).outcome setting s = (.ok (s.program.nodeOf id), s) := rfl

theorem outcome_typeOf (id : ExprId) :
    (typeOf id).outcome setting s = (.ok (s.program.typeOf id), s) := rfl

theorem outcome_guardOf (id : ExprId) :
    (guardOf id).outcome setting s = (.ok (s.program.guardOf id), s) := rfl

theorem outcome_construct (id : ExprId) :
    (construct id).outcome setting s = (.ok (s.program.construct id), s) := rfl

theorem outcome_partNode (id : Option ExprId) :
    (partNode id).outcome setting s = (.ok (s.program.partNode id), s) := rfl

theorem outcome_nameOf (id : TypeId) :
    (nameOf id).outcome setting s = (.ok (s.program.types.name id), s) := rfl

theorem outcome_innermostType :
    innermostType.outcome setting s = (.ok s.frame.innermostType, s) := rfl

/-! ### Changes -/

theorem outcome_updateProgram (f : Program → α × Program) :
    (updateProgram f).outcome setting s = (.ok (f s.program).1, s.withProgram (f s.program).2) :=
  rfl

theorem outcome_modifyProgram (f : Program → Program) :
    (modifyProgram f).outcome setting s = (.ok (), s.withProgram (f s.program)) := rfl

theorem outcome_addVar :
    addVar.outcome setting s = (.ok s.program.addVar.1, s.withProgram s.program.addVar.2) := rfl

theorem outcome_updateTypes (f : Types → α × Types) :
    (updateTypes f).outcome setting s = (.ok (f s.program.types).1,
      s.withProgram { s.program with types := (f s.program.types).2 }) := rfl

theorem outcome_modifyGraph (f : FlowGraph → FlowGraph) :
    (modifyGraph f).outcome setting s = (.ok (), s.withProgram (s.program.modifyGraph f)) := rfl

theorem outcome_setExprGuard (id : ExprId) (guard : Option Guard) :
    (setExprGuard id guard).outcome setting s =
      (.ok (), s.withProgram (s.program.modifyGraph fun g =>
        g.setGuard (s.program.nodeOf id) guard)) := rfl

theorem outcome_modifyFrame (f : Frame → Frame) :
    (modifyFrame f).outcome setting s = (.ok (), s.withFrame (f s.frame)) := rfl

theorem outcome_modifyMemo (f : CallMemo → CallMemo) :
    (modifyMemo f).outcome setting s = (.ok (), s.withMemo (f s.memo)) := rfl

/-! ### Errors and frames -/

theorem outcome_problemAt (id : ExprId) (problem : Problem) :
    (problemAt id problem : Infer α).outcome setting s =
      (.error (.error (.typeError problem (some id) (s.program.location id) none)), s) := rfl

theorem outcome_defectAt (id : ExprId) (defect : Defect) :
    (defectAt id defect : Infer α).outcome setting s =
      (.error (.error (.internal defect (s.program.location id))), s) := rfl

def mapFailure (f : Diagnostic → Diagnostic) : Failure → Failure
  | .error e => .error (f e)
  | .exhausted => .exhausted

theorem outcome_mapError (f : Diagnostic → Diagnostic) (x : Infer α) :
    (mapError f x).outcome setting s =
      ((x.outcome setting s).1.mapError (mapFailure f), (x.outcome setting s).2) := by
  unfold mapError
  show (ExceptT.run (tryCatch (x setting) _)).run s = _
  simp only [tryCatch, tryCatchThe, MonadExceptOf.tryCatch, ExceptT.tryCatch,
    ExceptT.run_mk, StateT.run_bind]
  show _ = ((StateT.run (x setting) s).1.mapError (mapFailure f), (StateT.run (x setting) s).2)
  generalize StateT.run (x setting) s = r
  rcases r with ⟨(_ | _) | a, s'⟩ <;> rfl

theorem does_mapError {f : Diagnostic → Diagnostic} {x : Infer α} {a : α} :
    (mapError f x).Does setting s a s' ↔ x.Does setting s a s' := by
  rw [Does, Does, outcome_mapError]
  rcases x.outcome setting s with ⟨_ | a, m⟩
  · exact iff_of_false nofun nofun
  · exact Iff.rfl

theorem outcome_within (enter : Frame → Frame) (leave : Frame → Frame → Frame) (x : Infer α) :
    (within enter leave x).outcome setting s =
      ((x.outcome setting (s.withFrame (enter s.frame))).1,
        (x.outcome setting (s.withFrame (enter s.frame))).2.withFrame
          (leave s.frame (x.outcome setting (s.withFrame (enter s.frame))).2.frame)) := by
  show StateT.run (do
      let before := (← get).frame
      modify fun s => { s with frame := enter s.frame }
      let result ← (ExceptT.run (x setting))
      modify fun s => { s with frame := leave before s.frame }
      return result) s = _
  rfl

theorem outcome_onNetwork (change : Binding α) :
    (onNetwork change).outcome setting s =
      ((s.program.onNetwork change).1.mapError ofGraphFailure,
        s.withProgram (s.program.onNetwork change).2) := by
  unfold onNetwork
  rw [outcome_bind, outcome_updateProgram]
  dsimp only
  rcases (s.program.onNetwork change).1 with e | a <;> rfl

theorem onNetwork_eq (p : Program) (change : Binding α) : p.onNetwork change =
    ((change.outcome p.toNetwork).1, { p with toNetwork := (change.outcome p.toNetwork).2 }) := rfl

theorem does_onNetwork {change : Binding α} {a : α} : (onNetwork change).Does setting s a s' ↔
    ∃ n, change.Does s.program.toNetwork a n ∧
      s' = s.withProgram { s.program with toNetwork := n } := by
  rw [Does, outcome_onNetwork, onNetwork_eq]
  unfold Binding.Does
  rcases change.outcome s.program.toNetwork with ⟨e | b, n⟩
  · exact iff_of_false nofun fun ⟨_, h, _⟩ => nomatch h
  · constructor
    · intro h
      cases h; exact ⟨n, rfl, rfl⟩
    · rintro ⟨_, h, rfl⟩
      cases h; rfl

theorem outcome_ofBinding (r : Except GraphFailure α) :
    (ofBinding r).outcome setting s = (r.mapError ofGraphFailure, s) := by
  cases r <;> rfl

end Infer

end TypeFlow
