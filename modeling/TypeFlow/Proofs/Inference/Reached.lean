import TypeFlow.Inference.Run
import TypeFlow.Proofs.Inference.Walked

/-!
# States that inference reaches

A state is reached from a new session by adding trees, by taking steps of the walk, at the top level
of the program, in any region of it, while a constant is evaluated or a call is visited or resolved,
and by giving types to nodes that have none. It need not lie between two walks: a walk goes through
reached states all the time. They are all sound (`Reached.sound`), and inference of a program,
whether it succeeds or not, ends in one (`Reached.infer`).
-/

namespace TypeFlow

inductive WalkState.Reached : WalkState → Prop where
  | start : Reached ⟨{}, {}⟩
  | lower {s : WalkState} (tree : Tree) : Reached s →
      Reached (s.withProgram (s.program.lower tree).2)
  | settle {s : WalkState} : Reached s → Reached (s.withProgram s.program.settleUntyped.2)
  | enter {s : WalkState} (r : Infer.Region) : Reached s → r.Fits s →
      Reached (s.withFrame (r.enter s.frame))
  | evaluate {s : WalkState} {id : ConstantId} : Reached s →
      (s.program.constant id).state = .pending →
      Reached (s.withProgram (s.program.beginConstant id))
  | visit {s : WalkState} {call : ExprId} (scope : TypeId) : Reached s →
      call.index < s.program.exprs.size →
      Reached (s.withProgram (s.program.noteScope call scope))
  | call {s s' : WalkState} {call : ExprId} {ok : Bool} : Reached s →
      Infer.CallAct call ok s s' → Reached s'
  | runs {setting : Setting} {s s' : WalkState} {kept : Infer.Kept} {ok : Bool} : Reached s →
      Infer.Runs setting kept ok s s' → Reached s'

/-- The state in which nothing has been walked of a tree but everything is there. -/
def WalkState.lowered (tree : Tree) : WalkState :=
  WalkState.withProgram ⟨{}, {}⟩ (Program.initial.lower tree).2

theorem WalkState.reached_lowered (tree : Tree) : (lowered tree).Reached := .lower tree .start

namespace WalkState.Reached
variable {α β : Type} {setting : Setting} {s : WalkState}

theorem sound (h : s.Reached) : s.Sound fun _ => False := by
  induction h with
  | start =>
    refine ⟨.initial, ?_, ?_, ?_, ?_⟩
    · intro _ _ hn; cases hn
    · intro _ hn; cases hn
    · intro _ _ hn; cases hn
    · intro _ _ hn; cases hn
  | @lower s tree _ ih =>
    have hadds : Infer.Runs ⟨.standard, {}⟩ none true s _ :=
      Infer.runs_adds (s.program.adds_lower tree).1
    exact (hadds.sound ih).2
  | settle _ ih =>
    obtain ⟨hl, hp⟩ := ih.program.settleUntyped
    exact (ih.withProgram hl hp).2
  | enter r _ hr ih => exact r.sound_enter hr ih
  | evaluate _ _ ih =>
    obtain ⟨hl, hp⟩ := ih.program.beginConstant _
    exact (ih.withProgram hl hp).2
  | visit scope _ _ ih =>
    obtain ⟨hl, hp⟩ := ih.program.noteScope _ scope
    exact (ih.withProgram hl hp).2
  | call _ h ih => exact (h.sound ih).2
  | runs _ hr ih => exact (hr.sound ih).2

theorem ready (h : s.Reached) : Infer.Ready none s := ⟨h.sound, fun _ h => nomatch h⟩

/-- What a step leads to, also if it fails. -/
theorem goes {kept : Infer.Kept} {x : Infer α} {Q : α → WalkState → Prop} (h : s.Reached)
    (hx : Infer.Goes setting kept s x Q) : (x.outcome setting s).2.Reached := by
  rw [Infer.goes_iff] at hx
  rcases ho : x.outcome setting s with ⟨_ | a, s'⟩ <;> rw [ho] at hx
  · exact .runs h hx
  · exact .runs h hx.1

theorem walk (h : s.Reached) (htidy : setting.tools.Tidy) {id : ExprId} (hid : s.Has id)
    (fuel : Nat) : ((Infer.walk fuel id).outcome setting s).2.Reached :=
  h.goes (Infer.walks_walk htidy fuel none s id h.ready hid)

/-! ### Inference of a program -/

/-- The top level of the program may be entered at any time. -/
theorem topLevel (h : s.Reached) : WalkState.Reached ⟨s.session, {}⟩ := by
  have hfits : (Infer.Region.own {}).Fits s := by
    refine ⟨?_, ?_⟩
    · intro _ _ hn; cases hn
    · intro _ hn; cases hn
  exact .enter (.own {}) h hfits

theorem run_bind_phase (x : Phase α) (f : α → Phase β) (s : Session) :
    (ExceptT.run (x >>= f)).run s = match (ExceptT.run x).run s with
      | (.ok a, s') => (ExceptT.run (f a)).run s'
      | (.error e, s') => (.error e, s') := by
  simp only [ExceptT.run_bind, StateT.run_bind]
  rcases (ExceptT.run x).run s with ⟨_ | a, s'⟩ <;> rfl

/-- The phase reaches a state at the top level, and if it succeeds, `Q` holds of what it leads
to. -/
structure Leads (x : Phase α) (s : Session) (Q : α → Session → Prop) : Prop where
  reached : WalkState.Reached ⟨((ExceptT.run x).run s).2, {}⟩
  ok : ∀ a, ((ExceptT.run x).run s).1 = .ok a → Q a ((ExceptT.run x).run s).2

theorem Leads.bind {x : Phase α} {f : α → Phase β} {s : Session} {Q : α → Session → Prop}
    {R : β → Session → Prop} (hx : Leads x s Q)
    (hf : ∀ a s', WalkState.Reached ⟨s', {}⟩ → Q a s' → Leads (f a) s' R) :
    Leads (x >>= f) s R := by
  obtain ⟨hr, hok⟩ := hx
  rcases ho : (ExceptT.run x).run s with ⟨e | a, s'⟩ <;> rw [ho] at hr hok
  · refine ⟨?_, fun b hb => ?_⟩ <;> rw [run_bind_phase, ho] at *
    · exact hr
    · cases hb
  · obtain ⟨hr', hok'⟩ := hf a s' hr (hok a rfl)
    refine ⟨?_, fun b hb => ?_⟩ <;> rw [run_bind_phase, ho] at *
    · exact hr'
    · exact hok' b hb

theorem leads_ofStep {x : Infer α} {s : Session} {Q : α → WalkState → Prop}
    (h : WalkState.Reached ⟨s, {}⟩) (hx : Infer.Goes setting none ⟨s, {}⟩ x Q) :
    Leads (Phase.ofStep setting x) s fun a s' => ∃ f, Q a ⟨s', f⟩ := by
  refine ⟨(h.goes hx).topLevel, fun a ha => ⟨(x.outcome setting ⟨s, {}⟩).2.frame, ?_⟩⟩
  have ho : x.outcome setting ⟨s, {}⟩ = (.ok a, (x.outcome setting ⟨s, {}⟩).2) := Prod.ext ha rfl
  exact (hx.ok a _ ho).2

theorem leads_constants (htidy : setting.tools.Tidy) {s : Session} (h : WalkState.Reached ⟨s, {}⟩) :
    Leads (Phase.constants setting) s fun _ _ => True := by
  unfold Phase.constants
  split
  · obtain ⟨hr, -⟩ := leads_ofStep h
      (Infer.runnable_evaluateRemaining (Infer.walks_walk htidy Infer.depthBudget) h.ready)
    exact ⟨hr, fun _ _ => trivial⟩
  · exact ⟨h, fun _ _ => trivial⟩

/-- Inference of a program, and of others after it. -/
theorem infer {s : Session} (h : WalkState.Reached ⟨s, {}⟩) (htidy : setting.tools.Tidy)
    (tree : Tree) :
    WalkState.Reached ⟨(s.infer setting tree).2, {}⟩ := by
  have hall : Leads (Phase.all setting tree) s fun _ _ => True := by
    refine (leads_ofStep h (Infer.goes_lowerTree tree)).bind fun root s₁ h₁ ⟨f, hroot⟩ => ?_
    have hroot : WalkState.Has ⟨s₁, {}⟩ root := hroot
    refine (leads_ofStep h₁ (Infer.walks_walk htidy _ none _ root h₁.ready hroot)).bind
      fun _ s₂ h₂ _ => ?_
    refine (leads_constants htidy h₂).bind fun _ s₃ h₃ _ => ?_
    exact ⟨.settle h₃, fun _ _ => trivial⟩
  exact hall.reached

end WalkState.Reached

end TypeFlow
