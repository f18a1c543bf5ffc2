import TypeFlow.Proofs.Inference.Finished
import TypeFlow.Proofs.Inference.Known.Walk

/-!
# Runs that go well

`s.Running L`: in the state `s`, which a run has come to, all is as it has to be, and `L` is still
to be done. This is so at the start and stays so as long as no step fails, up to the last phase
(`Session.running_typed`).
-/

namespace TypeFlow

namespace WalkState

structure Running (L : List Duty) (s : WalkState) : Prop where
  reached : s.Reached
  proper : s.Proper
  intact : s.Intact [] L

namespace Running
open Infer
variable {α : Type} {setting : Setting} {s s' : WalkState} {L M : List Duty} {id : ExprId}

theorem start : Running [] ⟨{}, {}⟩ := ⟨.start, proper_initial, .start⟩

theorem topLevel (h : s.Running L) : Running L ⟨s.session, {}⟩ :=
  ⟨h.reached.topLevel, h.proper.of_frame nofun nofun, h.intact.topLevel⟩

theorem duties (h : s.Running L) (hi : s.Intact [] M) : s.Running M := ⟨h.reached, h.proper, hi⟩

/-- The run goes on with a step that does not fail. -/
theorem does {x : Infer α} {a : α} {Q R : α → WalkState → Prop} (h : s.Running L)
    (hgoes : Goes setting none s x Q) (hproceeds : Proceeds setting s x)
    (hleaves : Leaves setting s x [] M R) (hd : x.Does setting s a s') : s'.Running M ∧ R a s' := by
  obtain ⟨-, hintact, hr⟩ := hleaves.does a s' hd
  have hreached := h.reached.goes hgoes
  have hproper := (hproceeds.state h.proper).2
  rw [show x.outcome setting s = _ from hd] at hreached hproper
  exact ⟨⟨hreached, hproper, hintact⟩, hr⟩

theorem lower {tree : Tree} {root : ExprId} (h : s.Running L)
    (hd : (lowerTree tree).Does setting s root s') :
    s'.Running (.whole root :: L) := by
  obtain ⟨hs', hroot⟩ :=
    h.does (goes_lowerTree tree) (proceeds_lowerTree tree) (leaves_lowerTree h.intact tree) hd
  exact hs'.duties hroot

theorem walk (h : s.Running (.whole id :: L)) (htidy : setting.tools.Tidy) {fuel : Nat}
    (hd : (Infer.walk fuel id).Does setting s () s') : s'.Running (.done id :: L) :=
  (h.does (walks_walk htidy fuel none s id h.reached.ready h.intact.has)
    (proceeds_walk htidy fuel id s) (finishes_walk htidy fuel [] L s id h.intact) hd).1

end Running

end WalkState

/-- Inference that does not fail has gone well, up to its last phase, and nothing is left to be
done. -/
theorem Session.running_typed {setting : Setting} (htidy : setting.tools.Tidy) {tree : Tree}
    {s : Session} (h : ({} : Session).typed setting tree = (.ok (), s)) :
    WalkState.Running [] ⟨s, {}⟩ := by
  obtain ⟨root, s₁, hlower, hrest⟩ := Phase.ok_of_run_bind h
  obtain ⟨⟨⟩, s₂, hwalk, hconstants⟩ := Phase.ok_of_run_bind hrest
  obtain ⟨f₁, hlower⟩ := Phase.does_of_run_ofStep hlower
  obtain ⟨f₂, hwalk⟩ := Phase.does_of_run_ofStep hwalk
  have h₂ := ((WalkState.Running.start.lower hlower).topLevel.walk htidy hwalk).topLevel
  have h₂ := h₂.duties h₂.intact.tail
  unfold Phase.constants at hconstants
  split at hconstants
  · obtain ⟨f₃, hconstants⟩ := Phase.does_of_run_ofStep hconstants
    have hgoes :=
      Infer.runnable_evaluateRemaining (Infer.walks_walk htidy Infer.depthBudget) h₂.reached.ready
    have hproceeds :=
      Infer.proceeds_evaluateRemaining (s := ⟨s₂, {}⟩) (Infer.proceeds_walk htidy Infer.depthBudget)
    have hleaves :=
      Infer.leaves_evaluateRemaining (Infer.finishes_walk htidy Infer.depthBudget) h₂.intact
    exact (h₂.does hgoes hproceeds hleaves hconstants).1.topLevel
  · cases hconstants
    exact h₂

end TypeFlow
