import TypeFlow.Proofs.Inference.Heeded
import TypeFlow.Proofs.Inference.Reached

/-!
# Calls that have been resolved

A call that has been visited, and not expanded, observes its inputs. It waits in the queue, or it
has been resolved, and its inputs have the types that they had at the end of the resolution which
gave it its targets (`Answered`). A resolution may begin for other types: what it does to find
targets can change the types of the inputs, and though the call is then resolved again at once, the
targets that were selected for the earlier types are the ones that it is bound to in the end.
-/

namespace TypeFlow

namespace WalkState
open Infer
variable {setting : Setting} {held : NodeId → Prop} {s s' s'' : WalkState} {call : ExprId}

/-- What a call looks like has not changed, nor what it is bound to. -/
structure Stands (call : ExprId) (s s' : WalkState) : Prop where
  later : s.Later s'
  request : requestOf s'.program call = requestOf s.program call
  targets : s'.memo.targets.get? call = s.memo.targets.get? call
  scope : s'.program.callScopes.get? call = s.program.callScopes.get? call
  expanded : s.program.expansions.get? call ≠ none → s'.program.expansions.get? call ≠ none

theorem Stands.refl (call : ExprId) (s : WalkState) : Stands call s s :=
  ⟨.refl s, rfl, rfl, rfl, fun he => he⟩

theorem Stands.trans (h : Stands call s s') (h' : Stands call s' s'') : Stands call s s'' :=
  ⟨h.later.trans h'.later, h'.request.trans h.request, h'.targets.trans h.targets,
    h'.scope.trans h.scope, fun he => h'.expanded (h.expanded he)⟩

/-- The call waits to be resolved, or nothing has changed since it was. -/
inductive Answered (setting : Setting) (call : ExprId) (s : WalkState) : Prop where
  | waits : call ∈ s.program.graph.pending → Answered setting call s
  | resolved {m m' : WalkState} : m.Reached → Resolves setting call m m' → m'.Stands call s →
      Answered setting call s

structure Attends (setting : Setting) (call : ExprId) (s : WalkState) : Prop where
  has : s.Has call
  observes : s.program.Observes call
  answered : s.Answered setting call

/-- A call is attended to once it has been visited, unless it is expanded. -/
def Minds (setting : Setting) (call : ExprId) (s : WalkState) : Prop :=
  s.program.callScopes.get? call ≠ none →
    s.program.expansions.get? call ≠ none ∨ s.Attends setting call

/-! ### What a call heeds -/

theorem Has.input (hs : s.Sound held) {input : ExprId}
    (h : input ∈ (s.program.construct call).inputs) :
    s.Has input := by
  have hpart : ∀ part ∈ (s.program.construct call).children, s.Has part :=
    fun _ hp => hs.program.part_lt hp
  refine hpart input ?_
  revert h
  cases s.program.construct call with
  | call receiver name args block => exact fun h => List.mem_append_left _ h
  | _ => exact nofun

theorem inputs_eq (hid : s.Has call) (hl : s.Later s') :
    (s'.program.construct call).inputs = (s.program.construct call).inputs := by
  rcases hl.program.construct call hid with heq | ⟨items, count, hc, hc'⟩
  · rw [heq]
  · rw [hc, hc']; rfl

theorem observes_of_watches (hs : s.Sound held) (hid : s.Has call) (hl : s.Later s')
    (hw : s.Watches call s') (h : s.program.Observes call) : s'.program.Observes call := by
  intro input hinput
  rw [inputs_eq hid hl] at hinput
  rw [hl.program.nodeOf_eq input (Has.input hs hinput)]
  exact hw.observes _ (h input hinput)

/-- A call looks the same as long as its inputs have the same types. -/
theorem requestOf_eq (hs : s.Sound held) (hid : s.Has call) (hl : s.Later s')
    (htypes : ∀ input ∈ (s.program.construct call).inputs,
      s'.program.graph.typeOf (s.program.nodeOf input) = s.program.graph.typeOf
      (s.program.nodeOf input)) :
    requestOf s'.program call = requestOf s.program call := by
  have hinput : ∀ input ∈ (s.program.construct call).inputs, s'.program.typeOf input =
      s.program.typeOf input := by
    intro input hinput
    rw [Program.typeOf, hl.program.nodeOf_eq input (Has.input hs hinput)]
    exact htypes input hinput
  rcases hl.program.construct call hid with heq | ⟨items, count, hc, hc'⟩
  · unfold requestOf
    rw [heq]
    revert hinput
    cases s.program.construct call with
    | call receiver name args block =>
      intro hinput
      have hreceiver : receiver.map s'.program.typeOf = receiver.map s.program.typeOf :=
        Option.map_congr fun i hi => hinput i (List.mem_append_left _ (Option.mem_toList.mpr hi))
      have hargs : args.map s'.program.typeOf = args.map s.program.typeOf :=
        List.map_congr_left fun i hi => hinput i (List.mem_append_right _ hi)
      simp only [hreceiver, hargs]
    | _ => exact fun _ => rfl
  · unfold requestOf
    rw [hc, hc']

theorem Attends.heeds (h : s.Attends setting call) (hs : s.Sound held) (hl : s.Later s')
    (hh : s.Heeds call s') : s'.Attends setting call := by
  refine ⟨hl.has h.has, observes_of_watches hs h.has hl hh.watches h.observes, ?_⟩
  cases h.answered with
  | waits hp => exact .waits (hh.network.waits hp)
  | resolved hm hres hstands =>
    by_cases htypes : ∀ input ∈ (s.program.construct call).inputs,
        s'.program.graph.typeOf (s.program.nodeOf input) = s.program.graph.typeOf
          (s.program.nodeOf input)
    · have hrequest := requestOf_eq hs h.has hl htypes
      exact .resolved hm hres (hstands.trans ⟨hl, hrequest, hh.targets, hh.scope, hh.expanded⟩)
    · -- the call has been notified of the input that changed
      simp only [not_forall] at htypes
      obtain ⟨input, hinput, hne⟩ := htypes
      exact .waits (hh.network.tells _ (h.observes input hinput) hne)

theorem Minds.heeds (h : s.Minds setting call) (hs : s.Sound held) (hl : s.Later s')
    (hh : s.Heeds call s') : s'.Minds setting call := fun hv =>
  (h (hh.scope ▸ hv)).imp hh.expanded fun ha => ha.heeds hs hl hh

end WalkState

namespace Infer
variable {setting : Setting} {kept : Kept} {ok : Bool} {s s' : WalkState} {call : ExprId}

theorem CallAct.minds {other : ExprId} (h : CallAct other ok s s') (hok : ok = true)
    (hs : s.Reached) (hn : s.Quiet) (hne : call ≠ other) (hm : s.Minds setting call) :
    s'.Minds setting call :=
  hm.heeds hs.sound (h.sound hs.sound).1 (h.heeds hok hn hne)

/-- A call that has just been resolved is answered. -/
theorem Resolves.attends (h : Resolves setting call s s') (hs : s.Reached) (hid : s'.Has call)
    (hobs : s'.program.Observes call) : s'.Attends setting call :=
  ⟨hid, hobs, .resolved hs h (.refl call s')⟩

theorem Runs.minds_frame (hs : s.Reached) (hm : s.Minds setting call) (f : Frame) :
    (s.withFrame f).Minds setting call :=
  hm.heeds hs.sound (.withFrame s f) (.of_graph_eq rfl rfl rfl rfl)

/-- By induction on the run. While a call is visited or resolved it need not be attended to, but
then the resolution that this ends with answers it. -/
theorem Runs.minds (h : Runs setting kept ok s s') (hok : ok = true) (hs : s.Reached) (hn : s.Quiet)
    (hm : s.Minds setting call) : s'.Minds setting call := by
  induction h with
  | refl => exact hm
  | failed => cases hok
  | act h => exact hm.heeds hs.sound (h.sound hs.sound).1 ((h.heeds hok hn).1 call)
  | trans h _ ih ih' =>
    obtain ⟨hok, hok'⟩ := Bool.and_eq_true_iff.mp hok
    exact ih' hok' (.runs hs h) (h.watches hok hn).2 (ih hok hs hn hm)
  | evaluation hpending h ih =>
    have hbegin : WalkState.Reached _ := .evaluate hs hpending
    obtain ⟨hl, hp⟩ := hs.sound.program.beginConstant _
    have hm :=
      ih hok hbegin hn (hm.heeds hs.sound ⟨hl, fun _ _ h => h⟩ (.of_graph_eq rfl rfl rfl rfl))
    have hend := (hbegin.runs h).sound
    obtain ⟨hl, hp⟩ := hend.program.endConstant _
    exact hm.heeds hend ⟨hl, fun _ _ h => h⟩ (.of_graph_eq rfl rfl rfl rfl)
  | region r hr h ih =>
    have hentered : WalkState.Reached _ := .enter r hs hr
    exact Runs.minds_frame (hentered.runs h) (ih hok hentered hn (Runs.minds_frame hs hm _)) _
  | @resolution _ _ _ s s₁ s₂ s' other h hruns h' hres ih =>
    have hres := hres hok
    obtain ⟨hok, hok'⟩ := Bool.and_eq_true_iff.mp hok
    have hs₁ : s₁.Reached := .call hs h
    have hs₂ : s₂.Reached := hs₁.runs hruns
    obtain ⟨hw₁, hn₁, hscopes₁⟩ := h.watches rfl hn
    obtain ⟨hw₂, hn₂⟩ := hruns.watches hok hn₁
    obtain ⟨hw₃, -, hscopes₃⟩ := h'.watches hok' hn₂
    by_cases hcall : call = other
    · subst hcall
      -- what is known of the call at `s₂` is that it observes its inputs, if it has been visited
      have hwatch : ∀ {m : WalkState}, m.Reached → m.Later s' → m.Watches call s' →
          m.Minds setting call →
          m.program.callScopes.get? call ≠ none → s'.program.expansions.get? call ≠ none ∨
            s'.Attends setting call :=
        fun hm hl hw hminds hv => (hminds hv).imp hw.expanded fun ha =>
          hres.attends hs₁ (hl.has ha.has)
            (WalkState.observes_of_watches hm.sound ha.has hl hw ha.observes)
      have hl₁ := (h.sound hs.sound).1
      have hl₂ := (hruns.sound hs₁.sound).1
      have hl₃ := (h'.sound hs₂.sound).1
      intro hv
      by_cases hvisited : s.program.callScopes.get? call = none
      · have hm₁ : s₁.Minds setting call := fun hv => absurd (hscopes₁ ▸ hvisited) hv
        exact hwatch hs₂ hl₃ (hw₃ call) (ih hok hs₁ hn₁ hm₁) (hscopes₃ ▸ hv)
      · exact hwatch hs ((hl₁.trans hl₂).trans hl₃)
          (((hw₁ call).trans (hw₂ call)).trans (hw₃ call)) hm hvisited
    · exact h'.minds hok' hs₂ hn₂ hcall (ih hok hs₁ hn₁ (h.minds rfl hs hn hcall hm))
  | @visit _ _ _ s s₁ s' other scope hid h h' hres ih ih' =>
    have hres := hres hok
    obtain ⟨hok, hok'⟩ := Bool.and_eq_true_iff.mp hok
    have hs₀ : WalkState.Reached _ := .visit scope hs hid
    have hs₁ : s₁.Reached := hs₀.runs h
    have hnote : s.Later (s.withProgram (s.program.noteScope other scope)) :=
      ⟨(hs.sound.program.noteScope other scope).1, fun _ _ h => h⟩
    obtain ⟨-, hn₁⟩ := h.watches hok hn
    by_cases hcall : call = other
    · subst hcall
      have hl₀ := hnote.trans (h.sound hs₀.sound).1
      have hl₁ := (h'.sound hs₁.sound).1
      refine fun _ => hres.imp_right fun ⟨hobs, hres⟩ => hres.attends hs₁ (hl₁.has (hl₀.has hid)) ?_
      exact WalkState.observes_of_watches hs₁.sound (hl₀.has hid) hl₁
        ((h'.watches hok' hn₁).1 call) hobs
    · have hscope : (s.withProgram (s.program.noteScope other scope)).program.callScopes.get? call =
          s.program.callScopes.get? call := OrderedMap.get?_insert_of_ne _ _ hcall
      exact ih' hok' hs₁ hn₁
        (ih hok hs₀ hn (hm.heeds hs.sound hnote ⟨.refl _, rfl, hscope, fun he => he⟩))

end Infer

end TypeFlow
