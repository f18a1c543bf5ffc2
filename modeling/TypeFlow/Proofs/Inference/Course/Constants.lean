import TypeFlow.Proofs.Inference.Composed.Walk
import TypeFlow.Proofs.Inference.Evaluated

/-!
# Constants are evaluated once

Along a course constants go from pending to evaluating to done, one step at a time, and the stack of
evaluations lists those that are on the way (`Course.staged`). A constant only begins while it is
pending, so it does that once at most (`Course.count_begins_le_one`), and to read it fails for
recursion just while it is on the stack (`fails_recursively_iff`). So it is in whatever a program is
used for (`WalkState.Used.evaluates_once`).
-/

namespace TypeFlow

namespace Program
variable {p p' : Program} {id : ConstantId}

/-- The stack lists the constants that are being evaluated, each of them once. -/
structure Staged (p : Program) : Prop where
  nodup : p.evaluating.Nodup
  mem_iff : ∀ id, id ∈ p.evaluating ↔ (p.constant id).state = .evaluating

theorem staged_initial : Program.initial.Staged := ⟨.nil, fun _ => iff_of_false nofun nofun⟩

theorem constant_eq_of_constants_eq (h : p'.constants = p.constants) (id : ConstantId) :
    p'.constant id = p.constant id := by
  rw [constant, constant, h]

theorem constant_of_le (h : p.constants.size ≤ id.index) : p.constant id = default := by
  rw [constant, Array.getElem?_eq_none h]
  rfl

theorem index_lt_of_evaluating (h : (p.constant id).state = .evaluating) :
    id.index < p.constants.size := by
  refine Nat.lt_of_not_le fun hle => ?_
  rw [constant_of_le hle] at h
  cases h

/-- The chain of a recursion is the part of the stack from the constant on, outermost first, and the
constant again. -/
theorem Staged.dependencyChain_eq (h : p.Staged) (hid : id ∈ p.evaluating) : ∃ outer inner,
    p.evaluating.reverse = outer ++ id :: inner ∧
      Infer.dependencyChain p id = (id :: inner ++ [id]).map p.qualifiedName := by
  obtain ⟨outer, inner, hsplit⟩ := List.append_of_mem (List.mem_reverse.mpr hid)
  refine ⟨outer, inner, hsplit, ?_⟩
  have hnodup : (outer ++ id :: inner).Nodup := hsplit ▸ List.nodup_reverse.mpr h.nodup
  have houter : ∀ other ∈ outer, decide (other ≠ id) = true := by
    rintro other hother
    refine decide_eq_true fun heq => ?_
    exact (List.nodup_append.mp hnodup).2.2 other hother id (by simp) heq
  unfold Infer.dependencyChain
  rw [hsplit, List.dropWhile_append_of_pos houter, List.dropWhile_cons_of_neg
    (by simp), List.map_append]
  rfl

end Program

namespace Infer
variable {setting : Setting} {tools : Set Toolchain} {s s' : WalkState}
  {deed : Deed} {deeds : List Deed}
  {id : ConstantId}

/-! ### The states of constants -/

/-- The stack of evaluations after a deed. -/
def Deed.onStack (stack : List ConstantId) : Deed → List ConstantId
  | .begins const => const :: stack
  | .ends _ => stack.tail
  | _ => stack

/-- What a deed may do to the state of a constant. -/
inductive Deed.Moves : Deed → ConstantId → ConstantState → ConstantState → Prop where
  | stays (deed : Deed) (id : ConstantId) (state : ConstantState) : Moves deed id state state
  | begins (id : ConstantId) : Moves (.begins id) id .pending .evaluating
  | ends (id : ConstantId) : Moves (.ends id) id .evaluating .done

/-- All that a change can do to constants. -/
theorem Change.constants_cases (h : Change tools deed s s') :
    (∃ id, deed = .begins id ∧ (s.program.constant id).state = .pending ∧
      s'.program = s.program.beginConstant id) ∨
    (∃ id, deed = .ends id ∧ s.program.evaluating.head? = some id ∧
      s'.program = s.program.endConstant id) ∨
    ((∀ stack, deed.onStack stack = stack) ∧ (∀ id, deed ≠ .begins id) ∧
      s'.program.evaluating = s.program.evaluating ∧ (s'.program.constants = s.program.constants ∨
        ∃ c, c.state = .pending ∧ s'.program = s.program.addConstant c)) := by
  cases h with
  | begin hpending => exact .inl ⟨_, rfl, hpending, rfl⟩
  | finish hhead => exact .inr (.inl ⟨_, rfl, hhead, rfl⟩)
  | declare hpending => exact .inr (.inr ⟨fun _ => rfl, nofun, rfl, .inr ⟨_, hpending, rfl⟩⟩)
  | note hnote => cases hnote <;> exact .inr (.inr ⟨fun _ => rfl, nofun, rfl, .inl rfl⟩)
  | _ => exact .inr (.inr ⟨fun _ => rfl, nofun, rfl, .inl rfl⟩)

theorem Change.size_le (h : Change tools deed s s') :
    s.program.constants.size ≤ s'.program.constants.size := by
  obtain ⟨id, rfl, -, hp⟩ | ⟨id, rfl, -, hp⟩ | ⟨-, -, -, hp | ⟨c, -, hp⟩⟩ :=
    h.constants_cases <;> rw [hp]
  · simp [Program.beginConstant, Program.setConstantState]
  · simp [Program.endConstant, Program.setConstantState]
  · simp [Program.addConstant]

/-- What one change does to the states of constants and to the stack. -/
theorem Change.staged (h : Change tools deed s s') (hs : s.program.Staged) : s'.program.Staged ∧
    s'.program.evaluating = deed.onStack s.program.evaluating ∧
      ∀ id, id.index < s.program.constants.size →
        deed.Moves id (s.program.constant id).state (s'.program.constant id).state := by
  obtain ⟨id, rfl, hpending, hp⟩ | ⟨id, rfl, hhead, hp⟩ | ⟨hstack, -, he, hp⟩ := h.constants_cases
  · have hstate : ∀ other, (s'.program.constant other).state =
        if other = id then .evaluating else (s.program.constant other).state := fun other => by
      rw [hp]
      exact Program.state_setConstantState _ (Program.index_lt_of_pending hpending)
    have he : s'.program.evaluating = id :: s.program.evaluating := by rw [hp]; rfl
    refine ⟨⟨?_, fun other => ?_⟩, he, fun other _ => ?_⟩
    · rw [he]
      refine List.nodup_cons.mpr ⟨fun hmem => ?_, hs.nodup⟩
      rw [(hs.mem_iff id).mp hmem] at hpending
      cases hpending
    · rw [he, List.mem_cons, hs.mem_iff, hstate]
      split
      · exact iff_of_true (.inl ‹_›) rfl
      · exact or_iff_right ‹_›
    · rw [hstate]
      split
      · rename_i heq
        subst heq
        exact hpending ▸ .begins other
      · exact .stays ..
  · obtain ⟨rest, hsplit⟩ : ∃ rest, s.program.evaluating = id :: rest := by
      cases hlist : s.program.evaluating with
      | nil => rw [hlist] at hhead; cases hhead
      | cons first rest => rw [hlist] at hhead; cases hhead; exact ⟨rest, rfl⟩
    have hnodup : id ∉ rest ∧ rest.Nodup := List.nodup_cons.mp (hsplit ▸ hs.nodup)
    have hevaluating : (s.program.constant id).state = .evaluating :=
      (hs.mem_iff id).mp (by simp [hsplit])
    have hstate : ∀ other, (s'.program.constant other).state =
        if other = id then .done else (s.program.constant other).state := fun other => by
      rw [hp]
      exact Program.state_setConstantState _ (Program.index_lt_of_evaluating hevaluating)
    have he : s'.program.evaluating = s.program.evaluating.tail := by rw [hp]; rfl
    refine ⟨⟨?_, fun other => ?_⟩, he, fun other _ => ?_⟩
    · rw [he, hsplit]
      exact hnodup.2
    · rw [hstate, he]
      split
      · rename_i heq
        exact iff_of_false (by rw [heq, hsplit]; exact hnodup.1) nofun
      · rename_i hne
        rw [← hs.mem_iff, hsplit, List.tail_cons, List.mem_cons]
        exact (or_iff_right hne).symm
    · rw [hstate]
      split
      · rename_i heq
        subst heq
        exact hevaluating ▸ .ends other
      · exact .stays ..
  · have hstate : ∀ other, (s'.program.constant other).state = .evaluating ↔
        (s.program.constant other).state = .evaluating := fun other => by
      rcases hp with hsame | ⟨c, hc, hp⟩
      · rw [Program.constant_eq_of_constants_eq hsame]
      · rw [hp]
        exact (Program.evaluates_addConstant hc).evaluating_iff other
    refine ⟨⟨he.symm ▸ hs.nodup, fun other => ?_⟩, he.trans (hstack _).symm, fun other hother => ?_⟩
    · rw [he, hs.mem_iff, hstate]
    · rcases hp with hsame | ⟨c, hc, hp⟩
      · rw [Program.constant_eq_of_constants_eq hsame]
        exact .stays ..
      · rw [hp, Program.constant_addConstant, if_neg (Nat.ne_of_lt hother)]
        exact .stays ..

/-- By induction on the course. -/
theorem Course.staged (h : Course tools s deeds s') (hs : s.program.Staged) : s'.program.Staged ∧
    s'.program.evaluating = deeds.foldl Deed.onStack s.program.evaluating := by
  induction h with
  | nil => exact ⟨hs, rfl⟩
  | cons hchange _ ih =>
    obtain ⟨hs', he, -⟩ := hchange.staged hs
    rw [List.foldl_cons, ← he]
    exact ih hs'

/-! ### Evaluations that begin -/

/-- A constant does not become pending again. -/
theorem Change.begun (h : Change tools deed s s') (hid : id.index < s.program.constants.size)
    (hbegun : (s.program.constant id).state ≠ .pending) :
    deed ≠ .begins id ∧ id.index < s'.program.constants.size ∧
    (s'.program.constant id).state ≠ .pending := by
  refine ⟨?_, Nat.lt_of_lt_of_le hid h.size_le, ?_⟩
  · rintro rfl
    cases h
    exact hbegun ‹_›
  · obtain ⟨other, rfl, hpending, hp⟩ | ⟨other, rfl, -, hp⟩ | ⟨-, -, -, hsame | ⟨c, -, hp⟩⟩ :=
      h.constants_cases
    · rw [hp, Program.beginConstant]
      refine ne_of_eq_of_ne
        (Program.state_setConstantState _ (Program.index_lt_of_pending hpending)) ?_
      split
      · rintro ⟨⟩
      · exact hbegun
    · rw [hp, Program.endConstant]
      by_cases hother : other.index < s.program.constants.size
      · refine ne_of_eq_of_ne (Program.state_setConstantState _ hother) ?_
        split
        · rintro ⟨⟩
        · exact hbegun
      · refine ne_of_eq_of_ne (congrArg Constant.state ?_) hbegun
        show (s.program.setConstantState other .done).constant id = s.program.constant id
        unfold Program.setConstantState Program.constant
        rw [Array.getElem?_modify, if_neg fun heq : other.index = id.index => hother (heq ▸ hid)]
    · rwa [Program.constant_eq_of_constants_eq hsame]
    · rwa [hp, Program.constant_addConstant, if_neg (Nat.ne_of_lt hid)]

/-- The evaluation of a constant that is not pending any more does not begin. -/
theorem Course.count_begins_of_begun (h : Course tools s deeds s')
    (hid : id.index < s.program.constants.size)
    (hbegun : (s.program.constant id).state ≠ .pending) : deeds.count (.begins id) = 0 := by
  induction h with
  | nil => rfl
  | cons hchange _ ih =>
    obtain ⟨hne, hid', hbegun'⟩ := hchange.begun hid hbegun
    rw [List.count_cons_of_ne hne]
    exact ih hid' hbegun'

theorem Course.count_begins_le_one (h : Course tools s deeds s') (id : ConstantId) :
    deeds.count (.begins id) ≤ 1 := by
  induction h with
  | nil => exact Nat.zero_le 1
  | @cons s s₁ _ deed _ hchange hrest ih =>
    by_cases hdeed : deed = .begins id
    · subst hdeed
      have hid : id.index < s₁.program.constants.size ∧
          (s₁.program.constant id).state ≠ .pending := by
        cases hchange with
        | begin hpending =>
          have hid := Program.index_lt_of_pending hpending
          refine ⟨by simpa [Program.beginConstant, Program.setConstantState] using hid, ?_⟩
          rw [WalkState.withProgram_program, Program.beginConstant]
          exact ne_of_eq_of_ne (Program.state_setConstantState _ hid)
            (by rw [if_pos rfl]; rintro ⟨⟩)
      rw [List.count_cons_self, hrest.count_begins_of_begun hid.1 hid.2]
    · rwa [List.count_cons_of_ne hdeed]

/-! ### Reading a constant -/

section
variable {walk : Step} {reference : ExprId} {names : List String} {fromRoot : Bool} {scope : TypeId}

/-- A failure that is about the recursion of a constant itself, and not about something that this
arose in. -/
def Recursion (failure : Failure) : Prop :=
  ∃ name chain expr place cause,
    failure = .error (.typeError (.recursiveConstant name chain) expr place cause)

theorem outcome_evaluateConstant_of_evaluating (h : (s.program.constant id).state = .evaluating) :
    (evaluateConstant walk reference id).outcome setting s =
      (.error (.error (.typeError
        (.recursiveConstant (s.program.qualifiedName id) (dependencyChain s.program id))
        (some reference) (s.program.location reference) none)), s) := by
  unfold evaluateConstant
  rw [outcome_bind, outcome_program]
  dsimp only
  rw [h]
  exact outcome_problemAt ..

theorem outcome_evaluateConstant_of_done (h : (s.program.constant id).state = .done) :
    (evaluateConstant walk reference id).outcome setting s = (.ok (), s) := by
  unfold evaluateConstant
  rw [outcome_bind, outcome_program]
  dsimp only
  rw [h]
  rfl

theorem outcome_walkPath_of_constant (hscope : nameScope.Does setting s scope s)
    (hresolves : (if fromRoot then s.program.types.resolveRootPath names
      else s.program.types.resolvePath scope names) =
      some (.const id)) :
    (walkPath walk reference names fromRoot).outcome setting s = (do
      evaluateConstant walk reference id
      let p ← program
      deriveFrom reference [p.nodeOf (p.constant id).value] : Infer Unit).outcome setting s := by
  unfold walkPath
  rw [outcome_bind, outcome_types]
  dsimp only
  rw [outcome_bind, show nameScope.outcome setting s = _ from hscope]
  dsimp only
  rw [hresolves]

/-- What is carried on can only conflict with a frozen type. -/
theorem not_recursion_of_deriveFrom {deps : List NodeId} {failure : Failure}
    (h : ((deriveFrom reference deps).outcome setting s).1 = .error failure) :
    ¬ Recursion failure := by
  unfold deriveFrom at h
  rw [outcome_bind, outcome_nodeOf] at h
  dsimp only [bind] at h
  rw [outcome_onNetwork] at h
  rintro ⟨name, path, expr, place, cause, rfl⟩
  rcases hr : (s.program.onNetwork (Binding.bind (s.program.nodeOf reference) deps)).1 with
    (_ | _) | _ <;>
    rw [hr] at h <;> cases h

theorem not_recursion_of_pending {failure : Failure}
    (hpending : (s.program.constant id).state = .pending)
    (h : ((evaluateConstant walk reference id).outcome setting s).1 = .error failure) :
    ¬ Recursion failure := by
  rcases hout : (inFrame _ (walk (s.program.constant id).value)).outcome setting
    (s.withProgram (s.program.beginConstant id)) with ⟨result, s'⟩
  rw [outcome_evaluateConstant reference hpending hout] at h
  rintro ⟨name, path, expr, place, cause, rfl⟩
  -- the failure of the value is an internal one, or it is put below another problem
  rcases result with (e | _) | _
  · simp only [Except.mapError, mapFailure, chain] at h
    split at h
    · rename_i hinternal
      cases h
      cases hinternal
    · cases h
  · cases h
  · cases h

/-- To read a constant fails for recursion just while the constant is being evaluated. -/
theorem recursion_iff (hscope : nameScope.Does setting s scope s)
    (hresolves : (if fromRoot then s.program.types.resolveRootPath names
      else s.program.types.resolvePath scope names) =
      some (.const id)) :
    (∃ failure, ((walkPath walk reference names fromRoot).outcome setting s).1 = .error failure ∧
      Recursion failure) ↔ (s.program.constant id).state = .evaluating := by
  rw [outcome_walkPath_of_constant hscope hresolves, outcome_bind]
  rcases hstate : (s.program.constant id).state with _ | _ | _
  · refine iff_of_false ?_ nofun
    rintro ⟨failure, hfails, hrecursion⟩
    rcases hout : (evaluateConstant walk reference id).outcome setting s with
      ⟨e | a, s'⟩ <;> rw [hout] at hfails
    · cases hfails
      exact not_recursion_of_pending hstate (by rw [hout]) hrecursion
    · dsimp only at hfails
      rw [outcome_bind, outcome_program] at hfails
      exact not_recursion_of_deriveFrom hfails hrecursion
  · refine iff_of_true ?_ rfl
    rw [outcome_evaluateConstant_of_evaluating hstate]
    exact ⟨_, rfl, _, _, _, _, _, rfl⟩
  · refine iff_of_false ?_ nofun
    rintro ⟨failure, hfails, hrecursion⟩
    rw [outcome_evaluateConstant_of_done hstate] at hfails
    dsimp only at hfails
    rw [outcome_bind, outcome_program] at hfails
    exact not_recursion_of_deriveFrom hfails hrecursion

end

/-- What happens to a constant at a moment of a run, whatever the walk is that it is read or
evaluated in. -/
structure OneShot (s : WalkState) (id : ConstantId) : Prop where
  /-- A pending constant begins, then its value is walked, then it ends. -/
  pending : (s.program.constant id).state = .pending → ∀ setting walk reference, ∃ result s',
    Change .univ (.begins id) s (s.withProgram (s.program.beginConstant id)) ∧
      (inFrame { scope := (s.program.constant id).scope, enclosing :=
        (s.program.constant id).enclosing }
        (walk (s.program.constant id).value)).outcome setting
          (s.withProgram (s.program.beginConstant id)) = (result, s') ∧
      ((evaluateConstant walk reference id).outcome setting s).2 = s'.withProgram
        (s'.program.endConstant id)
  /-- If a constant is not pending its value is not walked, and nothing changes. -/
  begun : (s.program.constant id).state ≠ .pending → ∀ setting walk walk' reference,
    (evaluateConstant walk reference id).outcome setting s =
      (evaluateConstant walk' reference id).outcome setting s ∧
      ((evaluateConstant walk reference id).outcome setting s).2 = s
  /-- A constant that is being evaluated cannot be read, and only such a one fails for its
  recursion. -/
  reading : ∀ setting walk reference names fromRoot scope, nameScope.Does setting s scope s →
    (if fromRoot then s.program.types.resolveRootPath names
      else s.program.types.resolvePath scope names) = some (.const id) →
      ((∃ failure, ((walkPath walk reference names fromRoot).outcome setting s).1 = .error failure ∧
        Recursion failure) ↔ (s.program.constant id).state = .evaluating) ∧
      ((s.program.constant id).state = .evaluating → ∃ outer inner,
        s.program.evaluating.reverse = outer ++ id :: inner ∧
          (walkPath walk reference names fromRoot).outcome setting s =
            (.error (.error (.typeError (.recursiveConstant (s.program.qualifiedName id)
              ((id :: inner ++ [id]).map s.program.qualifiedName)) (some reference)
                (s.program.location reference) none)), s))

theorem oneShot_of_staged (hs : s.program.Staged) (id : ConstantId) : OneShot s id where
  pending hpending setting walk reference := by
    rcases hout : (inFrame _ (walk (s.program.constant id).value)).outcome setting
      (s.withProgram (s.program.beginConstant id)) with ⟨result, s'⟩
    refine ⟨result, s', .begin hpending, rfl, ?_⟩
    rw [outcome_evaluateConstant reference hpending hout]
  begun hbegun setting walk walk' reference := by
    rcases hstate : (s.program.constant id).state with _ | _ | _
    · exact absurd hstate hbegun
    · rw [outcome_evaluateConstant_of_evaluating hstate,
        outcome_evaluateConstant_of_evaluating hstate]
      exact ⟨rfl, rfl⟩
    · rw [outcome_evaluateConstant_of_done hstate, outcome_evaluateConstant_of_done hstate]
      exact ⟨rfl, rfl⟩
  reading setting walk reference names fromRoot scope hscope hresolves := by
    refine ⟨recursion_iff hscope hresolves, fun hstate => ?_⟩
    obtain ⟨outer, inner, hsplit, hchain⟩ := hs.dependencyChain_eq ((hs.mem_iff id).mpr hstate)
    refine ⟨outer, inner, hsplit, ?_⟩
    rw [outcome_walkPath_of_constant hscope hresolves, outcome_bind,
      outcome_evaluateConstant_of_evaluating hstate, hchain]

end Infer

/-! ### Programs in use -/

/-- Programs after any number of requests, whatever became of each and with whatever tools and
options: trees are lowered, expressions are visited and unread constants evaluated, by one visitor
after the other, and nodes without a type get theirs. -/
inductive WalkState.Used : WalkState → Prop where
  | start : Used ⟨{}, {}⟩
  | visitor {s : WalkState} (frame : Frame) : Used s → Used (s.withFrame frame)
  | lower {s : WalkState} (tree : Tree) : Used s → Used (s.withProgram (s.program.lower tree).2)
  | visit {s : WalkState} {setting : Setting} (htidy : setting.tools.Tidy) (fuel : Nat)
      (id : ExprId) : Used s →
      Used ((Infer.walk fuel id).outcome setting s).2
  | remaining {s : WalkState} {setting : Setting} (htidy : setting.tools.Tidy)
      (fuel : Nat) : Used s →
      Used ((Infer.evaluateRemaining (Infer.walk fuel)).outcome setting s).2
  | settle {s : WalkState} : Used s → Used (s.withProgram s.program.settleUntyped.2)

namespace WalkState
open Infer
variable {s : WalkState}

/-- Each request goes on from where the one before has ended. -/
theorem Used.course (h : s.Used) :
    (∃ deeds, Course .univ ⟨{}, {}⟩ deeds s) ∧ s.program.evaluating = [] := by
  have htakes : ∀ {s : WalkState} {setting : Setting} {x : Infer Unit}, Takes setting s x →
      (∃ deeds, Course .univ ⟨{}, {}⟩ deeds s) ∧ s.program.evaluating = [] →
        (∃ deeds, Course .univ ⟨{}, {}⟩ deeds (x.outcome setting s).2) ∧
          (x.outcome setting s).2.program.evaluating = [] := by
    rintro s setting x ⟨⟨deeds', hcourse'⟩, he'⟩ ⟨⟨deeds, hcourse⟩, he⟩
    exact ⟨⟨_, hcourse.append (hcourse'.mono (Set.subset_univ _))⟩, he'.trans he⟩
  induction h with
  | start => exact ⟨⟨[], .nil _⟩, rfl⟩
  | visitor frame _ ih =>
    obtain ⟨⟨deeds, hcourse⟩, he⟩ := ih
    exact ⟨⟨_, hcourse.append (.single (.frame _ frame))⟩, he⟩
  | @lower s tree _ ih =>
    obtain ⟨⟨deeds, hcourse⟩, he⟩ := ih
    obtain ⟨⟨deeds', hcourse'⟩, he'⟩ := course_grows (s.program.adds_lower tree).1.grows
    exact ⟨⟨_, hcourse.append hcourse'⟩, he'.trans he⟩
  | visit htidy fuel id _ ih => exact htakes (takes_walk htidy fuel id _) ih
  | remaining htidy fuel _ ih => exact htakes (takes_evaluateRemaining htidy fuel) ih
  | settle _ ih =>
    obtain ⟨⟨deeds, hcourse⟩, he⟩ := ih
    exact ⟨⟨_, hcourse.append (.single (.settle _))⟩, he⟩

/-- Whatever a program is used for, and however often that fails: between the requests no constant
is being evaluated. All along, the stack lists the constants that are being evaluated, each once and
the innermost first, namely those that have begun and not ended; their states only move on; and no
constant begins twice. -/
theorem Used.evaluates_once (h : s.Used) :
    s.program.evaluating = [] ∧ (∀ id, (s.program.constant id).state ≠ .evaluating) ∧
    (∃ deeds, Course .univ ⟨{}, {}⟩ deeds s) ∧
    ∀ deeds, Course .univ ⟨{}, {}⟩ deeds s → (∀ id, deeds.count (.begins id) ≤ 1) ∧
      ∀ before after m, deeds = before ++ after → Course .univ ⟨{}, {}⟩ before m →
      Course .univ m after s →
        (m.program.evaluating = before.foldl Deed.onStack [] ∧ m.program.evaluating.Nodup ∧
          ∀ id, id ∈ m.program.evaluating ↔ (m.program.constant id).state = .evaluating) ∧
        (∀ deed m', Change .univ deed m m' → ∀ id, id.index < m.program.constants.size →
          deed.Moves id (m.program.constant id).state (m'.program.constant id).state) ∧
        ∀ id, OneShot m id := by
  obtain ⟨hcourse, he⟩ := h.course
  refine ⟨he, fun id hstate => ?_, hcourse, fun deeds hdeeds => ⟨hdeeds.count_begins_le_one, ?_⟩⟩
  · obtain ⟨deeds, hcourse⟩ := hcourse
    have hmem := ((hcourse.staged Program.staged_initial).1.mem_iff id).mpr hstate
    rw [he] at hmem
    cases hmem
  · intro before after m _ hbefore _
    obtain ⟨hstaged, hstack⟩ := hbefore.staged Program.staged_initial
    refine ⟨⟨hstack, hstaged.nodup, hstaged.mem_iff⟩, fun deed m' hchange => ?_,
      oneShot_of_staged hstaged⟩
    exact (hchange.staged hstaged).2.2

/-- `A = B; B = A; A`. -/
def recursiveConstants : Tree :=
  .sequence [.assign (.path "A") (.path "B"), .assign (.path "B") (.path "A"), .path "A"]

/-- The program after it has been visited and what is left unread has been evaluated. -/
def afterRecursion : WalkState :=
  ((evaluateRemaining (Infer.walk 9)).outcome ⟨.standard, {}⟩
    ((Infer.walk 9 ⟨7⟩).outcome ⟨.standard, {}⟩ (lowered recursiveConstants)).2).2

/-- What an error comes from. -/
def reason : Except Failure Unit → Option String
  | .error (.error e) => some e.innermost.message
  | _ => none

/-- The visit fails while `A` is being evaluated, and both constants are done all the same. -/
theorem evaluates_once_recursive : afterRecursion.Used ∧
    reason ((Infer.walk 9 ⟨7⟩).outcome ⟨.standard, {}⟩ (lowered recursiveConstants)).1 =
      some "recursive dependency of constant A: A -> B -> A" ∧
    afterRecursion.program.evaluating = [] ∧
    (∀ id, (afterRecursion.program.constant id).state ≠ .evaluating) ∧
    (∀ id : ConstantId, id.index < 2 → (afterRecursion.program.constant id).state = .done) ∧
    ∃ deeds, Course .univ ⟨{}, {}⟩ deeds afterRecursion ∧ ∀ id, deeds.count (.begins id) ≤ 1 := by
  have hused : afterRecursion.Used :=
    .remaining Toolchain.tidy_standard 9
      (.visit Toolchain.tidy_standard 9 ⟨7⟩ (.lower recursiveConstants .start))
  have hstates : ∀ index < 2, (afterRecursion.program.constant ⟨index⟩).state = .done := by
    decide +kernel
  obtain ⟨he, hnone, ⟨deeds, hcourse⟩, hall⟩ := hused.evaluates_once
  exact ⟨hused, by decide +kernel, he, hnone, fun id => hstates id.index, deeds, hcourse,
    (hall deeds hcourse).1⟩

end WalkState

end TypeFlow
