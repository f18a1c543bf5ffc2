import TypeFlow.Proofs.Inference.Going
import TypeFlow.Proofs.Program.Unread

/-!
# Steps that leave intact states

`Leaves setting s x X L Q`: carried through in the state `s`, the step `x` leaves an intact state
with the duties `L`, and `Q` holds of its answer and of that state. Nothing is said of steps that
fail. The rules put such steps together, as those for `Goes` do.
-/

namespace TypeFlow

/-- Variables and the result have spare nodes, the scopes are types of the table, and what holds
speaks of types of the table. -/
structure Frame.Within (f : Frame) (p : Program) : Prop where
  vars : ∀ name node, f.vars.get? name = some node → p.Spare node
  result : ∀ node, f.result = some node → p.Spare node
  scope : ∀ type, f.scope = some type → type.index < p.types.size
  enclosing : ∀ type ∈ f.enclosing, type.index < p.types.size
  guards : f.guards.Within p.types.size

structure CallMemo.Within (m : CallMemo) (p : Program) : Prop where
  instances : ∀ key node, m.instances.get? key = some node → p.Spare node
  values : ∀ type node, m.values.get? type = some node → node.index < p.graph.size

namespace WalkState

structure Intact (X : List NodeId) (L : List Duty) (s : WalkState) : Prop where
  program : s.program.Intact X L
  frame : s.frame.Within s.program
  memo : s.memo.Within s.program

end WalkState

variable {p p' : Program} {X Y : List NodeId} {L M : List Duty} {s s' : WalkState}

theorem Frame.Within.later {f : Frame} (h : f.Within p) (hl : p.Later p') : f.Within p' :=
  ⟨fun name node hn => hl.spare (h.vars name node hn), fun node hn => hl.spare (h.result node hn),
    fun type ht => hl.kinds.lt (h.scope type ht), fun type ht => hl.kinds.lt (h.enclosing type ht),
    h.guards.mono hl.kinds.size_le⟩

theorem CallMemo.Within.later {m : CallMemo} (h : m.Within p) (hl : p.Later p') : m.Within p' :=
  ⟨fun key node hn => hl.spare (h.instances key node hn),
    fun type node hn => Nat.lt_of_lt_of_le (h.values type node hn) hl.nodes_le⟩

namespace WalkState.Intact

theorem withProgram (h : s.Intact X L) (hl : s.program.Later p) (hp : p.Intact Y M) :
    (s.withProgram p).Intact Y M :=
  ⟨hp, h.frame.later hl, h.memo.later hl⟩

theorem withFrame {f : Frame} (h : s.Intact X L) (hf : f.Within s.program) :
    (s.withFrame f).Intact X L :=
  ⟨h.program, hf, h.memo⟩

/-- The same state with other duties. -/
theorem duties (h : s.Intact X L) (hp : s.program.Intact Y M) : s.Intact Y M :=
  ⟨hp, h.frame, h.memo⟩

theorem sublist (h : s.Intact X L) (hs : M.Sublist L) : s.Intact X M :=
  h.duties (h.program.sublist hs)

theorem perm (h : s.Intact X L) (hp : L.Perm M) : s.Intact X M := h.duties (h.program.perm hp)

theorem tail {t : Duty} (h : s.Intact X (t :: L)) : s.Intact X L :=
  h.sublist (List.sublist_cons_self ..)

theorem swap {t t' : Duty} (h : s.Intact X (t :: t' :: L)) : s.Intact X (t' :: t :: L) :=
  h.perm (.swap ..)

theorem third {t t' t'' : Duty} (h : s.Intact X (t :: t' :: t'' :: L)) :
    s.Intact X (t'' :: t :: t' :: L) :=
  h.perm (@List.perm_middle _ t'' [t, t'] L)

/-- What is to be done first comes last. -/
theorem each {γ : Type} {f : γ → Duty} {bs : List γ} {t : Duty}
    (h : s.Intact X (t :: (bs.map f ++ L))) :
    s.Intact X (bs.flatMap (fun b => [f b]) ++ (t :: L)) := by
  rw [← List.map_eq_flatMap]
  exact h.perm List.perm_middle.symm

theorem finish {t : Duty} (h : s.Intact X (t :: L)) : s.Intact X (.done t.expr :: L) :=
  h.duties h.program.finish

theorem has {t : Duty} (h : s.Intact X (t :: L)) : s.program.Has t.expr := h.program.has

theorem has_of_mem {id : ExprId} (h : s.Intact X L) (hid : .whole id ∈ L) : s.program.Has id :=
  h.program.awaits.has (.whole id) (List.mem_append_left _ hid)

theorem has_part (h : s.Intact X L) {a part : ExprId} {c : Construct ExprId}
    (hc : s.program.construct a = c) (hpart : part ∈ c.children) : s.program.Has part :=
  h.program.forest.has (a := a) (by rwa [Program.IsParent, hc])

theorem nil_lt (h : s.Intact X L) : Program.nilNode.index < s.program.graph.size :=
  h.program.sound.nil_lt

end WalkState.Intact

namespace Infer
variable {α β γ : Type} {setting : Setting} {x : Infer α} {Q : α → WalkState → Prop}
  {R : β → WalkState → Prop}

structure Leaves (setting : Setting) (s : WalkState) (x : Infer α) (X : List NodeId) (L : List Duty)
    (Q : α → WalkState → Prop) : Prop where
  does : ∀ a s', x.Does setting s a s' → s.program.Later s'.program ∧ s'.Intact X L ∧ Q a s'

/-- Nothing is said of the answer. -/
abbrev LeavesIntact (setting : Setting) (s : WalkState) (x : Infer α) (X : List NodeId)
    (L : List Duty) : Prop :=
  Leaves setting s x X L fun _ _ => True

/-- The step does all that there is to be done with an expression. -/
def Finishes (setting : Setting) (walk : Step) : Prop :=
  ∀ X L s id, s.Intact X (.whole id :: L) → LeavesIntact setting s (walk id) X (.done id :: L)

theorem leaves_of_outcome {a : α} (h : x.outcome setting s = (.ok a, s'))
    (hl : s.program.Later s'.program) (hs : s'.Intact X L) (hq : Q a s') :
    Leaves setting s x X L Q := by
  refine ⟨fun b s'' hd => ?_⟩
  rw [Does, h] at hd
  cases hd; exact ⟨hl, hs, hq⟩

theorem Leaves.imp {Q' : α → WalkState → Prop} (h : Leaves setting s x X L Q)
    (hq : ∀ a s', s.program.Later s'.program → s'.Intact X L → Q a s' → s'.Intact Y M ∧ Q' a s') :
    Leaves setting s x Y M Q' := by
  refine ⟨fun a s' hd => ?_⟩
  obtain ⟨hl, hs, hqa⟩ := h.does a s' hd
  exact ⟨hl, hq a s' hl hs hqa⟩

theorem leaves_pure {a : α} (hs : s.Intact X L) (hq : Q a s) : Leaves setting s (pure a) X L Q :=
  leaves_of_outcome rfl (.refl _) hs hq

theorem Leaves.bind {f : α → Infer β} (h : Leaves setting s x X L Q)
    (hf : ∀ a s', s.program.Later s'.program → s'.Intact X L → Q a s' →
      Leaves setting s' (f a) Y M R) :
    Leaves setting s (x >>= f) Y M R := by
  refine ⟨fun b s'' hd => ?_⟩
  obtain ⟨a, s', hx, hfa⟩ := does_bind.mp hd
  obtain ⟨hl, hs', hq⟩ := h.does a s' hx
  obtain ⟨hl', hs'', hr⟩ := (hf a s' hl hs' hq).does b s'' hfa
  exact ⟨hl.trans hl', hs'', hr⟩

/-- A step whose outcome is known. -/
theorem leaves_after {a : α} {f : α → Infer β} (h : x.outcome setting s = (.ok a, s'))
    (hl : s.program.Later s'.program) (hf : Leaves setting s' (f a) X L R) :
    Leaves setting s (x >>= f) X L R := by
  refine ⟨fun b s'' hd => ?_⟩
  obtain ⟨hl', hs, hr⟩ := hf.does b s'' ((does_bind_of_ok h).mp hd)
  exact ⟨hl.trans hl', hs, hr⟩

/-- A step that only reads. -/
theorem leaves_read {a : α} {f : α → Infer β} (h : x.outcome setting s = (.ok a, s))
    (hf : Leaves setting s (f a) X L R) : Leaves setting s (x >>= f) X L R :=
  leaves_after h (.refl _) hf

theorem leaves_of_error {e : Failure} (h : x.outcome setting s = (.error e, s')) :
    Leaves setting s x X L Q :=
  ⟨fun b s'' hd => by rw [Does, h] at hd; cases hd⟩

theorem leaves_throw (e : Failure) : Leaves setting s (throw e : Infer α) X L Q :=
  leaves_of_error rfl

theorem leaves_fail (e : Diagnostic) : Leaves setting s (fail e : Infer α) X L Q := leaves_throw _

theorem leaves_problemAt (id : ExprId) (problem : Problem) :
    Leaves setting s (problemAt id problem : Infer α) X L Q :=
  leaves_of_error (outcome_problemAt id problem)

theorem leaves_defectAt (id : ExprId) (defect : Defect) :
    Leaves setting s (defectAt id defect : Infer α) X L Q :=
  leaves_of_error (outcome_defectAt id defect)

theorem leaves_problemAt_bind {f : α → Infer β} (id : ExprId) (problem : Problem) :
    Leaves setting s (problemAt id problem >>= f) X L R :=
  (leaves_problemAt (X := X) (L := L) (Q := fun _ _ => False) id problem).bind
    fun _ _ _ _ h => h.elim

theorem leaves_check {c : Prop} [Decidable c] {f : PUnit → Infer β} {id : ExprId}
    {problem : Problem} (hf : ¬ c → Leaves setting s (f ()) X L R) :
    Leaves setting s (if c then problemAt id problem >>= f else f ()) X L R := by
  split
  · exact leaves_problemAt_bind id problem
  · exact hf ‹_›

/-- A step that is taken under a condition only. -/
theorem leaves_when {c : Prop} [Decidable c] {y : Infer Unit} {f : Unit → Infer β}
    (hs : s.Intact X L) (hy : c → LeavesIntact setting s y X L)
    (hf : ∀ s', s.program.Later s'.program → s'.Intact X L → Leaves setting s' (f ()) Y M R) :
    Leaves setting s (if c then y >>= f else f ()) Y M R := by
  split
  · exact (hy ‹_›).bind fun _ s' hl hs' _ => hf s' hl hs'
  · exact hf s (.refl _) hs

theorem Leaves.mapError {f : Diagnostic → Diagnostic} (h : Leaves setting s x X L Q) :
    Leaves setting s (mapError f x) X L Q :=
  ⟨fun a s' hd => h.does a s' (does_mapError.mp hd)⟩

theorem Leaves.doing {id : ExprId} {problem : Problem} (h : Leaves setting s x X L Q) :
    Leaves setting s (doing id problem x) X L Q :=
  leaves_read (outcome_locationOf id) h.mapError

/-! ### Lists -/

/-- Every element has duties, of which some are left. -/
theorem leaves_forM {f : γ → Infer Unit} (duties left : γ → List Duty) {bs : List γ}
    (hs : s.Intact X (bs.flatMap duties ++ L))
    (hf : ∀ b ∈ bs, ∀ s' M, s.program.Later s'.program → s'.Intact X (duties b ++ M) →
      LeavesIntact setting s' (f b) X (left b ++ M)) :
    LeavesIntact setting s (bs.forM f) X (bs.flatMap left ++ L) := by
  induction bs generalizing s L with
  | nil => exact leaves_pure hs trivial
  | cons b bs ih =>
    rw [List.flatMap_cons, List.append_assoc] at hs
    refine (hf b (by simp) s _ (.refl _) hs).bind fun _ s' hl hs' _ => ?_
    refine (ih (L := left b ++ L) (hs'.perm (List.perm_append_comm_assoc ..))
      fun c hc s'' M hl' => ?_).imp fun _ _ _ hs'' _ => ⟨hs''.perm ?_, trivial⟩
    · exact hf c (by simp [hc]) s'' M (hl.trans hl')
    · rw [List.flatMap_cons, List.append_assoc]
      exact List.perm_append_comm_assoc ..

theorem leaves_each {f : γ → Infer Unit} {bs : List γ} (hs : s.Intact X L)
    (hf : ∀ b ∈ bs, ∀ s', s.program.Later s'.program → s'.Intact X L →
      LeavesIntact setting s' (f b) X L) :
    LeavesIntact setting s (bs.forM f) X L := by
  induction bs generalizing s with
  | nil => exact leaves_pure hs trivial
  | cons b bs ih =>
    refine (hf b (by simp) s (.refl _) hs).bind fun _ s' hl hs' _ => ih hs' fun c hc s'' hl' => ?_
    exact hf c (by simp [hc]) s'' (hl.trans hl')

/-- Every element has an answer, about which something stays true. -/
theorem leaves_mapM {f : γ → Infer β} {P : β → Program → Prop}
    (hp : ∀ {b p p'}, p.Later p' → P b p → P b p') (duties : γ → List Duty) {bs : List γ}
    (hs : s.Intact X (bs.flatMap duties ++ L))
    (hf : ∀ b ∈ bs, ∀ s' M, s.program.Later s'.program → s'.Intact X (duties b ++ M) →
      Leaves setting s' (f b) X M fun a s'' => P a s''.program) :
    Leaves setting s (bs.mapM f) X L fun as s' => ∀ a ∈ as, P a s'.program := by
  induction bs generalizing s with
  | nil => rw [List.mapM_nil]; exact leaves_pure hs fun _ h => nomatch h
  | cons b bs ih =>
    rw [List.mapM_cons]
    rw [List.flatMap_cons, List.append_assoc] at hs
    refine (hf b (by simp) s _ (.refl _) hs).bind fun a s' hl hs' ha => ?_
    refine (ih hs' fun c hc s'' M hl' => hf c (by simp [hc]) s'' M (hl.trans hl')).bind
      fun as s'' hl' hs'' has => ?_
    exact leaves_pure hs'' (List.forall_mem_cons.mpr ⟨hp hl' ha, has⟩)

namespace Finishes
variable {walk : Step} {id : ExprId} {t : Duty}

/-- An expression is walked, and nothing remains to be said of it. -/
theorem leaves (h : Finishes setting walk) (hs : s.Intact X (.whole id :: L)) :
    LeavesIntact setting s (walk id) X L :=
  (h X L s id hs).imp fun _ _ _ hs _ => ⟨hs.tail, trivial⟩

/-- The expression that is walked next, after the one that it is a part of. -/
theorem next (h : Finishes setting walk) (hs : s.Intact X (t :: .whole id :: L)) :
    LeavesIntact setting s (walk id) X (t :: L) :=
  h.leaves (hs.perm (.swap ..))

theorem all (h : Finishes setting walk) {ids : List ExprId}
    (hs : s.Intact X (t :: (ids.map Duty.whole ++ L))) :
    LeavesIntact setting s (ids.forM walk) X (t :: L) := by
  refine (leaves_forM (fun id => [.whole id]) (fun _ => []) hs.each fun id _ s' M _ hs' =>
    h.leaves hs').imp fun _ _ _ hs' _ => ⟨?_, trivial⟩
  rwa [show ids.flatMap (fun _ => ([] : List Duty)) = [] by simp] at hs'

theorem optional (h : Finishes setting walk) {o : Option ExprId}
    (hs : s.Intact X (t :: (o.toList.map Duty.whole ++ L))) :
    LeavesIntact setting s (o.forM walk) X (t :: L) := by
  cases o with
  | none => exact leaves_pure hs trivial
  | some id => exact h.next hs

end Finishes

/-! ### Frames -/

theorem leaves_within {enter : Frame → Frame} {leave : Frame → Frame → Frame}
    (hx : LeavesIntact setting (s.withFrame (enter s.frame)) x X L)
    (hleave : ∀ s' : WalkState, s.program.Later s'.program → s'.Intact X L →
      (leave s.frame s'.frame).Within s'.program) :
    LeavesIntact setting s (within enter leave x) X L := by
  refine ⟨fun a s' hd => ?_⟩
  rw [Does, outcome_within] at hd
  rcases hr : x.outcome setting (s.withFrame (enter s.frame)) with ⟨_ | b, s''⟩ <;> rw [hr] at hd
  · cases hd
  · cases hd
    obtain ⟨hl, hs, -⟩ := hx.does a s'' hr
    exact ⟨hl, hs.withFrame (hleave s'' hl hs), trivial⟩

theorem leaves_inFrame {f : Frame} (hs : s.Intact X M) (hf : f.Within s.program)
    (hx : (s.withFrame f).Intact X M → LeavesIntact setting (s.withFrame f) x X L) :
    LeavesIntact setting s (inFrame f x) X L :=
  leaves_within (hx (hs.withFrame hf)) fun _ hl _ => hs.frame.later hl

theorem leaves_underGuard {guard : Option Guard} (hs : s.Intact X M)
    (hguard : ∀ g ∈ guard, g.Within s.program.types.size)
    (hx : ∀ s' : WalkState, s'.program = s.program → s'.Intact X M →
      LeavesIntact setting s' x X L) :
    LeavesIntact setting s (underGuard guard x) X L := by
  cases guard with
  | none => exact hx s rfl hs
  | some guard =>
    show LeavesIntact setting s (within (fun f => { f with guards := f.guards.push guard })
      (fun _ f => { f with guards := f.guards.pop }) x) X L
    refine leaves_within (hx _ rfl (hs.withFrame ?_)) fun s' _ hs' => ?_
    · exact ⟨hs.frame.vars, hs.frame.result, hs.frame.scope, hs.frame.enclosing,
        hs.frame.guards.push (hguard guard rfl)⟩
    · exact ⟨hs'.frame.vars, hs'.frame.result, hs'.frame.scope, hs'.frame.enclosing,
        hs'.frame.guards.pop⟩

theorem leaves_inLoop {loop : ExprId} (hs : s.Intact X M)
    (hx : ∀ s' : WalkState, s'.program = s.program → s'.Intact X M →
      LeavesIntact setting s' x X L) :
    LeavesIntact setting s (inLoop loop x) X L := by
  refine leaves_within (hx _ rfl (hs.withFrame ?_)) fun s' _ hs' => ?_
  · exact ⟨hs.frame.vars, hs.frame.result, hs.frame.scope, hs.frame.enclosing, hs.frame.guards⟩
  · exact ⟨hs'.frame.vars, hs'.frame.result, hs'.frame.scope, hs'.frame.enclosing, hs'.frame.guards⟩

theorem leaves_inType {type : TypeId} (hs : s.Intact X M) (ht : type.index < s.program.types.size)
    (hx : ∀ s' : WalkState, s'.program = s.program → s'.Intact X M →
      LeavesIntact setting s' x X L) :
    LeavesIntact setting s (inType type x) X L := by
  refine leaves_within (hx _ rfl (hs.withFrame ?_)) fun s' _ hs' => ?_
  · exact ⟨hs.frame.vars, hs.frame.result, hs.frame.scope, List.forall_mem_cons.mpr
      ⟨ht, hs.frame.enclosing⟩, hs.frame.guards⟩
  · exact ⟨hs'.frame.vars, hs'.frame.result, hs'.frame.scope, fun t h =>
      hs'.frame.enclosing t (List.mem_of_mem_tail h), hs'.frame.guards⟩

end Infer

end TypeFlow
