import TypeFlow.Proofs.Inference.Sound

/-!
# Steps that run

`x.Goes setting kept s Q`: taken in the state `s`, the step `x` is a run of acts and regions, and if
it is carried through, `Q` holds of its answer and of the state after it. A state is `Ready` for a
step if it is sound and has the variables that are to be kept. The rules put runs together in the
ways in which steps are put together.
-/

namespace TypeFlow

def WalkState.Has (s : WalkState) (id : ExprId) : Prop := id.index < s.program.exprs.size

/-- An expression that is not a call. -/
structure WalkState.Plain (s : WalkState) (id : ExprId) : Prop where
  has : s.Has id
  isCall : (s.program.construct id).isCall = false

namespace WalkState.Later
variable {s s' : WalkState}

theorem has (h : s.Later s') {id : ExprId} (hid : s.Has id) : s'.Has id := h.program.lt hid

theorem plain (h : s.Later s') {id : ExprId} (hid : s.Plain id) : s'.Plain id :=
  ⟨h.has hid.has, (h.program.construct id hid.has).isCall_eq.trans hid.isCall⟩

theorem has_all (h : s.Later s') {ids : List ExprId} (hids : ∀ id ∈ ids, s.Has id) :
    ∀ id ∈ ids, s'.Has id :=
  fun id hid => h.has (hids id hid)

end WalkState.Later

namespace Infer
variable {α β : Type} {setting : Setting} {kept : Kept} {s s' : WalkState} {x : Infer α}
  {Q : α → WalkState → Prop} {R : β → WalkState → Prop} {ok : Bool}

structure Ready (kept : Kept) (s : WalkState) : Prop where
  sound : s.Sound fun _ => False
  within : kept.Within s

theorem Ready.parts (hs : Ready kept s) {id : ExprId} {c : Construct ExprId}
    (hc : s.program.construct id = c) : ∀ part ∈ c.children, s.Has part :=
  fun _ hp => hs.sound.program.part_lt (hc ▸ hp)

theorem Runs.ready (h : Runs setting kept ok s s') (hs : Ready kept s) :
    s.Later s' ∧ Ready kept s' :=
  ⟨(h.sound hs.sound).1, (h.sound hs.sound).2, h.within hs.within⟩

structure Goes (setting : Setting) (kept : Kept) (s : WalkState) (x : Infer α)
    (Q : α → WalkState → Prop) : Prop where
  ok : ∀ a s', x.outcome setting s = (.ok a, s') → Runs setting kept true s s' ∧ Q a s'
  error : ∀ e s', x.outcome setting s = (.error e, s') → Runs setting kept false s s'

theorem goes_iff : Goes setting kept s x Q ↔ match x.outcome setting s with
    | (.ok a, s') => Runs setting kept true s s' ∧ Q a s'
    | (.error _, s') => Runs setting kept false s s' := by
  constructor
  · intro h
    split
    · exact h.ok _ _ ‹_›
    · exact h.error _ _ ‹_›
  · intro h
    refine ⟨fun a s' hx => ?_, fun e s' hx => ?_⟩ <;> rwa [hx] at h

/-- The step runs, and nothing is said of its answer. -/
abbrev Runnable (setting : Setting) (kept : Kept) (s : WalkState) (x : Infer α) : Prop :=
  Goes setting kept s x fun _ _ => True

/-- The step runs from every state that has the expression. -/
def Walks (setting : Setting) (walk : Step) : Prop :=
  ∀ kept s id, Ready kept s → s.Has id → Runnable setting kept s (walk id)

theorem goes_of_ok {a : α} (h : x.outcome setting s = (.ok a, s'))
    (hr : Runs setting kept true s s') (hq : Q a s') :
    Goes setting kept s x Q := by
  rw [goes_iff, h]; exact ⟨hr, hq⟩

theorem goes_of_error {e : Failure} (h : x.outcome setting s = (.error e, s'))
    (hr : Runs setting kept false s s') : Goes setting kept s x Q := by
  rw [goes_iff, h]; exact hr

theorem Goes.does (h : Goes setting kept s x Q) {a : α} (hd : x.Does setting s a s') :
    Runs setting kept true s s' ∧ Q a s' :=
  h.ok a s' hd

theorem Goes.imp {Q' : α → WalkState → Prop} (h : Goes setting kept s x Q)
    (hq : ∀ a s', Q a s' → Q' a s') : Goes setting kept s x Q' := by
  revert h
  simp only [goes_iff]
  rcases x.outcome setting s with ⟨_ | a, s'⟩
  · exact fun h => h
  · exact fun h => ⟨h.1, hq a s' h.2⟩

/-- A step that runs, with the run that it takes. -/
theorem Goes.traced (h : Goes setting kept s x Q) :
    Goes setting kept s x fun a s' => x.Does setting s a s' ∧
      Runs setting kept true s s' ∧ Q a s' :=
  ⟨fun a s' hx => ⟨(h.ok a s' hx).1, hx, h.ok a s' hx⟩, h.error⟩

theorem goes_pure {a : α} (hq : Q a s) : Goes setting kept s (pure a) Q :=
  goes_of_ok rfl (.refl _ _) hq

theorem runnable_pure (a : α) : Runnable setting kept s (pure a : Infer α) := goes_pure trivial

theorem Goes.bind {f : α → Infer β} (h : Goes setting kept s x Q) (hs : Ready kept s)
    (hf : ∀ a s', s.Later s' → Ready kept s' → Q a s' → Goes setting kept s' (f a) R) :
    Goes setting kept s (x >>= f) R := by
  rw [goes_iff] at h ⊢
  rw [outcome_bind]
  rcases hx : x.outcome setting s with ⟨_ | a, s'⟩ <;> rw [hx] at h
  · exact h
  · obtain ⟨hl, hs'⟩ := h.1.ready hs
    have h' := hf a s' hl hs' h.2
    revert h'
    rw [goes_iff]
    dsimp only
    rcases (f a).outcome setting s' with ⟨_ | b, s''⟩
    · exact fun h' => h.1.trans h'
    · exact fun h' => ⟨h.1.trans h'.1, h'.2⟩

/-- A step that only reads. -/
theorem goes_read {a : α} {f : α → Infer β} (h : x.outcome setting s = (.ok a, s))
    (hf : Goes setting kept s (f a) R) : Goes setting kept s (x >>= f) R := by
  rw [goes_iff] at hf ⊢
  rwa [outcome_bind, h]

theorem goes_throw (e : Failure) : Goes setting kept s (throw e : Infer α) Q :=
  goes_of_error rfl (.failed _ _)

theorem goes_fail (e : Diagnostic) : Goes setting kept s (fail e : Infer α) Q := goes_throw _

theorem goes_problemAt (id : ExprId) (problem : Problem) :
    Goes setting kept s (problemAt id problem : Infer α) Q :=
  goes_of_error (outcome_problemAt id problem) (.failed _ _)

theorem goes_defectAt (id : ExprId) (defect : Defect) :
    Goes setting kept s (defectAt id defect : Infer α) Q :=
  goes_of_error (outcome_defectAt id defect) (.failed _ _)

theorem goes_problemAt_bind {f : α → Infer β} (id : ExprId) (problem : Problem) :
    Goes setting kept s (problemAt id problem >>= f) R := by
  simp only [goes_iff]
  rw [outcome_bind, outcome_problemAt]
  exact .failed _ _

/-- A check that fails with a problem. -/
theorem goes_check {c : Prop} [Decidable c] {f : PUnit → Infer β} {id : ExprId} {problem : Problem}
    (hf : Goes setting kept s (f ()) R) :
    Goes setting kept s (if c then problemAt id problem >>= f else f ()) R := by
  split
  · exact goes_problemAt_bind id problem
  · exact hf

/-- A step that is taken under a condition only. -/
theorem goes_when {c : Prop} [Decidable c] {y : Infer Unit} {f : Unit → Infer β}
    {P : WalkState → Prop} (hy : c → Goes setting kept s y fun _ => P) (hn : ¬ c → P s)
    (hs : Ready kept s) (hf : ∀ s', Ready kept s' → P s' → Goes setting kept s' (f ()) R) :
    Goes setting kept s (if c then y >>= f else f ()) R := by
  split
  · exact (hy ‹_›).bind hs fun _ s' _ hs' hp => hf s' hs' hp
  · exact hf s hs (hn ‹_›)

theorem Goes.mapError {f : Diagnostic → Diagnostic} (h : Goes setting kept s x Q) :
    Goes setting kept s (mapError f x) Q := by
  revert h
  simp only [goes_iff]
  rw [outcome_mapError]
  rcases x.outcome setting s with ⟨_ | a, s'⟩ <;> exact fun h => h

theorem Goes.doing {id : ExprId} {problem : Problem} (h : Goes setting kept s x Q) :
    Goes setting kept s (doing id problem x) Q :=
  goes_read (outcome_locationOf id) h.mapError

/-! ### Lists -/

theorem runnable_forM {γ : Type} {f : γ → Infer Unit} (bs : List γ) (hs : Ready kept s)
    (hf : ∀ b ∈ bs, ∀ s', s.Later s' → Ready kept s' → Runnable setting kept s' (f b)) :
    Runnable setting kept s (bs.forM f) := by
  induction bs generalizing s with
  | nil => exact runnable_pure ()
  | cons b bs ih =>
    refine (hf b (by simp) s (.refl s) hs).bind hs fun _ s' hl hs' _ =>
      ih hs' fun c hc s'' hl' => ?_
    exact hf c (by simp [hc]) s'' (hl.trans hl')

theorem runnable_mapM {γ δ : Type} {f : γ → Infer δ} (bs : List γ) (hs : Ready kept s)
    (hf : ∀ b ∈ bs, ∀ s', s.Later s' → Ready kept s' → Runnable setting kept s' (f b)) :
    Runnable setting kept s (bs.mapM f) := by
  induction bs generalizing s with
  | nil => rw [List.mapM_nil]; exact runnable_pure []
  | cons b bs ih =>
    rw [List.mapM_cons]
    refine (hf b (by simp) s (.refl s) hs).bind hs fun _ s' hl hs' _ => ?_
    refine (ih hs' fun c hc s'' hl' => hf c (by simp [hc]) s'' (hl.trans hl')).bind
      hs' fun _ _ _ _ _ => ?_
    exact runnable_pure _

theorem runnable_option {γ : Type} {f : γ → Infer Unit} (b : Option γ)
    (hf : ∀ c ∈ b, Runnable setting kept s (f c)) : Runnable setting kept s (b.forM f) := by
  cases b with
  | none => exact runnable_pure ()
  | some c => exact hf c rfl

namespace Walks
variable {walk : Step}

theorem all (h : Walks setting walk) (hs : Ready kept s) {ids : List ExprId}
    (hids : ∀ id ∈ ids, s.Has id) : Runnable setting kept s (ids.forM walk) :=
  runnable_forM ids hs fun id hid s' hl hs' => h kept s' id hs' (hl.has (hids id hid))

theorem optional (h : Walks setting walk) (hs : Ready kept s) {id : Option ExprId}
    (hid : ∀ i ∈ id, s.Has i) : Runnable setting kept s (id.forM walk) :=
  runnable_option id fun i hi => h kept s i hs (hid i hi)

end Walks

/-! ### Regions -/

theorem Region.ready_enter {r : Region} (hr : r.Fits s) (hs : Ready kept s) :
    Ready (r.kept kept) (s.withFrame (r.enter s.frame)) := by
  refine ⟨r.sound_enter hr hs.sound, ?_⟩
  cases r with
  | own => exact fun _ h => nomatch h
  | block id vars => intro _ h _ _ hn; cases h; exact hn
  | guarded | inType | inLoop => exact hs.within

theorem goes_within {enter : Frame → Frame} {leave : Frame → Frame → Frame} (r : Region)
    (henter : enter s.frame = r.enter s.frame) (hleave : ∀ f, leave s.frame f = r.leave s.frame f)
    (hr : r.Fits s)
    (hx : Goes setting (r.kept kept) (s.withFrame (r.enter s.frame)) x fun a s' =>
      Q a (s'.withFrame (r.leave s.frame s'.frame))) :
    Goes setting kept s (within enter leave x) Q := by
  revert hx
  simp only [goes_iff]
  rw [outcome_within, henter, hleave]
  rcases x.outcome setting (s.withFrame (r.enter s.frame)) with ⟨_ | a, s'⟩
  · exact fun hx => .region r hr hx
  · exact fun hx => ⟨.region r hr hx.1, hx.2⟩

theorem goes_inFrame {frame : Frame} (hr : (Region.own frame).Fits s)
    (hx : Goes setting none (s.withFrame frame) x fun a s' => Q a (s'.withFrame s.frame)) :
    Goes setting kept s (inFrame frame x) Q :=
  goes_within (.own frame) rfl (fun _ => rfl) hr hx

theorem runnable_inFrame {frame : Frame} (hs : Ready kept s) (hr : (Region.own frame).Fits s)
    (hx : Ready none (s.withFrame frame) → Runnable setting none (s.withFrame frame) x) :
    Runnable setting kept s (inFrame frame x) :=
  goes_inFrame hr (hx (Region.ready_enter hr hs))

theorem runnable_underGuard {guard : Option Guard} (hs : Ready kept s)
    (hx : ∀ s', s.Later s' → Ready kept s' → Runnable setting kept s' x) :
    Runnable setting kept s (underGuard guard x) := by
  cases guard with
  | none => exact hx s (.refl s) hs
  | some guard =>
    refine goes_within (.guarded guard) rfl (fun _ => rfl) trivial ?_
    exact hx _ (.withFrame ..) (Region.ready_enter (r := .guarded guard) trivial hs)

theorem runnable_inType {type : TypeId} (hs : Ready kept s)
    (hx : ∀ s', s.Later s' → Ready kept s' → Runnable setting kept s' x) :
    Runnable setting kept s (inType type x) := by
  refine goes_within (.inType type) rfl (fun _ => rfl) trivial ?_
  exact hx _ (.withFrame ..) (Region.ready_enter (r := .inType type) trivial hs)

theorem runnable_inLoop {loop : ExprId} (hs : Ready kept s)
    (hx : ∀ s', s.Later s' → Ready kept s' → Runnable setting kept s' x) :
    Runnable setting kept s (inLoop loop x) := by
  refine goes_within (.inLoop loop) rfl (fun _ => rfl) trivial ?_
  exact hx _ (.withFrame ..) (Region.ready_enter (r := .inLoop loop) trivial hs)

end Infer

end TypeFlow
