import TypeFlow.Proofs.Inference.Intact.Primitives
import TypeFlow.Proofs.Inference.Intact.Resolution

/-!
# Calls leave states intact

A call that is resolved loses the targets that it had and is bound again, so that nothing is excused
in the end, although it may keep a type that its new targets do not have yet.
-/

namespace TypeFlow.Infer
variable {setting : Setting} {X : List NodeId} {L : List Duty} {s s' : WalkState}
  {walk : Step} {id call : ExprId}
  {type : TypeId}

/-! ### Built-in calls -/

theorem leaves_allocation (hs : s.Intact X L) (call : ExprId) (ht : InTable type s) :
    Leaves setting s (allocation call type) X L InGraph :=
  (leaves_requireAllocatable hs call type).bind fun _ _ hl hs' _ =>
    leaves_knownValue hs' (hl.kinds.lt ht)

theorem leaves_construction (hw : Finishes setting walk) (hs : s.Intact X L) (call : ExprId)
    (ht : InTable type s) {args : List TypeId} (hargs : ∀ a ∈ args, InTable a s) :
    Leaves setting s (construction walk call type args) X L InGraph := by
  unfold construction
  refine (leaves_allocation hs call ht).bind fun node s₁ hl₁ hs₁ hnode =>
    leaves_read outcome_types ?_
  dsimp only
  split
  · refine (leaves_methodResult hw hs₁ call (hl₁.kinds.lt ht) _
      (fun a ha => hl₁.kinds.lt (hargs a ha)) _).bind
      fun _ s₂ hl₂ hs₂ _ => leaves_pure hs₂ (Nat.lt_of_lt_of_le hnode hl₂.nodes_le)
  · exact leaves_check fun _ => leaves_pure hs₁ hnode

theorem leaves_checkArguments (hs : s.Intact X L) (call : ExprId) (method : String) (position : Nat)
    (pairs : List (TypeId × TypeId)) :
    LeavesIntact setting s (checkArguments call method position pairs) X L := by
  induction pairs generalizing position with
  | nil => exact leaves_pure hs trivial
  | cons pair rest ih =>
    obtain ⟨actual, expected⟩ := pair
    unfold checkArguments
    dsimp only
    split
    · exact leaves_read (outcome_nameOf _)
        (leaves_read (outcome_nameOf _) (leaves_problemAt_bind ..))
    · exact ih _

theorem leaves_externalCall (hs : s.Intact X L) (call : ExprId) (lib : TypeId) (name : String)
    {signature : Signature} (ht : InTable signature.returnType s) (args : List TypeId) :
    Leaves setting s (externalCall call lib name signature args) X L InGraph := by
  unfold externalCall
  refine leaves_read (outcome_nameOf lib) (leaves_check fun _ => ?_)
  exact (leaves_checkArguments hs ..).bind fun _ _ hl hs' _ =>
    leaves_knownValue hs' (hl.kinds.lt ht)

/-- The node of the answer, if there is one, is one of the graph. -/
abbrev InGraph? (node : Option NodeId) (s : WalkState) : Prop := ∀ n ∈ node, InGraph n s

theorem Leaves.answers {x : Infer NodeId} (h : Leaves setting s x X L InGraph) :
    Leaves setting s (do return some (← x)) X L InGraph? :=
  h.bind fun _ _ _ hs' hnode => leaves_pure hs' fun _ hn => by cases hn; exact hnode

theorem leaves_noAnswer (hs : s.Intact X L) : Leaves setting s (pure none) X L InGraph? :=
  leaves_pure hs fun _ hn => nomatch hn

theorem leaves_fieldCall (hs : s.Intact X L) (call : ExprId) {receiver : TypeId}
    {fields : OrderedMap String TypeId}
    (hk : s.program.types.kind receiver = .cStruct fields ∨
      s.program.types.kind receiver = .cUnion fields) (name : String)
    (args : List TypeId) :
    Leaves setting s (fieldCall call receiver fields name args) X L InGraph? := by
  have hvalue : ∀ {name field}, fields.get? name = some field →
      Leaves setting s (do return some (← knownValue field)) X L InGraph? := fun hf =>
    (leaves_knownValue hs (hs.whole.field_lt hk hf)).answers
  unfold fieldCall
  split
  · exact hvalue ‹_›
  · split
    · exact leaves_noAnswer hs
    · split
      · exact leaves_noAnswer hs
      · dsimp only
        split
        · exact leaves_read outcome_types (leaves_problemAt_bind ..)
        · exact hvalue ‹_›
  · exact leaves_noAnswer hs

theorem leaves_builtinCall (hw : Finishes setting walk) (hs : s.Intact X L) {r : Resolution}
    (hargs : ∀ a ∈ r.args, InTable a s) (receiver : TypeId) :
    Leaves setting s (builtinCall walk r receiver) X L InGraph? := by
  unfold builtinCall
  refine leaves_read outcome_types ?_
  split
  · rename_i subject hk
    have hsubject : InTable subject s := hs.whole.subject_lt hk
    split
    · exact (leaves_allocation hs _ hsubject).answers
    · split
      · exact (leaves_construction hw hs _ hsubject hargs).answers
      · split
        · split
          · rename_i hfun
            exact (leaves_externalCall hs _ _ _ (hs.whole.result_lt hfun) _).answers
          · exact leaves_noAnswer hs
        · exact leaves_noAnswer hs
  · exact leaves_fieldCall hs _ (.inl ‹_›) _ _
  · exact leaves_fieldCall hs _ (.inr ‹_›) _ _
  · exact leaves_noAnswer hs

/-! ### Targets -/

theorem leaves_targetFor (hw : Finishes setting walk) (hs : s.Intact X L) {r : Resolution}
    (hargs : ∀ a ∈ r.args, InTable a s) {receiver : TypeId} (hreceiver : InTable receiver s) :
    Leaves setting s (targetFor walk r receiver) X L InGraph := by
  unfold targetFor
  refine (leaves_builtinCall hw hs hargs receiver).bind fun target s₁ hl₁ hs₁ htarget => ?_
  split
  · exact leaves_pure hs₁ (htarget _ rfl)
  · refine leaves_read outcome_types ?_
    split
    · exact leaves_methodResult hw hs₁ _ (hl₁.kinds.lt hreceiver) _
        (fun a ha => hl₁.kinds.lt (hargs a ha)) _
    · exact leaves_problemAt ..

theorem leaves_targetsFor (hw : Finishes setting walk) (hs : s.Intact X L) {r : Resolution}
    (hargs : ∀ a ∈ r.args, InTable a s) {targets : List NodeId}
    (htargets : ∀ n ∈ targets, InGraph n s) {receivers : List TypeId}
    (hreceivers : ∀ t ∈ receivers, InTable t s) :
    Leaves setting s (targetsFor walk r targets receivers) X L fun targets s' =>
      ∀ n ∈ targets, InGraph n s' := by
  induction receivers generalizing s targets with
  | nil => exact leaves_pure hs htargets
  | cons receiver rest ih =>
    obtain ⟨hreceiver, hrest⟩ := List.forall_mem_cons.mp hreceivers
    refine (leaves_targetFor hw hs hargs hreceiver).bind fun target s₁ hl₁ hs₁ htarget => ?_
    refine ih hs₁ (fun a ha => hl₁.kinds.lt (hargs a ha)) (fun n hn => ?_) fun t ht =>
      hl₁.kinds.lt (hrest t ht)
    rcases mem_insertLast.mp hn with hn | rfl
    · exact Nat.lt_of_lt_of_le (htargets n hn) hl₁.nodes_le
    · exact htarget

/-- The call has the targets only, and its type may be that of those which it had before. -/
theorem leaves_rebind (hs : s.Intact X (.done call :: L)) {targets : List NodeId}
    (htargets : ∀ n ∈ targets, InGraph n s) :
    LeavesIntact setting s (rebind call targets) X (.done call :: L) := by
  unfold rebind
  refine leaves_read (outcome_nodeOf call) (leaves_read outcome_get ?_)
  dsimp only
  split
  · refine (leaves_modifyProgram hs (hs.program.unbind _)).bind fun _ s₁ hl₁ hs₁ _ => ?_
    refine (leaves_modifyMemo hs₁ ⟨hs₁.memo.instances, hs₁.memo.values⟩).bind
      fun _ s₂ hl₂ hs₂ _ => ?_
    have hl := hl₁.trans hl₂
    have hnode : s₂.program.nodeOf call = s.program.nodeOf call := hl.nodeOf_eq call hs.has
    refine leaves_read (outcome_locationOf call)
      (Leaves.mapError (leaves_bindNode hs₂ ?_ ?_ fun n hn => ?_))
    · exact hnode ▸ hs₂.program.sound.node_ne_nil call hs₂.has
    · exact hnode ▸ hs₂.program.avoids_done
    · exact Nat.lt_of_lt_of_le (htargets n hn) hl.nodes_le
  · exact leaves_pure hs trivial

/-! ### Resolutions -/

theorem receiverTypes_lt (hs : s.Intact X L) (call : ExprId) (receiver : Option ExprId) :
    ∀ type ∈ receiverTypes s.program call receiver, InTable type s := by
  intro member hmember
  unfold receiverTypes at hmember
  split at hmember
  · split at hmember
    · cases hmember
    · rename_i type htype
      split at hmember
      · rename_i members hk
        exact hs.whole.mentions type member (by rw [hk]; exact hmember)
      · cases hmember
      · rw [List.mem_singleton.mp hmember]
        exact hs.program.typeOf_lt htype
  · exact hs.program.scopes call member (Option.mem_toList.mp hmember)

theorem argTypes_lt (hs : s.Intact X L) {args : List ExprId} {types : List TypeId}
    (htypes : args.mapM s.program.typeOf = some types) : ∀ type ∈ types, InTable type s := by
  induction args generalizing types with
  | nil => cases htypes; exact fun _ h => nomatch h
  | cons arg rest ih =>
    rw [List.mapM_cons] at htypes
    obtain ⟨first, hfirst, htypes⟩ := Option.bind_eq_some_iff.mp htypes
    obtain ⟨others, hothers, htypes⟩ := Option.bind_eq_some_iff.mp htypes
    cases htypes
    exact List.forall_mem_cons.mpr ⟨hs.program.typeOf_lt hfirst, ih hothers⟩

theorem leaves_bindToTargets (hw : Finishes setting walk) (hs : s.Intact X (.done call :: L)) :
    LeavesIntact setting s (bindToTargets walk call) X (.done call :: L) := by
  unfold bindToTargets
  refine leaves_read outcome_program ?_
  split
  · exact leaves_pure hs trivial
  · split
    · split
      · exact leaves_pure hs trivial
      · rename_i argTypes hargs
        dsimp only
        split
        · exact leaves_pure hs trivial
        · refine (leaves_targetsFor hw hs (argTypes_lt hs hargs) (List.forall_mem_nil _)
            (receiverTypes_lt hs call _)).bind fun targets s₁ hl₁ hs₁ htargets => ?_
          split
          · exact leaves_rebind hs₁ htargets
          · refine (leaves_breakNodeOf hs₁ _).bind fun node s₂ hl₂ hs₂ hspare =>
              leaves_rebind hs₂ fun n hn => ?_
            rcases List.mem_append.mp hn with hn | hn
            · exact Nat.lt_of_lt_of_le (htargets n hn) hl₂.nodes_le
            · rw [List.mem_singleton.mp hn]; exact hspare.lt
    · exact leaves_pure hs trivial

theorem leaves_resolve (hw : Finishes setting walk) (hs : s.Intact X (.done call :: L)) :
    LeavesIntact setting s (resolve walk call) X (.done call :: L) := by
  have hbind : ∀ s' : WalkState, s'.Intact X (.done call :: L) → LeavesIntact setting s'
      (do if (← read).tools.resolvesCalls then bindToTargets walk call) X
        (.done call :: L) := fun s' hs' => by
    refine leaves_read outcome_read ?_
    split
    · exact leaves_bindToTargets hw hs'
    · exact leaves_pure hs' trivial
  unfold resolve
  refine leaves_read outcome_program ?_
  dsimp only
  split
  · exact (leaves_modifyJournal _ hs).bind fun _ s' _ hs' _ => hbind s' hs'
  · exact hbind s hs

theorem leaves_resolvePending (hw : Finishes setting walk) (count : Nat) (hs : s.Intact X L) :
    LeavesIntact setting s (resolvePending walk count) X L := by
  induction count generalizing s with
  | zero => exact leaves_throw _
  | succ count ih =>
    unfold resolvePending
    refine leaves_read outcome_program ?_
    split
    · exact leaves_pure hs trivial
    · rename_i call g hnext
      refine (leaves_modifyProgram hs (hs.program.nextCall hnext)).bind fun _ s₁ _ hs₁ _ => ?_
      exact (leaves_resolve hw hs₁).bind fun _ s₂ _ hs₂ _ => ih hs₂.tail

end TypeFlow.Infer
