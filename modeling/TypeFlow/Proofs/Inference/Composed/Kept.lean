import TypeFlow.Proofs.Inference.Composed.Walk

/-!
# What composed steps keep of a program

A relation between programs that goes along with quiet changes, with growing tables of types and
with declarations under free names holds between the programs before and after any step, however it
ends (`Composes.relates`). One such relation says that names keep their meanings, another that
expressions stay a forest, a third that only method definitions are registered as methods.
-/

namespace TypeFlow.Infer
variable {α : Type} {setting : Setting} {s : WalkState} {R : Program → Program → Prop}

structure Relates (setting : Setting) (R : Program → Program → Prop) : Prop where
  refl : ∀ p, R p p
  trans : ∀ {p p' p''}, R p p' → R p' p'' → R p p''
  quiet : ∀ {s p}, Quiet setting s p → R s.program p
  /-- Expressions are not touched, and types are only added. -/
  still : ∀ {p p'}, p'.exprs = p.exprs → p.types.GrowsTo p'.types → R p p'
  /-- Later a type is declared under a name that was free at first. -/
  declare : ∀ {p p' owner name} (kind : TypeKind), p.types.IsFree owner name → R p p' →
    R p { p' with types := (p'.types.declare owner name kind).2 }

theorem Relates.same (h : Relates setting R) {p p' : Program} (hexprs : p'.exprs = p.exprs)
    (htypes : p'.types = p.types) : R p p' :=
  h.still hexprs (htypes ▸ .refl _)

/-- By induction on what the step is composed of. -/
theorem Composes.relates {stage : Stage} {x : Infer α} (h : Composes setting stage s x)
    (htidy : setting.tools.Tidy) (hR : Relates setting R) :
    R s.program (x.outcome setting s).2.program := by
  induction h with
  | pure | throw | frame | fresh | journal => exact hR.refl _
  | read hreads _ ih =>
    rename_i s x f a _
    rwa [outcome_bind, show x.outcome setting s = (.ok a, s) from hreads s.memo]
  | bind _ _ ihx ihf =>
    rename_i s x f _ _
    rw [outcome_bind]
    rcases hd : x.outcome setting s with ⟨e | a, s'⟩ <;> rw [hd] at ihx
    · exact ihx
    · exact hR.trans ihx (ihf a s' hd)
  | mapError _ _ ih => rwa [outcome_mapError]
  | within enter leave _ _ ih => rwa [outcome_within]
  | update hquiet | marks hquiet => exact hR.quiet hquiet
  | phase _ ih | breaks _ ih | loop _ ih => exact ih
  | normalize s tree =>
    obtain ⟨count, hcount⟩ := htidy s.program tree
    have hprogram :
        ((updateProgram fun p => setting.tools.normalize p tree).outcome setting s).2.program =
      { s.program with temporaries := count } := hcount
    exact hprogram ▸ hR.same rfl rfl
  | declaration hfree _ hsame ih =>
    rename_i s x name kind _
    rcases hd : x.outcome setting s with ⟨e | a, s'⟩ <;> rw [hd] at ih
    · rwa [state_declaration hd]
    · rw [state_declaration_of_does hd, declaring, hsame htidy a s' hd]
      exact hR.declare (kind a) hfree ih
  | value s type =>
    rcases hvalue : s.memo.values.get? type with _ | node
    · rw [outcome_knownValue_of_none hvalue]
      exact hR.same rfl rfl
    · rw [outcome_knownValue_of_some hvalue]
      exact hR.refl _
  | rebind s call targets =>
    by_cases htargets : s.memo.targets.get? call = some targets
    · rw [outcome_rebind_of_eq htargets]
      exact hR.refl _
    · rw [outcome_rebind_of_ne htargets, outcome_mapError, Infer.bind, outcome_onNetwork]
      exact hR.still rfl
        (growsTo_bind (unbound s call targets).program (s.program.nodeOf call) targets)
  | recalled hinstance =>
    rw [outcome_methodResult_of_some hinstance]
    exact hR.refl _
  | «instance» hnone hc _ ih =>
    rename_i s _ _ key _ _ _ _ _ _ _
    have hrecord : R s.program (s.recording key).program := hR.same rfl rfl
    rw [outcome_methodResult_of_none hnone hc]
    exact hR.trans hrecord ih
  | stray hnone _ hc =>
    rw [outcome_methodResult_of_stray hnone hc]
    exact hR.refl _
  | evaluation hpending _ ih =>
    rename_i s _ _ const _
    have hbegin : R s.program (s.program.beginConstant const) := hR.same rfl rfl
    rw [outcome_evaluateConstant _ hpending rfl]
    exact hR.trans (hR.trans hbegin ih) (hR.same rfl rfl)
  | expander s definition args =>
    rcases hkept : s.session.expanders.get? (keyOf s.program definition args) with _ | expander
    · rw [outcome_expanderFor_of_none hkept]
      exact hR.refl _
    · rw [outcome_expanderFor_of_some hkept]
      exact hR.refl _
  | expand =>
    rw [state_expand]
    exact hR.refl _
  | deeper _ _ ih =>
    rename_i s _ _ _
    have hdeeper : R s.program (atDepth s (s.program.expansionDepth + 1)).program := hR.same rfl rfl
    rw [outcome_inExpansion]
    exact hR.trans (hR.trans hdeeper ih) (hR.same rfl rfl)

/-! ### Names -/

theorem relates_keepsNames : Relates setting fun p p' => p.types.KeepsNames p'.types where
  refl p := .refl p.types
  trans h h' := h.trans h'
  quiet h := h.names
  still _ h := h.keepsNames
  declare kind hfree h := h.declare hfree kind

/-! ### Expressions -/

theorem relates_forest : Relates setting fun p p' => p.Forest → p'.Forest where
  refl _ h := h
  trans h h' hp := h' (h hp)
  quiet h := h.forest
  still hexprs _ h := h.of_exprs_eq hexprs
  declare _ _ h hp := (h hp).of_exprs_eq rfl

/-! ### Methods -/

theorem relates_methodsOnly (htidy : setting.tools.Tidy) :
    Relates setting fun p p' => p.MethodsOnly → p'.MethodsOnly where
  refl _ h := h
  trans h h' hp := h' (h hp)
  quiet h hp := by
    obtain ⟨deeds, hcourse⟩ := h.course htidy
    exact hp.later (h.registers htidy) hcourse.later
  still hexprs htypes hp := hp.of_keeps hexprs htypes.keepsMethods
  declare {_ p' owner name} kind _ h hp := by
    have hact : Types.Act p'.types (p'.types.declare owner name kind).2 := .declare ..
    exact (h hp).of_keeps rfl hact.keepsMethods

end TypeFlow.Infer
