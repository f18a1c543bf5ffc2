import TypeFlow.Proofs.Inference.Composed.Kept

/-!
# Names are defined once

What a name stands for in a type, and what the signature of an external function is, no walk changes
any more.
-/

namespace TypeFlow

open Infer in
/-- A walk of any expression, in any state and however it ends, keeps what is defined: every name
that a type had has the same entry, a type or a constant, and every external function has the same
signature. -/
theorem WalkState.walk_keepsNames {setting : Setting} (htidy : setting.tools.Tidy)
    {s s' : WalkState} {fuel : Nat} {id : ExprId} {result : Except Failure Unit}
    (h : (Infer.walk fuel id).outcome setting s = (result, s')) :
    (∀ owner name entry, (s.program.types.get owner).types.get? name = some entry →
      (s'.program.types.get owner).types.get? name = some entry) ∧
    ∀ owner name signature, (s.program.types.get owner).funs.get? name = some signature →
      (s'.program.types.get owner).funs.get? name = some signature := by
  have hkeeps := (composed_walk fuel id s).relates htidy relates_keepsNames
  rw [h] at hkeeps
  exact ⟨hkeeps.named, hkeeps.signature⟩

namespace WalkState

/-- `lib C; type T : Int32; fun f : Int32; end`, and then
`lib C; type U : (type U : Int32; Char); type T : Char; end`. -/
def redefining : Tree :=
  let lib := fun items => Tree.bare (.libDef "C" none (some (.sequence items)))
  let named := fun name type => Tree.bare (.aliasDef name type 0)
  .sequence
    [lib [named "T" (.path "Int32"), .bare (.funDef "f" "f" [] (some (.path "Int32")) 0 false)],
    lib [named "U" (.sequence [named "U" (.path "Int32"), .path "Char"]), named "T" (.path "Char")]]

/-- The first lib has been walked. -/
def defined : WalkState := ((Infer.walk 9 ⟨5⟩).outcome ⟨.standard, {}⟩ (lowered redefining)).2

/-- The second one gives `U` two meanings, one after the other, and fails at `T`. -/
theorem walk_keepsNames_redefining : Toolchain.standard.Tidy ∧ ∃ lib e s',
    (Infer.walk 9 ⟨14⟩).outcome ⟨.standard, {}⟩ defined = (.error e, s') ∧
      (s'.program.types.get .program).types.get? "C" = some (.type lib) ∧
      (s'.program.types.get lib).types.get? "T" = some (.type ⟨26⟩) ∧
      (s'.program.types.get lib).types.contains "U" = true ∧
      (s'.program.types.get lib).funs.get? "f" = some ⟨"f", [], .int32, false⟩ := by
  have hbefore : (defined.program.types.get .program).types.get? "C" = some (.type ⟨24⟩) ∧
      (defined.program.types.get ⟨24⟩).types.get? "T" = some (.type ⟨26⟩) ∧
      (defined.program.types.get ⟨24⟩).funs.get? "f" = some
        ⟨"f", [], .int32, false⟩ := by decide +kernel
  have hend : let r := (Infer.walk 9 ⟨14⟩).outcome ⟨.standard, {}⟩ defined
      r.1.isOk = false ∧ (r.2.program.types.get ⟨24⟩).types.contains "U" = true := by decide +kernel
  rcases hout : (Infer.walk 9 ⟨14⟩).outcome ⟨.standard, {}⟩ defined with
    ⟨e | ⟨⟩, s'⟩ <;> rw [hout] at hend
  · obtain ⟨hnamed, hsignature⟩ := walk_keepsNames Toolchain.tidy_standard hout
    exact ⟨Toolchain.tidy_standard, ⟨24⟩, e, s', rfl, hnamed _ _ _ hbefore.1,
      hnamed _ _ _ hbefore.2.1, hend.2, hsignature _ _ _ hbefore.2.2⟩
  · cases hend.1

end WalkState

end TypeFlow
