import TypeFlow.Proofs.Inference.Onward
import TypeFlow.Proofs.Inference.Restored.Walk
import TypeFlow.Proofs.Inference.Selected

/-!
# What a method yields

A method may declare the types of what it yields. A yield compares its values with them once they
have been walked, and freezes those that have a type by then, so that these keep the declared type
(`Reached.fixesYields`). A value that has none yet is neither compared nor frozen, and may get any
type later.
-/

namespace TypeFlow
open WalkState

namespace Infer
variable {setting : Setting} {s s' : WalkState}

/-- The values from a position on that are typed have the types declared for them and are frozen. -/
def Checked (values : List ExprId) (position : Nat) (declared : List TypeId)
    (s s' : WalkState) : Prop :=
  ∀ i value expected type, values[position + i]? = some value → declared[i]? = some expected →
    s.program.typeOf value = some type → type = expected ∧ Fixed (s.program.nodeOf value) type s'

theorem Checked.cons {values : List ExprId} {position : Nat} {expected : TypeId}
    {rest : List TypeId}
    (hfirst : ∀ value type, values[position]? = some value → s.program.typeOf value = some type →
      type = expected ∧ Fixed (s.program.nodeOf value) type s')
    (hrest : Checked values (position + 1) rest s s') :
    Checked values position (expected :: rest) s s' := by
  intro i value declared type hvalue hdeclared htype
  cases i with
  | zero =>
    cases hdeclared
    exact hfirst value type hvalue htype
  | succ i =>
    rw [Nat.add_succ, ← Nat.succ_add] at hvalue
    exact hrest i value declared type hvalue hdeclared htype

/-- The state after the node of a value has been frozen. -/
def withFrozen (s : WalkState) (value : ExprId) : WalkState :=
  s.withProgram (s.program.modifyGraph (·.freeze (s.program.nodeOf value)))

theorem typeOf_withFrozen (s : WalkState) (value other : ExprId) :
    (withFrozen s value).program.typeOf other = s.program.typeOf other :=
  FlowGraph.modify_field FlowNode.type fun _ => rfl

theorem fixed_withFrozen {value : ExprId} {type : TypeId} (h : s.program.typeOf value = some type) :
    Fixed (s.program.nodeOf value) type (withFrozen s value) :=
  fixed_freeze h

/-- A value that has no type is passed over; another one is frozen at the type that is expected. -/
theorem does_checkYield_cons {id : ExprId} {values : List ExprId} {expected : TypeId}
    {rest : List TypeId} {position : Nat}
    (hd : (checkYield id values position (expected :: rest)).Does setting s () s') :
    ((∀ value, values[position]? = some value → s.program.typeOf value = none) ∧
        (checkYield id values (position + 1) rest).Does setting s () s') ∨
      ∃ value, values[position]? = some value ∧ s.program.typeOf value = some expected ∧
        (checkYield id values (position + 1) rest).Does setting (withFrozen s value) () s' := by
  unfold checkYield at hd
  dsimp only at hd
  split at hd
  · rename_i hnone
    refine .inl ⟨fun value hvalue => ?_, ?_⟩
    · rw [hnone] at hvalue; cases hvalue
    split at hd
    · rw [does_bind_of_ok (outcome_nameOf _)] at hd
      obtain ⟨⟨⟩, m, hproblem, -⟩ := does_bind.mp hd
      cases hproblem
    · exact hd
  · rename_i value hvalue
    rw [does_bind_of_ok (outcome_typeOf value)] at hd
    split at hd
    · rename_i huntyped
      refine .inl ⟨fun other hother => ?_, hd⟩
      obtain rfl := Option.some.inj (hvalue.symm.trans hother)
      exact huntyped
    · rename_i actual hactual
      split at hd
      · rw [does_bind_of_ok (outcome_nameOf _), does_bind_of_ok (outcome_nameOf _)] at hd
        obtain ⟨⟨⟩, m, hproblem, -⟩ := does_bind.mp hd
        cases hproblem
      · rename_i heq
        obtain rfl := not_not.mp heq
        rw [does_bind_of_ok (outcome_nodeOf value), does_bind_of_ok (outcome_modifyGraph _)] at hd
        exact .inr ⟨value, hvalue, hactual, hd⟩

theorem does_checkYield {id : ExprId} {values : List ExprId} {declared : List TypeId}
    {position : Nat} (hd : (checkYield id values position declared).Does setting s () s') :
    Checked values position declared s s' ∧ ∀ node type, Fixed node type s →
      Fixed node type s' := by
  induction declared generalizing s position with
  | nil =>
    obtain ⟨-, rfl⟩ := does_pure.mp hd
    exact ⟨fun i _ _ _ _ hdeclared => by simp at hdeclared, fun _ _ h => h⟩
  | cons expected rest ih =>
    rcases does_checkYield_cons hd with ⟨huntyped, hd⟩ | ⟨value, hvalue, htyped, hd⟩
    · obtain ⟨hchecked, hfixed⟩ := ih hd
      refine ⟨.cons (fun value type hvalue htype => ?_) hchecked, hfixed⟩
      rw [huntyped value hvalue] at htype; cases htype
    · obtain ⟨hchecked, hfixed⟩ := ih hd
      have hkeeps : ∀ node type, Fixed node type s →
          Fixed node type (withFrozen s value) := fun _ _ h =>
        h.modify (fun _ _ => rfl) fun _ => rfl
      refine ⟨.cons (fun other type hother htype => ?_)
        fun i other expected type hother hexpected htype => ?_,
        fun node type h => hfixed node type (hkeeps node type h)⟩
      · obtain rfl := Option.some.inj (hvalue.symm.trans hother)
        obtain rfl := Option.some.inj (htyped.symm.trans htype)
        exact ⟨rfl, hfixed _ _ (fixed_withFrozen htyped)⟩
      · exact hchecked i other expected type hother hexpected
          ((typeOf_withFrozen s value other).trans htype)

/-- The values are walked and compared with what the method declares. Nothing that is bound
afterwards changes the type of a value that was. -/
theorem does_walkYield {walk : Step} (hw : Walks setting walk)
    (hrestores : ∀ id, Restores setting (walk id)) (hs : Ready none s) {id : ExprId}
    {values : List ExprId} {declared : List TypeId} (hid : s.Plain id)
    (hvalues : ∀ value ∈ values, s.Has value) (hdeclared : s.frame.yieldTypes = some declared)
    (hd : (walkYield walk id values).Does setting s () s') :
    ∃ mid, (values.forM walk).Does setting s () mid ∧ s.Later mid ∧
      Checked values 0 declared mid s' := by
  rw [walkYield, does_bind_of_ok outcome_frame] at hd
  split at hd
  · cases hd
  obtain ⟨⟨⟩, mid, hall, hrest⟩ := does_bind.mp hd
  obtain ⟨hl, hmid⟩ := ((hw.all hs hvalues).does hall).1.ready hs
  have hframe : mid.frame.yieldTypes = some declared := by
    have hrestored := (restores_forM values fun value _ => hrestores value).restored s
    rw [show (values.forM walk).outcome setting s = _ from hall] at hrestored
    exact hrestored.frame.yieldTypes.trans hdeclared
  rw [does_bind_of_ok (outcome_construct _)] at hrest
  split at hrest
  · rename_i params body hblock
    rw [does_bind_of_ok outcome_frame, hframe] at hrest
    obtain ⟨⟨⟩, m₁, hcheck, hrest⟩ := does_bind.mp hrest
    obtain ⟨⟨⟩, m₂, hparams, hderive⟩ := does_bind.mp hrest
    rw [does_bind_of_ok (outcome_partNode _)] at hderive
    obtain ⟨hl₁, hm₁⟩ := ((runnable_checkYield hmid ..).does hcheck).1.ready hmid
    obtain ⟨hrun₂, -⟩ :=
      (runnable_bindParams hm₁ (hl₁.program.construct_block hblock) values).does hparams
    have hplain₂ := (hrun₂.ready hm₁).1.plain (hl₁.plain (hl.plain hid))
    have hrun₃ : Runs setting none true m₂ s' := ((runnable_deriveFrom hplain₂ _).does hderive).1
    refine ⟨mid, hall, hl, fun i value expected type hvalue hexpected htype => ?_⟩
    obtain ⟨heq, hfixed⟩ := (does_checkYield hcheck).1 i value expected type hvalue hexpected htype
    exact ⟨heq, hrun₃.fixed (hrun₂.fixed hfixed)⟩
  · cases hrest

end Infer

namespace WalkState.Reached
open Infer
variable {setting : Setting} {m m' : WalkState}

/-- When a yield has been walked in a method that declares what it yields, every value that had a
type once all of them had been walked has the type declared for it, in every state that follows. -/
theorem fixesYields (h : m.Reached) (htidy : setting.tools.Tidy) {id : ExprId}
    {values : List ExprId} {declared : List TypeId} {fuel : Nat}
    (hc : m.program.construct id = .yieldTo values) (hdeclared : m.frame.yieldTypes = some declared)
    (hd : (Infer.walk (fuel + 1) id).Does setting m () m') :
    ∃ mid, (values.forM (Infer.walk fuel)).Does setting m () mid ∧
      ∀ (i : Nat) (value : ExprId) (expected : TypeId),
        values[i]? = some value → declared[i]? = some expected →
        ∀ type, mid.program.typeOf value = some type →
          type = expected ∧ ∀ s, m'.Onward s → s.program.typeOf value = some expected := by
  have hs := h.ready
  have hw := walks_walk htidy fuel
  have hid : m.Has id := has_of_construct hc (by simp)
  have hvalues : ∀ value ∈ values, m.Has value :=
    fun value hv => hs.parts hc value (by simpa [Construct.children] using hv)
  obtain ⟨m₁, hconstruct, hresolve⟩ := does_walk_succ hd
  obtain ⟨hrun₁, -⟩ := (runnable_walkConstruct hw htidy hs hid rfl).does hconstruct
  obtain ⟨hl₁, hm₁⟩ := hrun₁.ready hs
  obtain ⟨hrun₂, -⟩ := (runnable_resolvePending hw hm₁ fuel).does hresolve
  obtain ⟨hl₂, hm'⟩ := hrun₂.ready hm₁
  rw [hc] at hconstruct
  obtain ⟨mid, hall, hlater, hchecked⟩ :=
    does_walkYield hw (restores_walk htidy.keepsDepth fuel) hs ⟨hid, by rw [hc]; rfl⟩ hvalues
      hdeclared hconstruct
  refine ⟨mid, hall, fun i value expected hvalue hexpected type htype => ?_⟩
  obtain ⟨rfl, hfixed⟩ := hchecked i value expected type (by rwa [Nat.zero_add]) hexpected htype
  have hhas : m.Has value := hvalues value (List.mem_of_getElem? hvalue)
  have hnode : m'.program.nodeOf value = mid.program.nodeOf value :=
    ((hl₁.trans hl₂).program.nodeOf_eq value hhas).trans (hlater.program.nodeOf_eq value hhas).symm
  exact ⟨rfl, fun s hs => hs.typeOf_eq hm'.sound ((hl₁.trans hl₂).has hhas)
    (hnode ▸ hrun₂.fixed hfixed)⟩

/-- A block, and a yield of `1` to it. -/
def yieldsOne : Tree := .sequence [.block ["y"] (some (.var "y")), .yieldTo [.int32 1]]

/-- In a method that is given the block and declares that it yields an `Int32`. -/
def toBlock : Frame := { block := some ⟨2⟩, yieldTypes := some [.int32] }

theorem fixesYields_one :
    ((lowered yieldsOne).withFrame toBlock).Reached ∧ Toolchain.standard.Tidy ∧
    ∃ m', (Infer.walk 5 ⟨4⟩).Does ⟨.standard, {}⟩ ((lowered yieldsOne).withFrame toBlock) () m' ∧
      ∀ s, m'.Onward s → s.program.typeOf ⟨3⟩ = some .int32 := by
  have hfits : (Region.own toBlock).Fits (lowered yieldsOne) := ⟨nofun, nofun⟩
  have hm : ((lowered yieldsOne).withFrame toBlock).Reached :=
    .enter (.own toBlock) (reached_lowered yieldsOne) hfits
  have hc : ((lowered yieldsOne).withFrame toBlock).program.construct ⟨4⟩ = .yieldTo [⟨3⟩] := by
    decide +kernel
  have hd : (Infer.walk 5 ⟨4⟩).Does ⟨.standard, {}⟩ ((lowered yieldsOne).withFrame toBlock) () _ :=
    does_of_isOk (by decide +kernel)
  obtain ⟨mid, hmid, hfixes⟩ := hm.fixesYields Toolchain.tidy_standard hc rfl hd
  have htype : mid.program.typeOf ⟨3⟩ = some .int32 := by
    have hwalked : (([⟨3⟩].forM (Infer.walk 4)).outcome ⟨.standard, {}⟩
        ((lowered yieldsOne).withFrame toBlock)).2.program.typeOf ⟨3⟩ =
          some .int32 := by decide +kernel
    rwa [show ([⟨3⟩].forM (Infer.walk 4)).outcome _ _ = _ from hmid] at hwalked
  exact ⟨hm, Toolchain.tidy_standard, _, hd, (hfixes 0 ⟨3⟩ .int32 rfl rfl .int32 htype).2⟩

end WalkState.Reached

/-- `def each(&block : Int32); yield x; x = 'c'; end; each { |y| y }`. -/
def yieldedEarly : Tree := .sequence
  [.bare (.methodDef none "each" []
    (some (.sequence [.yieldTo [.var "x"], .assign (.var "x") (.char 'c')])) none
      (some { name := "block", inputs := [.path "Int32"] })),
    .callWithBlock none "each" [] (.block ["y"] (some (.var "y")))]

/-- The method declares that it yields an `Int32`, but what its body (here its copy) yields is a
`Char` in the end: it had no type when it was yielded. -/
theorem Session.drifted_yieldedEarly :
    ∃ s, ({} : Session).typed ⟨.standard, {}⟩ yieldedEarly = (.ok (), s) ∧
    s.program.construct ⟨7⟩ = .methodDef none "each" [] (some ⟨5⟩) none
      (some { name := "block", inputs := [⟨6⟩] }) ∧
    s.program.construct ⟨6⟩ = .path ["Int32"] false ∧ s.program.construct ⟨1⟩ = .yieldTo [⟨0⟩] ∧
    s.program.construct ⟨15⟩ = .yieldTo [⟨14⟩] ∧ s.typeNameOf ⟨14⟩ = some "Char" := by
  have hend : let r := ({} : Session).typed ⟨.standard, {}⟩ yieldedEarly
      r.1.isOk = true ∧
        r.2.program.construct ⟨7⟩ =
          .methodDef none "each" [] (some ⟨5⟩) none (some { name := "block", inputs := [⟨6⟩] }) ∧
        r.2.program.construct ⟨6⟩ = .path ["Int32"] false ∧
        r.2.program.construct ⟨1⟩ = .yieldTo [⟨0⟩] ∧
        r.2.program.construct ⟨15⟩ = .yieldTo [⟨14⟩] ∧
        r.2.typeNameOf ⟨14⟩ = some "Char" := by decide +kernel
  obtain ⟨hok, hrest⟩ := hend
  rcases h : ({} : Session).typed ⟨.standard, {}⟩ yieldedEarly with
    ⟨_ | ⟨⟩, s⟩ <;> rw [h] at hok hrest
  · cases hok
  · exact ⟨s, rfl, hrest⟩

end TypeFlow
