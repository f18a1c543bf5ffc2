import TypeFlow.Proofs.Inference.Composed.Steps
import TypeFlow.Proofs.Inference.Onward
import TypeFlow.Proofs.Inference.Selected
import TypeFlow.Proofs.Types.Hierarchy

/-!
# Abstract classes

An abstract class is never allocated: the calls that ask for an object of it end in an error,
whatever their arguments are, and so does the allocation in its own methods (`Refuses`). This holds
from its declaration on (`Reached.refusesAbstract`). An instance of a generic class is a type of its
own, which is not asked whether the class is abstract, and so nothing of this holds of it
(`Session.allocated_instanceOfAbstract`).
-/

namespace TypeFlow
open WalkState

namespace Types
variable {t t' : Types} {type : TypeId}

theorem kind_declare (t : Types) (owner : TypeId) (name : String) (kind : TypeKind) :
    (t.declare owner name kind).2.kind ⟨t.size⟩ = kind := by
  have hadds := gains_push t name (some owner) kind
  exact ((keepsKinds_setName _ owner name (.type ⟨t.size⟩)).kind_eq ⟨t.size⟩ hadds.new_lt).trans
    hadds.kind_new

def IsAbstract (t : Types) (type : TypeId) : Prop :=
  ∃ head, t.kind type = .classType head ∧ head.isAbstract = true

/-- Why the class is not allocated. -/
def refusal (t : Types) (type : TypeId) : Problem :=
  if t.isGeneric type then .genericAllocation (t.name type) else .abstractAllocation (t.name type)

theorem IsAbstract.mono (h : t.IsAbstract type) (hk : t.KeepsKinds t') : t'.IsAbstract type := by
  obtain ⟨head, hkind, habstract⟩ := h
  exact ⟨head, hk.kind_classType hkind, habstract⟩

end Types

namespace Infer
variable {setting : Setting} {walk : Step} {s s' m m' : WalkState} {id call : ExprId}
  {type receiver : TypeId}

/-- What comes after a step that ends in the error is not reached. -/
theorem outcome_bind_of_problem {α β : Type} {x : Infer α} {f : α → Infer β} {problem : Problem}
    (h : x.outcome setting s = (problemAt id problem : Infer α).outcome setting s) :
    (x >>= f).outcome setting s = (problemAt id problem : Infer β).outcome setting s := by
  rw [outcome_bind, h]
  rfl

theorem outcome_requireAllocatable (h : s.program.types.IsAbstract type) :
    (requireAllocatable id type).outcome setting s =
      (problemAt id (s.program.types.refusal type) : Infer Unit).outcome setting s := by
  obtain ⟨head, hkind, habstract⟩ := h
  unfold requireAllocatable
  rw [outcome_bind, outcome_types]
  simp only [hkind, habstract, Types.refusal, Types.isGeneric, Types.typeVars, if_true]
  split
  · exact outcome_bind_of_problem rfl
  · rfl

theorem outcome_allocation (h : s.program.types.IsAbstract type) :
    (allocation call type).outcome setting s =
    (problemAt call (s.program.types.refusal type) : Infer NodeId).outcome setting s :=
  outcome_bind_of_problem (outcome_requireAllocatable h)

/-- The call asks for a new object of the class that its receiver stands for, unless this has a
method for it. -/
def Resolution.Instantiates (r : Resolution) (t : Types) (receiver : TypeId) : Prop :=
  r.name = "allocate" ∧ r.args = [] ∨ r.name = "new" ∧
    t.findMethod receiver ("new", r.args.length) = none

theorem outcome_targetFor_of_instantiates {r : Resolution}
    (hk : s.program.types.kind receiver = .metaclass type)
    (habstract : s.program.types.IsAbstract type) (hr : r.Instantiates s.program.types receiver) :
    (targetFor walk r receiver).outcome setting s =
      (problemAt r.call (s.program.types.refusal type) : Infer NodeId).outcome setting s := by
  have hbuiltin : (builtinCall walk r receiver).outcome setting s =
      (problemAt r.call (s.program.types.refusal type) : Infer (Option NodeId)).outcome
        setting s := by
    unfold builtinCall
    rw [outcome_bind, outcome_types]
    simp only [hk]
    rcases hr with ⟨hname, hargs⟩ | ⟨hname, hnone⟩
    · rw [if_pos ⟨hname, List.isEmpty_iff.mpr hargs⟩]
      exact outcome_bind_of_problem (outcome_allocation habstract)
    · have hother : ¬ (r.name = "allocate" ∧ r.args.isEmpty = true) := fun h =>
        absurd (hname.symm.trans h.1) (by decide)
      rw [if_neg hother, if_pos ⟨hname, Option.isNone_iff_eq_none.mpr hnone⟩]
      exact outcome_bind_of_problem (outcome_bind_of_problem (outcome_allocation habstract))
  exact outcome_bind_of_problem hbuiltin

/-- A step that looks for a target comes to each of the types in its turn. -/
theorem does_targetsFor_mem (hw : Walks setting walk) {r : Resolution} {targets out : List NodeId}
    {receivers : List TypeId} (hs : Ready none s)
    (hd : (targetsFor walk r targets receivers).Does setting s out s')
    (hmem : receiver ∈ receivers) :
    ∃ m node m', s.Onward m ∧ (targetFor walk r receiver).Does setting m node m' := by
  induction receivers generalizing s targets with
  | nil => cases hmem
  | cons first rest ih =>
    obtain ⟨node, m, hfirst, hrest⟩ := does_bind.mp hd
    rcases List.mem_cons.mp hmem with rfl | hmem
    · exact ⟨s, node, m, .refl, hfirst⟩
    · have hgoes := runnable_targetFor hw hs r first
      obtain ⟨m', node', m'', honward, hd⟩ := ih ((hgoes.does hfirst).1.ready hs).2 hrest hmem
      exact ⟨m', node', m'', (Onward.of_goes hgoes hfirst).trans honward, hd⟩

/-! ### Declarations -/

theorem does_declareHere {name : String} {kind : TypeKind}
    (hd : (declareHere name kind).Does setting s type s') :
    type = ⟨s.program.types.size⟩ ∧ s'.frame = s.frame ∧
      s'.program.types = (s.program.types.declare s.frame.innermostType name kind).2 := by
  unfold declareHere at hd
  rw [does_bind_of_ok outcome_innermostType, Does, outcome_updateTypes] at hd
  cases hd
  exact ⟨rfl, rfl, rfl⟩

/-- A class of a new name is declared before its body is walked. -/
theorem does_walkClassDef {name : String} {superclass body : Option ExprId}
    {typeVars : Option (List String)} {isAbstract : Bool} {parent : Option TypeId}
    (hparent : (superclassExpr walk superclass).Does setting s parent m)
    (hnew : (m.program.types.get m.frame.innermostType).types.get? name = none)
    (hd : (walkClassDef walk id name superclass typeVars isAbstract body).Does setting s () s') :
    ∃ type declared, (declareHere name (.classType
        { superclass := some (parent.getD .reference), isAbstract, typeVars })).Does
          setting m type declared ∧
      (do walkBodyIn walk type body; giveType id .nil : Infer Unit).Does setting
        declared () s' := by
  unfold walkClassDef at hd
  rw [does_bind_of_ok hparent, does_bind_of_ok (outcome_declaredHere name), hnew] at hd
  obtain ⟨type, declared, hdeclare, hbody⟩ := does_bind.mp hd
  exact ⟨type, declared, hdeclare, hbody⟩

end Infer

namespace WalkState
open Infer
variable {setting : Setting} {s s' m m' : WalkState} {id : ExprId} {type : TypeId}

/-- Nothing makes an object of the class. -/
structure Refuses (setting : Setting) (type : TypeId) (s : WalkState) : Prop where
  /-- What looks for the target of a call. -/
  reaches : ∀ ⦃walk r receiver⦄, s.program.types.kind receiver = .metaclass type →
    r.Instantiates s.program.types receiver → (targetFor walk r receiver).outcome setting s =
      (problemAt r.call (s.program.types.refusal type) : Infer NodeId).outcome setting s
  /-- A call of `new` that goes through has found a method with the name. -/
  calls : setting.tools.resolvesCalls = true → ∀ ⦃fuel call receiver name args block member s'⦄,
    s.program.construct call = .call receiver name args block →
      s.program.expansions.get? call = none →
    args.mapM s.program.typeOf ≠ none → member ∈ receiverTypes s.program call receiver →
    s.program.types.kind member = .metaclass type →
      (resolve (Infer.walk fuel) call).Does setting s () s' →
      ¬ (name = "allocate" ∧ args = []) ∧
        (name = "new" → ∃ m, s.Onward m ∧
          m.program.types.findMethod member ("new", args.length) ≠ none)
  /-- The allocation in its methods. -/
  allocates : ∀ ⦃id⦄, s.nameScope = type → (walkAllocate id).outcome setting s =
    (problemAt id (s.selfType.2.refusal type) : Infer Unit).outcome setting
      (s.withProgram { s.program with types := s.selfType.2 })

theorem described_selfType (h : s.nameScope = type) (habstract : s.program.types.IsAbstract type) :
    s.selfType.2.described s.selfType.1 = type ∧ s.selfType.2.IsAbstract type := by
  unfold nameScope at h
  unfold selfType
  generalize s.frame.scope = scope at h ⊢
  cases scope with
  | some scope => exact ⟨h, habstract⟩
  | none =>
    dsimp only at h ⊢
    subst h
    refine ⟨?_, habstract.mono (Types.growsTo_metaclassOf _ _).keepsKinds⟩
    obtain ⟨head, hkind, -⟩ := habstract
    by_cases hp : s.frame.innermostType = .program
    · rw [hp] at hkind ⊢
      rw [Types.metaclassOf_program]
      simp only [Types.described, hkind]
    · simp only [Types.described, (Types.interns_metaclassOf _ hp).kind_eq]

theorem outcome_walkAllocate (h : s.nameScope = type)
    (habstract : s.program.types.IsAbstract type) :
    (walkAllocate id).outcome setting s =
        (problemAt id (s.selfType.2.refusal type) : Infer Unit).outcome setting
      (s.withProgram { s.program with types := s.selfType.2 }) := by
  obtain ⟨hdescribed, habstract⟩ := described_selfType h habstract
  unfold walkAllocate
  rw [outcome_bind, outcome_typeOfSelf]
  dsimp only
  rw [outcome_bind, outcome_types]
  dsimp only
  rw [WalkState.withProgram_program, hdescribed]
  exact outcome_bind_of_problem (outcome_requireAllocatable habstract)

theorem length_of_mapM {α β : Type} {f : α → Option β} {as : List α} {bs : List β}
    (h : as.mapM f = some bs) : bs.length = as.length := by
  induction as generalizing bs with
  | nil => cases h; rfl
  | cons a as ih =>
    rw [List.mapM_cons] at h
    obtain ⟨b, -, h⟩ := Option.bind_eq_some_iff.mp h
    obtain ⟨rest, hrest, h⟩ := Option.bind_eq_some_iff.mp h
    cases h
    exact congrArg (· + 1) (ih hrest)

theorem Reached.refuses (h : s.Reached) (htidy : setting.tools.Tidy)
    (habstract : s.program.types.IsAbstract type) :
    s.Refuses setting type where
  reaches _ _ _ hk hr := outcome_targetFor_of_instantiates hk habstract hr
  allocates _ hscope := outcome_walkAllocate hscope habstract
  calls hresolves fuel call receiver name args block member s' hc hunexpanded
    hargs hmember hk hd := by
    have hw := walks_walk htidy fuel
    obtain ⟨m, hnote, hprogram, -, hbind⟩ := does_resolve hresolves hd
    rw [← hprogram] at hc hunexpanded hargs hmember
    have hready : Ready none m := (hnote.ready h.ready).2
    rcases does_bindToTargets hbind with
      ⟨-, hnot⟩ | ⟨_, _, _, _, _, hc', ⟨types, _, _, htypes, htargets, -⟩, -⟩
    · rcases hnot _ _ _ _ hc with hexpanded | hnone | hnone
      · exact absurd hunexpanded hexpanded
      · exact absurd hnone hargs
      · exact absurd hnone (List.ne_nil_of_mem hmember)
    cases hc.symm.trans hc'
    obtain ⟨turn, node, m', honward, htarget⟩ := does_targetsFor_mem hw hready htargets hmember
    have honward : s.Onward turn := (Onward.runs .refl hnote).trans honward
    have hkinds := (honward.sound h.sound).1.program.kinds
    have hkind : turn.program.types.kind member = .metaclass type :=
      (hkinds.kind_eq_of_ne (by rw [hk]; nofun)).trans hk
    have hno : ¬ Resolution.Instantiates ⟨call, name, types, block, receiver.isNone⟩
        turn.program.types member := by
      intro hr
      rw [Does, outcome_targetFor_of_instantiates hkind (habstract.mono hkinds) hr,
        outcome_problemAt] at htarget
      cases htarget
    refine ⟨?_, fun hname => ⟨turn, honward, fun hnone => hno (.inr ⟨hname, ?_⟩)⟩⟩
    · rintro ⟨hname, rfl⟩
      exact hno (.inl ⟨hname, (Option.some.inj htypes).symm⟩)
    · rwa [← length_of_mapM htypes] at hnone

/-- A class that is declared abstract is refused in every state that follows, its own body
included. -/
theorem Reached.refusesAbstract (h : m.Reached) (htidy : setting.tools.Tidy) {mid : WalkState}
    {fuel : Nat} {name : String} {superclass body : Option ExprId} {typeVars : Option (List String)}
    {parent : Option TypeId}
    (hc : m.program.construct id = .classDef name superclass typeVars true body)
    (hparent : (superclassExpr (Infer.walk fuel) superclass).Does setting m parent mid)
    (hnew : (mid.program.types.get mid.frame.innermostType).types.get? name = none)
    (hd : (Infer.walk (fuel + 1) id).Does setting m () m') :
    ∃ type declared, (declareHere name (.classType
        { superclass := some (parent.getD .reference), isAbstract := true, typeVars })).Does
          setting mid type declared ∧
      declared.Onward m' ∧ ∀ s, declared.Onward s → s.Reached → s.Refuses setting type := by
  have hw := walks_walk htidy fuel
  have hid : m.Has id := has_of_construct hc (by simp)
  have hparts := h.ready.parts hc
  obtain ⟨m₁, hconstruct, hresolve⟩ := does_walk_succ hd
  obtain ⟨hrun₁, -⟩ := (runnable_walkConstruct hw htidy h.ready hid rfl).does hconstruct
  obtain ⟨-, hm₁⟩ := hrun₁.ready h.ready
  rw [hc] at hconstruct
  obtain ⟨type, declared, hdeclare, hbody⟩ := does_walkClassDef hparent hnew hconstruct
  obtain ⟨rfl, -, htypes⟩ := does_declareHere hdeclare
  have hsuper : Runnable setting none m (superclassExpr (Infer.walk fuel) superclass) :=
    runnable_superclassExpr hw h.ready fun i hi =>
      hparts i (List.mem_append_left _ (Option.mem_toList.mpr hi))
  obtain ⟨hl, hmid⟩ := (hsuper.does hparent).1.ready h.ready
  obtain ⟨hl', hdeclared⟩ := ((runnable_declareHere name _).does hdeclare).1.ready hmid
  have hgoes : Runnable setting none declared
      (do walkBodyIn (Infer.walk fuel) _ body; giveType id .nil) :=
    runnable_bodyIn hw hdeclared (hl'.has (hl.has hid)) ⟨mid.program.types.size⟩
      fun i hi => hl'.has (hl.has (hparts i (List.mem_append_right _ (Option.mem_toList.mpr hi))))
  have hrest := (runnable_resolvePending hw hm₁ fuel).does hresolve
  refine ⟨_, declared, hdeclare, .runs (.of_goes hgoes hbody) hrest.1, fun s honward hs =>
    hs.refuses htidy ?_⟩
  have habstract : declared.program.types.IsAbstract ⟨mid.program.types.size⟩ := by
    refine ⟨{ superclass := some (parent.getD .reference), isAbstract := true, typeVars }, ?_, rfl⟩
    rw [htypes]
    exact Types.kind_declare ..
  exact habstract.mono (honward.sound hdeclared.sound).1.program.kinds

/-- `abstract class Shape; end`. -/
def shape : Tree := .bare (.classDef "Shape" none none true none)

theorem refusesAbstract_shape : (lowered shape).Reached ∧ Toolchain.standard.Tidy ∧ ∃ m',
    (Infer.walk 9 ⟨0⟩).Does ⟨.standard, {}⟩ (lowered shape) () m' ∧
    (m'.program.types.get .program).types.get? "Shape" = some (.type ⟨24⟩) ∧
    ∀ s, m'.Onward s → s.Reached → s.Refuses ⟨.standard, {}⟩ ⟨24⟩ := by
  have hc : (lowered shape).program.construct ⟨0⟩ = .classDef "Shape" none none true none := by
    decide +kernel
  have hparent : (superclassExpr (Infer.walk 8) none).Does ⟨.standard, {}⟩ (lowered shape) none
      (lowered shape) := rfl
  have hnew : ((lowered shape).program.types.get (lowered shape).frame.innermostType).types.get?
      "Shape" = none := by
    decide +kernel
  have hd : (Infer.walk 9 ⟨0⟩).Does ⟨.standard, {}⟩ (lowered shape) () _ :=
    does_of_isOk (by decide +kernel)
  obtain ⟨type, declared, hdeclare, honward, hrefuses⟩ :=
    (reached_lowered shape).refusesAbstract Toolchain.tidy_standard hc hparent hnew hd
  obtain ⟨rfl, -⟩ := does_declareHere hdeclare
  have hsize : (lowered shape).program.types.size = 24 := by decide +kernel
  rw [hsize] at hrefuses
  exact ⟨reached_lowered shape, Toolchain.tidy_standard, _, hd, by decide +kernel,
    fun s hs hreached => hrefuses s (honward.trans hs) hreached⟩

end WalkState

/-- `abstract class Box(T); end; Box(Int32).new`. -/
def instanceOfAbstract : Tree := .sequence
  [.bare (.classDef "Box" none (some ["T"]) true none),
    .call (some (.genericInstance (.path "Box") [.path "Int32"])) "new" []]

/-- An instance of an abstract generic class is allocated. -/
theorem Session.allocated_instanceOfAbstract :
    ∃ s, ({} : Session).typed ⟨.standard, {}⟩ instanceOfAbstract = (.ok (), s) ∧
    (s.program.types.get .program).types.get? "Box" = some (.type ⟨24⟩) ∧
    s.program.types.IsAbstract ⟨24⟩ ∧
    s.program.construct ⟨4⟩ = .call (some ⟨3⟩) "new" [] none ∧
    (∃ type, s.program.typeOf ⟨4⟩ = some type ∧
      s.program.types.kind type = .applied ⟨24⟩ [.int32]) := by
  have hend : let r := ({} : Session).typed ⟨.standard, {}⟩ instanceOfAbstract
      r.1.isOk = true ∧ (r.2.program.types.get .program).types.get? "Box" = some (.type ⟨24⟩) ∧
        r.2.program.types.kind ⟨24⟩ =
          .classType { superclass := some .reference, isAbstract := true, typeVars := some ["T"] } ∧
        r.2.program.construct ⟨4⟩ = .call (some ⟨3⟩) "new" [] none ∧
        r.2.program.typeOf ⟨4⟩ = some ⟨27⟩ ∧
        r.2.program.types.kind ⟨27⟩ = .applied ⟨24⟩ [.int32] := by decide +kernel
  obtain ⟨hok, hname, hkind, hcall, htype, happlied⟩ := hend
  rcases h : ({} : Session).typed ⟨.standard, {}⟩ instanceOfAbstract with ⟨_ | ⟨⟩, s⟩ <;>
    rw [h] at hok hname hkind hcall htype happlied
  · cases hok
  · exact ⟨s, rfl, hname, ⟨_, hkind, rfl⟩, hcall, _, htype, happlied⟩

end TypeFlow
