import TypeFlow.Proofs.Inference.Composed.Kept
import TypeFlow.Proofs.Inference.Onward
import TypeFlow.Proofs.Inference.Running

/-!
# Signatures of external functions

The declaration of an external function describes a signature: every argument has the type that is
denoted for it, behind as many pointers as are declared (`Denotes`), and so has the result, but for
pointers, which a result never gets. A function that has a signature keeps it (`declareFun_iff`).
-/

namespace TypeFlow
open WalkState

namespace Types
variable {t t' : Types} {base type owner : TypeId} {pointers : Nat} {name : String}
  {signature : Signature}

/-- The type is the base behind so many pointers. -/
def Behind (t : Types) (base : TypeId) : Nat → TypeId → Prop
  | 0, type => type = base
  | pointers + 1, type =>
    ∃ inner, t.Behind base pointers inner ∧ t.kind type = .applied .pointer [inner]

theorem Behind.mono (h : t.Behind base pointers type) (hk : t.KeepsKinds t') :
    t'.Behind base pointers type := by
  induction pointers generalizing type with
  | zero => exact h
  | succ pointers ih =>
    obtain ⟨inner, hinner, htype⟩ := h
    have hlt : type.index < t.size := by
      by_contra hle
      rw [kind_of_le (Nat.le_of_not_lt hle)] at htype
      cases htype
    exact ⟨inner, ih hinner, (hk.kind_eq type hlt).trans htype⟩

theorem behind_pointersTo (count : Nat) (h : t.Behind base pointers type) :
    (t.pointersTo type count).2.Behind base (pointers + count) (t.pointersTo type count).1 := by
  induction count generalizing t type pointers with
  | zero => exact h
  | succ count ih =>
    have hpointer : (t.pointerTo type).2.Behind base (pointers + 1) (t.pointerTo type).1 :=
      ⟨type, h.mono (growsTo_apply t .pointer [type]).keepsKinds, (interns_apply ..).kind_eq⟩
    rw [show pointers + (count + 1) = pointers + 1 + count by omega]
    exact ih hpointer

theorem get?_funs_addFun (h : owner.index < t.size) (name : String) (signature : Signature) :
    ((t.addFun owner name signature).get owner).funs.get? name = some signature := by
  rw [addFun, get_modify, if_pos ⟨rfl, h⟩]
  exact OrderedMap.get?_insert_self ..

end Types

namespace Infer
variable {setting : Setting} {walk : Step} {s s' s₁ s₂ : WalkState} {id owner : ExprId}

/-- Between the states, the expression has been found to denote a type for which the other stands,
behind pointers. -/
def Denotes (setting : Setting) (walk : Step) (id : ExprId) (pointers : Nat) (type : TypeId)
    (s s' : WalkState) : Prop :=
  ∃ m m' base, s.Onward m ∧ (denotedType walk id).Does setting m base m' ∧ m'.Onward s' ∧
    m'.program.types.isLibType base = true ∧ s'.program.types.Behind base pointers type

theorem Denotes.within {pointers : Nat} {type : TypeId}
    (h : Denotes setting walk id pointers type s₁ s₂) (h₁ : s.Onward s₁) (h₂ : s₂.Onward s')
    (hk : s₂.program.types.KeepsKinds s'.program.types) :
    Denotes setting walk id pointers type s s' := by
  obtain ⟨m, m', base, hm, hd, hm', hlib, hbehind⟩ := h
  exact ⟨m, m', base, h₁.trans hm, hd, hm'.trans h₂, hlib, hbehind.mono hk⟩

theorem does_check {α : Type} {c : Prop} [Decidable c] {id : ExprId} {problem : Problem}
    {f : PUnit → Infer α} {a : α}
    (hd : (if c then problemAt id problem >>= f else f ()).Does setting s a s') :
    ¬ c ∧ (f ()).Does setting s a s' := by
  split at hd
  · obtain ⟨_, _, hproblem, -⟩ := does_bind.mp hd
    cases hproblem
  · exact ⟨‹_›, hd⟩

theorem does_externalType (hw : Walks setting walk) (hs : Ready none s) (hid : s.Has id)
    {pointers : Nat} {type : TypeId} (hd : (externalType walk id pointers).Does setting s type s') :
    Denotes setting walk id pointers type s s' := by
  obtain ⟨base, m, hdenoted, hrest⟩ := does_bind.mp hd
  have hgoes : Runnable setting none s (denotedType walk id) := runnable_denotedType hw hs hid
  rw [does_bind_of_ok outcome_types] at hrest
  obtain ⟨hlib, hpointers⟩ := does_check hrest
  have hwrap : Runnable setting none m (updateTypes fun t => t.pointersTo base pointers) :=
    runnable_updateTypes (Types.acts_pointersTo ..)
  refine ⟨s, m, base, .refl, hdenoted, .of_goes hwrap hpointers, by simpa using hlib, ?_⟩
  rw [Does, outcome_updateTypes] at hpointers
  cases hpointers
  have hbase : m.program.types.Behind base 0 base := rfl
  have hbehind := Types.behind_pointersTo pointers hbase
  rwa [Nat.zero_add] at hbehind

/-- Argument by argument. -/
theorem does_externalTypes (hw : Walks setting walk) {args : List (Field ExprId)}
    {types : List TypeId} (hs : Ready none s) (hargs : ∀ arg ∈ args, s.Has arg.type)
    (hd : (args.mapM fun arg => externalType walk arg.type arg.pointers).Does setting s types s') :
    List.Forall₂
      (fun arg type => Denotes setting walk arg.type arg.pointers type s s') args types := by
  induction args generalizing s types with
  | nil =>
    obtain ⟨rfl, -⟩ := does_pure.mp hd
    exact .nil
  | cons arg args ih =>
    rw [List.mapM_cons] at hd
    obtain ⟨type, m, hfirst, hd⟩ := does_bind.mp hd
    obtain ⟨rest, m', hrest, hd⟩ := does_bind.mp hd
    obtain ⟨rfl, rfl⟩ := does_pure.mp hd
    have hgoes := runnable_externalType hw hs (hargs arg (by simp)) arg.pointers
    obtain ⟨hl, hm⟩ := (hgoes.does hfirst).1.ready hs
    have hmore : ∀ other ∈ args, m.Has other.type :=
      fun other ho => hl.has (hargs other (List.mem_cons_of_mem _ ho))
    have hgoes' := runnable_mapM args hm fun other ho m₁ hl₁ hm₁ =>
      runnable_externalType hw hm₁ (hl₁.has (hmore other ho)) other.pointers
    obtain ⟨hl', -⟩ := (hgoes'.does hrest).1.ready hm
    refine .cons ((does_externalType hw hs (hargs arg (by simp)) hfirst).within .refl
      (.of_goes hgoes' hrest) hl'.program.kinds) ?_
    exact (ih hm hmore hrest).imp fun _ _ h => h.within (.of_goes hgoes hfirst) .refl (.refl _)

/-! ### Declarations -/

/-- The signature that the declaration of a function describes. -/
def declaredSignature (walk : Step) (realName : String) (args : List (Field ExprId))
    (returnType : Option ExprId) (varargs : Bool) : Infer Signature := do
  let argTypes ← args.mapM fun arg => externalType walk arg.type arg.pointers
  let result ← match returnType with
    | some type => externalType walk type 0
    | none => pure .nil
  return { realName, args := argTypes, returnType := result, varargs }

/-- A function gets a signature, unless it has another one. -/
def declareFun (id : ExprId) (owner : TypeId) (name : String) (signature : Signature) :
    Infer Unit := do
  let t ← types
  match (t.get owner).funs.get? name with
  | some previous =>
    if previous ≠ signature then problemAt id (.funRedefinition (signatureText t name previous))
  | none => pure ()
  modifyProgram fun p => p.modifyTypes fun t => t.addFun owner name signature
  giveType id .nil

theorem walkFunDef_eq (id : ExprId) (name realName : String) (args : List (Field ExprId))
    (returnType : Option ExprId)
    (varargs : Bool) : walkFunDef walk id name realName args returnType varargs = (do
      let owner ← innermostType
      let signature ← declaredSignature walk realName args returnType varargs
      declareFun id owner name signature) := by
  unfold walkFunDef declaredSignature
  cases returnType <;> simp only [bind_assoc, pure_bind] <;> rfl

/-- What a declaration says, with what has been found out between the states. -/
structure Describes (setting : Setting) (walk : Step) (realName : String)
    (args : List (Field ExprId))
    (returnType : Option ExprId) (varargs : Bool) (signature : Signature) (s s' : WalkState) :
    Prop where
  realName : signature.realName = realName
  varargs : signature.varargs = varargs
  args : List.Forall₂
    (fun arg type => Denotes setting walk arg.type arg.pointers type s s') args signature.args
  nil : returnType = none → signature.returnType = .nil
  result : ∀ id, returnType = some id → Denotes setting walk id 0 signature.returnType s s'

section
variable {realName : String} {args : List (Field ExprId)}
  {returnType : Option ExprId} {varargs : Bool}
  {signature : Signature} {owner : TypeId} {name : String}

theorem Describes.within
    (h : Describes setting walk realName args returnType varargs signature s₁ s₂) (h₁ : s.Onward s₁)
    (h₂ : s₂.Onward s') (hk : s₂.program.types.KeepsKinds s'.program.types) :
    Describes setting walk realName args returnType varargs signature s s' where
  realName := h.realName
  varargs := h.varargs
  args := h.args.imp fun _ _ hd => hd.within h₁ h₂ hk
  nil := h.nil
  result id hid := (h.result id hid).within h₁ h₂ hk

theorem runnable_declaredSignature (hw : Walks setting walk) (hs : Ready none s)
    (hargs : ∀ arg ∈ args, s.Has arg.type) (hreturn : ∀ i ∈ returnType, s.Has i) (realName : String)
    (varargs : Bool) :
    Runnable setting none s (declaredSignature walk realName args returnType varargs) := by
  refine (runnable_mapM args hs fun arg ha s' hl hs' =>
    runnable_externalType hw hs' (hl.has (hargs arg ha)) arg.pointers).bind hs
      fun argTypes s₁ hl₁ hs₁ _ => ?_
  cases returnType with
  | none => exact (runnable_pure _).bind hs₁ fun _ _ _ _ _ => runnable_pure _
  | some i =>
    exact (runnable_externalType hw hs₁ (hl₁.has (hreturn i rfl)) 0).bind hs₁ fun _ _ _ _ _ =>
      runnable_pure _

theorem does_declaredSignature (hw : Walks setting walk) (hs : Ready none s)
    (hargs : ∀ arg ∈ args, s.Has arg.type) (hreturn : ∀ i ∈ returnType, s.Has i)
    (hd : (declaredSignature walk realName args returnType varargs).Does setting s signature s') :
    Describes setting walk realName args returnType varargs signature s s' := by
  obtain ⟨types, m, htypes, hd⟩ := does_bind.mp hd
  have hgoes :
      Runnable setting none s (args.mapM fun arg => externalType walk arg.type arg.pointers) :=
    runnable_mapM args hs fun arg ha s' hl hs' => runnable_externalType hw hs'
      (hl.has (hargs arg ha)) arg.pointers
  obtain ⟨hl, hm⟩ := (hgoes.does htypes).1.ready hs
  have hforall := does_externalTypes hw hs hargs htypes
  have hsame : ∀ i, returnType = some i → m.Has i := fun i hi => hl.has (hreturn i hi)
  cases returnType with
  | none =>
    obtain ⟨rfl, rfl⟩ := does_pure.mp hd
    exact ⟨rfl, rfl, hforall, fun _ => rfl, nofun⟩
  | some i =>
    obtain ⟨result, m', hresult, hd⟩ := does_bind.mp hd
    obtain ⟨rfl, rfl⟩ := does_pure.mp hd
    have hgoes' := runnable_externalType hw hm (hsame i rfl) 0
    obtain ⟨hl', -⟩ := (hgoes'.does hresult).1.ready hm
    have hdenotes :=
      (does_externalType hw hm (hsame i rfl) hresult).within (.of_goes hgoes htypes) .refl (.refl _)
    refine ⟨rfl, rfl, hforall.imp fun _ _ h =>
      h.within .refl (.of_goes hgoes' hresult) hl'.program.kinds, nofun, ?_⟩
    exact fun other hother => Option.some.inj hother ▸ hdenotes

/-- The state after a function has got its signature. -/
def withSignature (s : WalkState) (owner : TypeId) (name : String) (signature : Signature) :
    WalkState :=
  s.withProgram (s.program.modifyTypes fun t => t.addFun owner name signature)

/-- A declaration goes through exactly if the function has no other signature, as far as it is up to
it. -/
theorem declareFun_iff {id : ExprId} : (declareFun id owner name signature).Does setting s () s' ↔
    (∀ previous, (s.program.types.get owner).funs.get? name = some previous →
      previous = signature) ∧
      (giveType id .nil).Does setting (withSignature s owner name signature) () s' := by
  have hadd :
      ((modifyProgram fun p => p.modifyTypes fun t => t.addFun owner name signature) >>= fun _ =>
      giveType id .nil).Does setting s () s' ↔
        (giveType id .nil).Does setting (withSignature s owner name signature) () s' :=
    does_bind_of_ok (outcome_modifyProgram _)
  unfold declareFun
  rw [does_bind_of_ok outcome_types]
  split
  · rename_i previous hprevious
    constructor
    · intro hd
      obtain ⟨hsame, hd⟩ := does_check hd
      exact ⟨fun other hother => Option.some.inj (hother.symm.trans hprevious) ▸
        not_not.mp hsame, hadd.mp hd⟩
    · rintro ⟨hsame, hd⟩
      rw [if_neg (not_not.mpr (hsame previous hprevious))]
      exact hadd.mpr hd
  · rename_i hnone
    refine hadd.trans ⟨fun hd => ⟨fun other hother => ?_, hd⟩, And.right⟩
    rw [hnone] at hother
    cases hother

theorem composed_declaredSignature {fuel : Nat}
    (hw : ∀ id s, Composed setting s (Infer.walk fuel id)) (realName : String)
    (args : List (Field ExprId)) (returnType : Option ExprId) (varargs : Bool) :
    Composed setting s (declaredSignature (Infer.walk fuel) realName args returnType varargs) := by
  refine (composed_mapM args fun arg s => composed_externalType hw arg.type arg.pointers).bind
    fun _ _ _ => ?_
  cases returnType with
  | none => exact .pure _ _
  | some type => exact (composed_externalType hw type 0).bind fun _ _ _ => .pure _ _

end

end Infer

namespace WalkState.Running
open Infer
variable {setting : Setting} {m m' : WalkState} {L : List Duty} {id : ExprId}
  {name realName : String}
  {args : List (Field ExprId)} {returnType : Option ExprId} {pointers : Nat} {varargs : Bool}

/-- When a declaration has been walked, the function has the signature that is described, and had no
other before. -/
theorem recordsFun (h : m.Running (.whole id :: L)) (htidy : setting.tools.Tidy) {fuel : Nat}
    (hc : m.program.construct id = .funDef name realName args returnType pointers varargs)
    (hd : (Infer.walk (fuel + 1) id).Does setting m () m') :
    ∃ signature, Describes setting (Infer.walk fuel) realName args returnType
        varargs signature m m' ∧
      (∀ previous, (m.program.types.get m.frame.innermostType).funs.get? name = some previous →
        previous = signature) ∧
      (m'.program.types.get m.frame.innermostType).funs.get? name = some signature := by
  have hw := walks_walk htidy fuel
  have hready := h.reached.ready
  have hparts := hready.parts hc
  have hargs : ∀ arg ∈ args, m.Has arg.type := fun arg ha =>
    hparts _ (List.mem_append_left _ (List.mem_map_of_mem ha))
  have hreturn : ∀ i ∈ returnType, m.Has i := fun i hi =>
    hparts i (List.mem_append_right _ (Option.mem_toList.mpr hi))
  obtain ⟨m₁, hconstruct, hresolve⟩ := does_walk_succ hd
  rw [hc] at hconstruct
  have hid : m.Has id := has_of_construct hc (by simp)
  have hrun₁ := ((runnable_walkConstruct hw htidy hready hid hc).does hconstruct).1
  have hgoes₂ : Runnable setting none m₁ _ := runnable_resolvePending hw (hrun₁.ready hready).2 fuel
  rw [walkConstruct, walkFunDef_eq, does_bind_of_ok outcome_innermostType] at hconstruct
  obtain ⟨signature, s₁, hsignature, hdeclare⟩ := does_bind.mp hconstruct
  obtain ⟨hsame, hgive⟩ := declareFun_iff.mp hdeclare
  -- the run
  have hgoes := runnable_declaredSignature hw hready hargs hreturn realName varargs
  obtain ⟨hl₁, hs₁⟩ := (hgoes.does hsignature).1.ready hready
  have hadd : Runs setting none true s₁ (withSignature s₁ m.frame.innermostType name signature) :=
    .act (.types (.addFun ..))
  obtain ⟨hl₂, -⟩ := hadd.ready hs₁
  have hgoes₁ : Runnable setting none (withSignature s₁ m.frame.innermostType name signature)
      (giveType id .nil) :=
    runnable_giveType (hl₂.has (hl₁.has hid)) .nil
  have honward : s₁.Onward m' :=
    ((Onward.refl.runs hadd).trans (.of_goes hgoes₁ hgive)).trans (.of_goes hgoes₂ hresolve)
  have hlater := (honward.sound hs₁.sound).1
  -- what names stand for
  have hnames :=
    (composed_declaredSignature (s := m) (composed_walk fuel) realName args returnType
      varargs).relates htidy
    relates_keepsNames
  have hgives : Composed setting (withSignature s₁ m.frame.innermostType name signature)
      (giveType id .nil) :=
    composed_giveType ..
  have hnames₁ := hgives.relates htidy relates_keepsNames
  have hnames₂ :=
    (composed_resolvePending (s := m₁) (composed_walk fuel) fuel).relates htidy relates_keepsNames
  rw [show (declaredSignature (Infer.walk fuel) realName args returnType varargs).outcome setting
    m = _ from hsignature]
    at hnames
  rw [show (giveType id .nil).outcome setting _ = _ from hgive] at hnames₁
  rw [show (resolvePending (Infer.walk fuel) fuel).outcome setting m₁ = _ from hresolve] at hnames₂
  have howner : m.frame.innermostType.index < s₁.program.types.size :=
    hl₁.program.kinds.lt h.intact.innermostType_lt
  refine ⟨signature, ?_, fun previous hprevious =>
    hsame previous (hnames.signature _ _ _ hprevious), ?_⟩
  · exact (does_declaredSignature hw hready hargs hreturn hsignature).within .refl honward
      hlater.program.kinds
  · exact hnames₂.signature _ _ _
      (hnames₁.signature _ _ _ (Types.get?_funs_addFun howner name signature))

end WalkState.Running

end TypeFlow
