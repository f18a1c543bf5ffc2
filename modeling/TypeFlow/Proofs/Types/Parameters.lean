import Mathlib.Data.List.Nodup
import TypeFlow.Proofs.Types.Scopes
import TypeFlow.Proofs.Types.Searches

/-!
# Type parameters behind chains of inclusions

A `Chain` leads from a class through generic modules, each inclusion binding the parameters of its
module to types or to parameters of the includer. `composed` reads a parameter of the last module
back along the chain, down to the arguments of the class. The search for methods follows the chain
to its end, but the search for a name goes through one inclusion only: behind the first module a
parameter means what the name means outside the class (`resolvePath_parameter`).
-/

namespace TypeFlow

/-- What a parameter of the module stands for, given what those of the includer do. -/
def Inclusion.valueOf (i : Inclusion) (own : String → Option TypeId) (name : String) :
    Option TypeId :=
  match i.binding? name with
  | some (.type id) => some id
  | some (.param param) => own param
  | none => none

namespace Types
variable {t : Types} {a m owner scope : TypeId} {own : String → Option TypeId} {i : Inclusion}
  {chain rest inclusions : List Inclusion} {args : List TypeId} {name : String}

def parameters (t : Types) (id : TypeId) : List String := (t.typeVars id).getD []

/-- An inclusion that binds what its module has as parameters, to types or to parameters of the
includer. -/
structure Link (t : Types) (a : TypeId) (i : Inclusion) : Prop where
  included : i ∈ (t.get a).includes
  binds : ∀ name, (i.binding? name).isSome ↔ name ∈ t.parameters i.module
  forwards : ∀ name param, i.binding? name = some (.param param) → param ∈ t.parameters a

/-- Inclusions that lead from one type to another. -/
inductive Chain (t : Types) : TypeId → List Inclusion → TypeId → Prop where
  | here (a : TypeId) : Chain t a [] a
  | link {a m : TypeId} {i : Inclusion} {rest : List Inclusion} :
      t.Link a i → Chain t i.module rest m → Chain t a (i :: rest) m

/-- What a parameter at the end of a chain stands for, given what those of the first includer do. -/
def composed (own : String → Option TypeId) : List Inclusion → String → Option TypeId
  | [] => own
  | i :: rest => composed (i.valueOf own) rest

/-- The argument in the place of a parameter. -/
def argument (t : Types) (owner : TypeId) (args : List TypeId) (name : String) : Option TypeId :=
  ((t.parameters owner).idxOf? name).bind fun i => args[i]?

/-- A class without parameters, or an instance of one that has them, with what they stand for
there. -/
inductive Scope (t : Types) (owner : TypeId) : TypeId → (String → Option TypeId) → Prop where
  | itself {head : ClassHead} : t.kind owner = .classType head → t.parameters owner = [] →
      Scope t owner owner fun _ => none
  | instance {scope : TypeId} {args : List TypeId} : t.kind scope = .applied owner args →
      (t.parameters owner).length = args.length → Scope t owner scope (t.argument owner args)

/-- What a name means where the class does not give it a meaning: in the superclass, else in the
container. -/
def outside (t : Types) (owner : TypeId) (name : String) : Option Named :=
  ((t.superclass owner).bind (t.member? · name)).or ((t.containerOf owner).bind (t.visible? · name))

/-! ### The composed value -/

theorem isSome_argument (hlength : (t.parameters owner).length = args.length)
    (hname : name ∈ t.parameters owner) : (t.argument owner args name).isSome := by
  obtain ⟨i, hi⟩ := Option.isSome_iff_exists.mp (List.isSome_idxOf?.mpr hname)
  have hlt := (List.idxOf?_eq_some_iff.mp hi).1
  rw [argument, hi, Option.bind_some, List.getElem?_eq_getElem (hlength ▸ hlt)]
  rfl

theorem Scope.isSome (h : t.Scope owner scope own) :
    ∀ name ∈ t.parameters owner, (own name).isSome := by
  cases h with
  | itself _ hnone => rw [hnone]; nofun
  | «instance» _ hlength => exact fun _ => isSome_argument hlength

theorem Scope.lt (h : t.Scope owner scope own) : scope.index < t.size := by
  cases h with
  | itself hk => exact Founded.lt_of_kind_ne (by rw [hk]; nofun)
  | «instance» hk => exact Founded.lt_of_kind_ne (by rw [hk]; nofun)

theorem Link.isSome_valueOf (h : t.Link a i) (hown : ∀ name ∈ t.parameters a, (own name).isSome)
    (hname : name ∈ t.parameters i.module) : (i.valueOf own name).isSome := by
  obtain ⟨value, hvalue⟩ := Option.isSome_iff_exists.mp ((h.binds name).mpr hname)
  cases value with
  | type id => rw [Inclusion.valueOf, hvalue]; rfl
  | param param => rw [Inclusion.valueOf, hvalue]; exact hown param (h.forwards name param hvalue)

/-- Every parameter at the end of a chain stands for a type. -/
theorem Chain.isSome_composed (h : t.Chain a chain m)
    (hown : ∀ name ∈ t.parameters a, (own name).isSome) :
    ∀ name ∈ t.parameters m, (composed own chain name).isSome := by
  induction h generalizing own with
  | here => exact hown
  | link hlink _ ih => exact ih fun _ => hlink.isSome_valueOf hown

/-! ### Methods -/

theorem Link.mem_methodSources (h : t.Link a i) (ha : t.isMetaclass a = false)
    (happlied : ∀ generic args, t.kind a ≠ .applied generic args) :
    i.module ∈ t.methodSources a := by
  unfold methodSources
  split
  · exact absurd ‹_› (happlied _ _)
  · rename_i hk
    rw [isMetaclass, hk] at ha; cases ha
  · exact List.mem_append_left _ (List.mem_map_of_mem (List.mem_reverse.mpr h.included))

theorem Link.mem_methodSources_of_isModule (h : t.Link a i) (ha : t.isModule a = true) :
    i.module ∈ t.methodSources a := by
  refine h.mem_methodSources ?_ fun generic args hk => by rw [isModule, hk] at ha; cases ha
  unfold isModule at ha
  split at ha
  · rename_i hk
    rw [isMetaclass, hk]
  · cases ha

/-- From a module the search for methods follows every chain to its end. -/
theorem Chain.searches (hf : t.Founded) (h : t.Chain a chain m) (ha : t.isModule a = true) :
    t.Searches a m := by
  induction h with
  | here => exact .refl
  | link hlink _ ih =>
    exact .head (hlink.mem_methodSources_of_isModule ha)
      (ih (hf.hierarchy.modules _ _ hlink.included))

theorem Founded.searches_of_chain (hf : t.Founded) (hscope : t.Scope owner scope own)
    (h : t.Chain owner (i :: rest) m) : t.Searches scope m := by
  have hclass : ∃ head, t.kind owner = .classType head := by
    cases hscope with
    | itself hk => exact ⟨_, hk⟩
    | «instance» hk => exact hf.hierarchy.generic _ _ _ hk
  obtain ⟨head, hclass⟩ := hclass
  cases h with
  | link hlink hrest =>
    have howner : t.Searches owner m := by
      refine .head (hlink.mem_methodSources ?_ ?_)
        (hrest.searches hf (hf.hierarchy.modules _ _ hlink.included))
      · rw [isMetaclass, hclass]
      · rw [hclass]
        exact fun _ _ h => by cases h
    cases hscope with
    | itself => exact howner
    | «instance» hk =>
      exact .head (by rw [methodSources, hk]; exact List.mem_singleton_self owner) howner

/-- A search finds a method under the key of any that it comes to. -/
theorem Searchable.isSome_findMethod (hs : t.Searchable) {key : MethodKey} (ha : a.index < t.size)
    (h : t.Searches a m) (hkey : (t.get m).defs.contains key) : (t.findMethod a key).isSome := by
  induction h using Relation.ReflTransGen.head_induction_on with
  | refl =>
    rw [findMethod, hs.findIn_eq _ _ ha, Option.isSome_or]
    exact Bool.or_eq_true_iff.mpr (.inl hkey)
  | head hstep _ ih =>
    have hfound := ih (hs.toFounded.source_lt hstep)
    rw [findMethod, hs.findIn_eq _ _ ha, Option.isSome_or]
    exact Bool.or_eq_true_iff.mpr (.inr (List.findSome?_isSome_iff.mpr ⟨_, hstep, hfound⟩))

/-! ### Names -/

theorem argumentFor_eq_go (args : List TypeId) (hown : name ∉ t.parameters owner) :
    t.argumentFor owner args name =
      argumentFor.go name (t.parameters owner) (t.argument owner args)
        (t.get owner).includes.reverse :=
  if_neg hown

/-- Inclusions that do not bind the name decide nothing. -/
theorem argumentFor_go_eq_none {argOf : String → Option TypeId} {vars : List String}
    (h : ∀ j ∈ inclusions, j.binding? name = none) :
    argumentFor.go name vars argOf inclusions = none := by
  induction inclusions with
  | nil => rfl
  | cons j rest ih =>
    rw [argumentFor.go, h j List.mem_cons_self]
    exact ih fun k hk => h k (List.mem_cons_of_mem j hk)

theorem boundType?_eq_none (h : ∀ j ∈ inclusions, j.binding? name = none) :
    boundType? inclusions name = none :=
  List.findSome?_eq_none_iff.mpr fun j hj => by rw [h j hj]

/-- The only inclusion that binds the name decides. -/
theorem argumentFor_go_eq_valueOf {argOf : String → Option TypeId} {vars : List String}
    (honly : ∀ j ∈ inclusions, (j.binding? name).isSome → j = i) (hi : i ∈ inclusions)
    (hbinds : (i.binding? name).isSome)
    (hforwards : ∀ param, i.binding? name = some (.param param) → param ∈ vars) :
    argumentFor.go name vars argOf inclusions = i.valueOf argOf name := by
  induction inclusions with
  | nil => cases hi
  | cons j rest ih =>
    rw [argumentFor.go]
    cases hj : j.binding? name with
    | none =>
      have hne : i ≠ j := fun heq => by rw [heq, hj] at hbinds; cases hbinds
      exact ih (fun k hk => honly k (List.mem_cons_of_mem j hk)) (List.mem_of_ne_of_mem hne hi)
    | some value =>
      obtain rfl := honly j List.mem_cons_self (by rw [hj]; rfl)
      cases value with
      | type id => simp only [Inclusion.valueOf, hj]
      | param param => simp only [Inclusion.valueOf, hj, if_pos (hforwards param hj)]

theorem boundType?_eq_some {id : TypeId}
    (honly : ∀ j ∈ inclusions, (j.binding? name).isSome → j = i) (hi : i ∈ inclusions)
    (hbinds : i.binding? name = some (.type id)) :
    boundType? inclusions name = some id := by
  have hsome : (boundType? inclusions name).isSome :=
    List.findSome?_isSome_iff.mpr ⟨i, hi, by rw [hbinds]; rfl⟩
  obtain ⟨bound, hbound⟩ := Option.isSome_iff_exists.mp hsome
  obtain ⟨j, hj, hvalue⟩ := List.exists_of_findSome?_eq_some hbound
  cases hbinding : j.binding? name with
  | none => rw [hbinding] at hvalue; cases hvalue
  | some value =>
    obtain rfl := honly j hj (by rw [hbinding]; rfl)
    rw [hbinds] at hvalue
    rw [hbound, ← hvalue]

/-- A class that gives the name no meaning passes the search on to its superclass. -/
theorem Founded.member?_class (hf : t.Founded) {head : ClassHead}
    (hk : t.kind owner = .classType head) (hundeclared : (t.get owner).types.get? name = none) :
    t.member? owner name = ((boundType? (t.get owner).includes.reverse name).map Named.type).or
      ((t.superclass owner).bind (t.member? · name)) := by
  cases hbound : boundType? (t.get owner).includes.reverse name with
  | some bound =>
    rw [hf.member?_eq_within (lt_of_kind_ne (by rw [hk]; nofun)), memberWithin, hk]
    simp only [hundeclared, hbound]
    rfl
  | none =>
    cases hs : t.superclass owner with
    | some parent => rw [hf.member?_superclass hk hundeclared hbound hs]; rfl
    | none =>
      rw [hf.member?_eq_within (lt_of_kind_ne (by rw [hk]; nofun)), memberWithin, hk]
      simp only [hundeclared, hbound, hs]
      rfl

section
variable (hf : t.Founded) (hscope : t.Scope owner scope own)
  (hundeclared : (t.get owner).types.get? name = none)
  (hown : name ∉ t.parameters owner)
include hf hscope hundeclared hown

/-- Behind one inclusion a parameter means what it stands for. -/
theorem Founded.member?_of_link (hlink : t.Link owner i) (hname : name ∈ t.parameters i.module)
    (honly : ∀ j ∈ (t.get owner).includes, j ≠ i → j.binding? name = none) :
    t.member? scope name = (i.valueOf own name).map Named.type := by
  have hi := List.mem_reverse.mpr hlink.included
  have hbinds := (hlink.binds name).mpr hname
  have honly : ∀ j ∈ (t.get owner).includes.reverse,
      (j.binding? name).isSome → j = i := fun j hj hsome => by
    by_contra hne
    rw [honly j (List.mem_reverse.mp hj) hne] at hsome; cases hsome
  cases hscope with
  | itself hk hnone =>
    obtain ⟨value, hvalue⟩ := Option.isSome_iff_exists.mp hbinds
    cases value with
    | type id =>
      rw [hf.member?_class hk hundeclared, boundType?_eq_some honly hi hvalue,
        Inclusion.valueOf, hvalue]
      rfl
    | param param =>
      have hparam := hlink.forwards name param hvalue
      rw [hnone] at hparam; cases hparam
  | @«instance» scope args hk hlength =>
    have hbound : t.argumentFor owner args name = i.valueOf (t.argument owner args) name := by
      rw [argumentFor_eq_go args hown]
      exact argumentFor_go_eq_valueOf honly hi hbinds fun param => hlink.forwards name param
    obtain ⟨id, hid⟩ := Option.isSome_iff_exists.mp
      (hlink.isSome_valueOf (fun _ => isSome_argument hlength) hname)
    rw [hf.member?_eq_within (lt_of_kind_ne (by rw [hk]; nofun)), memberWithin, hk]
    simp only [hbound, hid]
    rfl

/-- A name that no inclusion binds means what it does in the superclass. -/
theorem Founded.member?_of_unbound (hnone : ∀ j ∈ (t.get owner).includes, j.binding? name = none) :
    t.member? scope name = (t.superclass owner).bind (t.member? · name) := by
  have hnone : ∀ j ∈ (t.get owner).includes.reverse, j.binding? name = none := fun j hj =>
    hnone j (List.mem_reverse.mp hj)
  have hclass : ∀ {head}, t.kind owner = .classType head →
      t.member? owner name = (t.superclass owner).bind (t.member? · name) := fun hk => by
    rw [hf.member?_class hk hundeclared, boundType?_eq_none hnone]; rfl
  cases hscope with
  | itself hk => exact hclass hk
  | «instance» hk =>
    obtain ⟨head, hgeneric⟩ := hf.hierarchy.generic _ _ _ hk
    rw [hf.member?_applied hk ((argumentFor_eq_go _ hown).trans (argumentFor_go_eq_none hnone)),
      hclass hgeneric]

end

theorem Founded.resolvePath_scope (hf : t.Founded) (hscope : t.Scope owner scope own)
    (name : String) :
    t.resolvePath scope [name] = (t.member? scope name).or
      ((t.containerOf owner).bind (t.visible? · name)) := by
  have hsees : t.visible? scope name =
      (t.member? scope name).or ((t.containerOf owner).bind (t.visible? · name)) := by
    rw [hf.visible?_eq_or hscope.lt]
    cases hscope with
    | itself => rfl
    | «instance» hk => rw [hf.containerOf_applied hk]
  rw [resolvePath, hsees]
  cases (t.member? scope name).or ((t.containerOf owner).bind (t.visible? · name)) with
  | none => rfl
  | some entry => cases entry <;> rfl

/-- The parameters of the last module are among those on the chain. -/
theorem Chain.mem_parameters (h : t.Chain i.module rest m) (hname : name ∈ t.parameters m) :
    name ∈ (i :: rest).flatMap (t.parameters ·.module) := by
  induction rest generalizing i with
  | nil => cases h with | here => simpa using hname
  | cons j rest ih => cases h with | link _ hrest => exact List.mem_append_right _ (ih hrest)

/-- All parameters on a chain have different names, and the class gives the name of this one no
other meaning. Then the search for methods comes to the last module and finds those that it defines
or others of their names, and along the chain the parameter stands for a type. But a name is looked
up through one inclusion only: behind more than one it means what it means outside the class. -/
theorem resolvePath_parameter (ht : Makings initial t) (hscope : t.Scope owner scope own)
    (hchain : t.Chain owner (i :: rest) m) (hname : name ∈ t.parameters m)
    (hdistinct : (t.parameters owner ++ (i :: rest).flatMap (t.parameters ·.module)).Nodup)
    (hundeclared : (t.get owner).types.get? name = none)
    (honly : ∀ j ∈ (t.get owner).includes, j ≠ i → j.binding? name = none) :
    ((∀ id, t.includes id id = false) → ∀ key, (t.get m).defs.contains key →
      (t.findMethod scope key).isSome) ∧
      (composed own (i :: rest) name).isSome ∧ t.resolvePath scope [name] =
        if rest = [] then (composed own [i] name).map Named.type else t.outside owner name := by
  have hf := ht.founded
  refine ⟨fun hacyclic key hkey => Searchable.isSome_findMethod ⟨hf, hacyclic⟩ hscope.lt
    (hf.searches_of_chain hscope hchain) hkey, hchain.isSome_composed hscope.isSome name hname, ?_⟩
  rw [hf.resolvePath_scope hscope]
  cases hchain with
  | link hlink hrest =>
    have hmem := hrest.mem_parameters (i := i) hname
    have hown : name ∉ t.parameters owner :=
      fun h => (List.nodup_append.mp hdistinct).2.2 name h name hmem rfl
    cases hrest with
    | here =>
      obtain ⟨id, hid⟩ := Option.isSome_iff_exists.mp (hlink.isSome_valueOf hscope.isSome hname)
      rw [hf.member?_of_link hscope hundeclared hown hlink hname honly, if_pos rfl,
        composed, composed, hid]
      rfl
    | @link _ _ j rest hnext hrest =>
      have hfirst : name ∉ t.parameters i.module := fun h =>
        (List.nodup_append.mp (List.nodup_append.mp hdistinct).2.1).2.2 name h name
          (hrest.mem_parameters (i := j) hname) rfl
      have hnone : ∀ k ∈ (t.get owner).includes, k.binding? name = none := fun k hk => by
        by_cases hki : k = i
        · rw [hki]
          exact Option.not_isSome_iff_eq_none.mp fun hsome => hfirst ((hlink.binds name).mp hsome)
        · exact honly k hk hki
      rw [hf.member?_of_unbound hscope hundeclared hown hnone, if_neg (List.cons_ne_nil j rest)]
      rfl

/-! ### Two inclusions -/

theorem link_of_singleton {module : TypeId} {param : String}
    (hi : .generic module (.singleton name (.param param)) ∈ (t.get a).includes)
    (hparams : t.parameters module = [name]) (hparam : param ∈ t.parameters a) :
    t.Link a (.generic module (.singleton name (.param param))) where
  included := hi
  binds other := by
    by_cases h : other = name <;>
      simp [Inclusion.binding?, Inclusion.module, OrderedMap.get?, OrderedMap.singleton,
        OrderedMap.lookupIn, hparams, h]
  forwards other bound hbound := by
    by_cases h : other = name <;>
      simp [Inclusion.binding?, OrderedMap.get?, OrderedMap.singleton,
        OrderedMap.lookupIn, h] at hbound
    exact hbound ▸ hparam

/-- The module `M2` of `P`. -/
def withInner : Types := (initial.declare .program "M2" (.moduleType (some ["P"]))).2

/-- The module `M1` of `Q`. -/
def withOuter : Types := (withInner.declare .program "M1" (.moduleType (some ["Q"]))).2

/-- `M1` includes `M2(Q)`. -/
def withModules : Types :=
  withOuter.includeModule ⟨25⟩ (.generic ⟨24⟩ (.singleton "P" (.param "Q")))

/-- The class `G` of `T`. -/
def withGeneric : Types :=
  (withModules.declare .program "G"
    (.classType { superclass := some .reference, typeVars := some ["T"] })).2

/-- `G` includes `M1(T)`. -/
def withInclusion : Types :=
  withGeneric.includeModule ⟨26⟩ (.generic ⟨25⟩ (.singleton "Q" (.param "T")))

/-- The instance `G(Char)`. -/
def forwarding : Types := (withInclusion.apply ⟨26⟩ [.char]).2

/-- An inclusion that only passes a parameter on speaks of no type but its module. -/
theorem making_includeModule_singleton {module : TypeId} {param : String}
    (hm : t.isModule module = true) :
    Making t (t.includeModule a (.generic module (.singleton name (.param param)))) :=
  .includeModule a hm fun other type h => by
    by_cases hother : other = name <;>
      simp [Inclusion.binding?, OrderedMap.get?, OrderedMap.singleton,
        OrderedMap.lookupIn, hother] at h

theorem makings_withModules : Makings initial withModules := by
  have hinner : Making initial withInner :=
    .declare "M2" (by decide +kernel) rfl (fun _ hm => absurd hm List.not_mem_nil)
      fun _ _ hk => by cases hk
  have houter : Making withInner withOuter :=
    .declare "M1" (by decide +kernel) rfl (fun _ hm => absurd hm List.not_mem_nil)
      fun _ _ hk => by cases hk
  have hmodules : Making withOuter withModules := making_includeModule_singleton (by decide +kernel)
  exact ((Relation.ReflTransGen.single hinner).tail houter).tail hmodules

theorem applyGeneric_withInclusion :
    withInclusion.applyGeneric ⟨26⟩ [.char] = .ok (withInclusion.apply ⟨26⟩ [.char]) := by
  have hk : withInclusion.kind ⟨26⟩ = .classType
      { superclass := some .reference, typeVars := some ["T"] } := by
    decide +kernel
  simp [applyGeneric, hk]

theorem makings_forwarding : Makings initial forwarding := by
  have hgeneric : Making withModules withGeneric :=
    .declare "G" (by decide +kernel) rfl (by decide +kernel) fun _ _ hk hs => by
      cases hk; cases hs; decide +kernel
  have hinclusion : Making withGeneric withInclusion :=
    making_includeModule_singleton (by decide +kernel)
  have hinstance : Making withInclusion forwarding :=
    .applyGeneric (by decide +kernel) applyGeneric_withInclusion
  exact ((makings_withModules.tail hgeneric).tail hinclusion).tail hinstance

theorem scope_forwarding : forwarding.Scope ⟨26⟩ ⟨27⟩ (forwarding.argument ⟨26⟩ [.char]) :=
  .instance (by decide +kernel) (by decide +kernel)

theorem link_forwarding : forwarding.Link ⟨26⟩ (.generic ⟨25⟩ (.singleton "Q" (.param "T"))) :=
  link_of_singleton (by decide +kernel) (by decide +kernel) (by decide +kernel)

/-- `Q` in an instance of a class that includes `M1` directly. -/
theorem resolvePath_parameter_forwarding : Makings initial forwarding ∧
    forwarding.Scope ⟨26⟩ ⟨27⟩ (forwarding.argument ⟨26⟩ [.char]) ∧
    forwarding.Chain ⟨26⟩ [.generic ⟨25⟩ (.singleton "Q" (.param "T"))] ⟨25⟩ ∧
    forwarding.resolvePath ⟨27⟩ ["Q"] = some (.type .char) := by
  have hchain : forwarding.Chain ⟨26⟩ [.generic ⟨25⟩ (.singleton "Q" (.param "T"))] ⟨25⟩ :=
    .link link_forwarding (.here _)
  refine ⟨makings_forwarding, scope_forwarding, hchain, ?_⟩
  have hname : "Q" ∈ forwarding.parameters ⟨25⟩ := by decide +kernel
  obtain ⟨-, -, h⟩ :=
    resolvePath_parameter makings_forwarding scope_forwarding hchain hname (by decide +kernel)
    (by decide +kernel) (by decide +kernel)
  rw [h]
  decide +kernel

/-- In an instance of `G` the parameter of `M2` stands for `Char`, but its name means nothing. -/
theorem not_resolvePath_composed : ¬ ∀ t, Makings initial t → ∀ owner scope own chain m name,
    t.Scope owner scope own → t.Chain owner chain m → chain ≠ [] → name ∈ t.parameters m →
      (t.parameters owner ++ chain.flatMap (t.parameters ·.module)).Nodup →
      (∀ param ∈ t.parameters owner ++ chain.flatMap (t.parameters ·.module),
        ∀ entry ∈ t.entries.toList, entry.types.get? param = none) →
      t.resolvePath scope [name] = (composed own chain name).map Named.type := fun h => by
  have hchain : forwarding.Chain ⟨26⟩ [.generic ⟨25⟩ (.singleton "Q" (.param "T")),
      .generic ⟨24⟩ (.singleton "P" (.param "Q"))] ⟨24⟩ :=
    .link link_forwarding
      (.link (link_of_singleton (by decide +kernel) (by decide +kernel) (by decide +kernel))
        (.here _))
  exact absurd (h forwarding makings_forwarding ⟨26⟩ ⟨27⟩ _ _
    ⟨24⟩ "P" scope_forwarding hchain (by decide)
    (by decide +kernel) (by decide +kernel) (by decide +kernel)) (by decide +kernel)

end Types

end TypeFlow
