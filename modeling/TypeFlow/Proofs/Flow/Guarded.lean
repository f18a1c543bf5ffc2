import TypeFlow.Guard.Basic
import TypeFlow.Proofs.Flow.Derived
import TypeFlow.Proofs.Types.Whole

/-!
# What guards compare with

Guards are made of comparisons with types of the table, and so are the narrowings that come of them.
-/

namespace TypeFlow

namespace OrderedMap
variable {κ ν : Type} [DecidableEq κ] {k : κ} {v : ν}

theorem mem_values_erase {m : OrderedMap κ ν} (h : v ∈ (m.erase k).values) : v ∈ m.values := by
  obtain ⟨es⟩ := m
  obtain ⟨e, he, rfl⟩ := List.mem_map.mp h
  exact List.mem_map_of_mem (List.mem_of_mem_filter he)

end OrderedMap

namespace Narrowing
variable {f g : Narrowing} {size : Nat}

def Within (f : Narrowing) (size : Nat) : Prop := ∀ target ∈ f.targets, target.index < size

theorem targetsAll_append (fs gs : List Narrowing) :
    targetsAll (fs ++ gs) = targetsAll fs ++ targetsAll gs := by
  induction fs with
  | nil => rfl
  | cons f fs ih => rw [List.cons_append, targetsAll, targetsAll, ih, List.append_assoc]

theorem targetsAll_conjuncts (f : Narrowing) : targetsAll f.conjuncts = f.targets := by
  cases f with
  | all parts => rfl
  | notNil | isA => rfl

theorem Within.conj (hf : f.Within size) (hg : g.Within size) : (f.conj g).Within size := by
  unfold Narrowing.conj
  split
  · exact hf
  · intro target h
    rw [targets, targetsAll_append, targetsAll_conjuncts, targetsAll_conjuncts] at h
    exact (List.mem_append.mp h).elim (hf target) (hg target)

end Narrowing

namespace Guard
variable {guard left right : Guard} {o o' : Option Guard} {name : String}
  {f : Narrowing} {size size' : Nat}

def Within (guard : Guard) (size : Nat) : Prop := ∀ f ∈ guard.values, f.Within size

theorem Within.mono (h : guard.Within size) (hle : size ≤ size') : guard.Within size' :=
  fun f hf target ht => Nat.lt_of_lt_of_le (h f hf target ht) hle

theorem within_singleton (name : String) (hf : f.Within size) :
    Within (.singleton name f) size := fun g hg => by
  obtain rfl := List.mem_singleton.mp hg
  exact hf

theorem within_notNil (name : String) : (notNil name).Within size :=
  within_singleton name fun _ h => nomatch h

theorem Within.add (h : guard.Within size) (name : String) (hf : f.Within size) :
    (guard.add name f).Within size := by
  intro g hg
  unfold Guard.add at hg
  split at hg
  · rename_i old hold
    rcases OrderedMap.mem_values_insert hg with rfl | hg
    · exact (h old (OrderedMap.mem_values_of_get? hold)).conj hf
    · exact h g (OrderedMap.mem_values_erase hg)
  · rcases OrderedMap.mem_values_insert hg with rfl | hg
    · exact hf
    · exact h g hg

theorem Within.addEach (es : List (String × Narrowing)) (h : guard.Within size)
    (hes : ∀ e ∈ es, e.2.Within size) :
    (es.foldl (fun guard (e : String × Narrowing) => guard.add e.1 e.2) guard).Within size := by
  induction es generalizing guard with
  | nil => exact h
  | cons e es ih =>
    obtain ⟨he, hes⟩ := List.forall_mem_cons.mp hes
    exact ih (h.add e.1 he) hes

theorem within_both (ho : ∀ guard ∈ o, guard.Within size) (ho' : ∀ guard ∈ o', guard.Within size) :
    ∀ guard ∈ both o o', guard.Within size := by
  intro guard hguard
  rcases o with _ | left
  · exact ho' guard hguard
  · rcases o' with _ | right
    · exact ho guard hguard
    · cases hguard
      exact (ho left rfl).addEach _ fun e he => ho' right rfl e.2 (List.mem_map_of_mem he)

end Guard

namespace GuardStack
variable {stack : GuardStack} {guard : Guard} {size size' : Nat}

def Within (stack : GuardStack) (size : Nat) : Prop := ∀ guard ∈ stack.frames, guard.Within size

theorem Within.mono (h : stack.Within size) (hle : size ≤ size') : stack.Within size' :=
  fun guard hg => (h guard hg).mono hle

theorem within_initial (size : Nat) : initial.Within size := fun guard hg f hf => by
  rw [List.mem_singleton.mp hg] at hf
  cases hf

theorem Within.push (h : stack.Within size) (hg : guard.Within size) :
    (stack.push guard).Within size :=
  List.forall_mem_cons.mpr ⟨hg, h⟩

theorem Within.pop (h : stack.Within size) : stack.pop.Within size :=
  fun guard hg => h guard (List.mem_of_mem_tail hg)

theorem Within.assume (h : stack.Within size) (hg : guard.Within size) :
    (stack.assume guard).Within size := by
  obtain ⟨frames⟩ := stack
  cases frames with
  | nil => exact List.forall_mem_singleton.mpr hg
  | cons top rest =>
    obtain ⟨htop, hrest⟩ := List.forall_mem_cons.mp h
    have hboth : ∀ g ∈ Guard.both (some top) (some guard), g.Within size :=
      Guard.within_both (fun _ h => by cases h; exact htop) fun _ h => by cases h; exact hg
    exact List.forall_mem_cons.mpr ⟨hboth _ rfl, hrest⟩

/-- What is proved of a variable compares with types of the table. -/
theorem Within.narrowingFor (h : stack.Within size) {name : String} {f : Narrowing}
    (hf : stack.narrowingFor name = some f) : f.Within size := by
  have hactive : ∀ g ∈ stack.activeNarrowings name, g.Within size := fun g hg => by
    obtain ⟨guard, hguard, heq⟩ := List.mem_filterMap.mp hg
    exact h guard hguard g (OrderedMap.mem_values_of_get? heq)
  unfold GuardStack.narrowingFor at hf
  split at hf
  · cases hf
  · rename_i first rest heq
    cases hf
    rw [heq] at hactive
    obtain ⟨hfirst, hrest⟩ := List.forall_mem_cons.mp hactive
    clear heq hactive
    induction rest generalizing first with
    | nil => exact hfirst
    | cons second rest ih =>
      obtain ⟨hsecond, hrest⟩ := List.forall_mem_cons.mp hrest
      exact ih _ (hfirst.conj hsecond) hrest

end GuardStack

/-- A node speaks only of types below `size`. -/
structure FlowNode.Within (node : FlowNode) (size : Nat) : Prop where
  type : ∀ a, node.type = some a → a.index < size
  targets : ∀ target ∈ node.derivation.targets, target.index < size
  guard : ∀ guard, node.guard = some guard → guard.Within size

theorem FlowNode.Within.mono {node : FlowNode} {size size' : Nat} (h : node.Within size)
    (hle : size ≤ size') : node.Within size' :=
  ⟨fun a ha => Nat.lt_of_lt_of_le (h.type a ha) hle, fun target ht =>
    Nat.lt_of_lt_of_le (h.targets target ht) hle, fun guard hg => (h.guard guard hg).mono hle⟩

theorem FlowNode.within_default (size : Nat) : FlowNode.Within default size :=
  ⟨fun _ h => (nomatch h), fun _ h => (nomatch h), fun _ h => nomatch h⟩

theorem FlowGraph.guard_unbind {g : FlowGraph} {id other : NodeId} (deps : List NodeId) :
    ((g.unbind id deps).node other).guard = (g.node other).guard :=
  (removeObservers_field FlowNode.guard (fun _ _ => rfl) deps _).trans
    (modify_field FlowNode.guard fun _ => rfl)

end TypeFlow
