import TypeFlow.Proofs.Flow.Graph

/-!
# Runs of changes to a network

`x.outcome n` is how the change `x` ends when it is started at the network `n`. `Keeps J x`: the
change keeps the property `J`, whether it fails or not; `Does x n a n'`: started at `n` it answers
`a` and ends at `n'`. Propagation keeps whatever its three kinds of steps keep
(`keeps_propagateWithin`): clearing a node's mark, refreshing a node, and queueing a call.
-/

namespace TypeFlow

namespace Network

/-- Clears the mark of a node whose observers are about to be notified. -/
def clean (n : Network) (id : NodeId) : Network :=
  { n with graph := n.graph.modify id fun node => { node with dirty := false } }

/-- Gives a node a type, marking it. -/
def retype (n : Network) (id : NodeId) (type : TypeId) : Network :=
  { n with graph := n.graph.modify id fun node => { node with type := some type, dirty := true } }

def enqueue (n : Network) (call : ExprId) : Network := { n with graph := n.graph.enqueue call }

/-- Makes a node depend on others, without looking at types. -/
def link (n : Network) (id : NodeId) (deps : List NodeId) : Network :=
  { n with graph := n.graph.link id deps }

@[simp] theorem clean_types (n : Network) (id : NodeId) : (n.clean id).types = n.types := rfl
@[simp] theorem retype_types (n : Network) (id : NodeId) (t : TypeId) :
    (n.retype id t).types = n.types := rfl
@[simp] theorem enqueue_types (n : Network) (call : ExprId) :
    (n.enqueue call).types = n.types := rfl
@[simp] theorem link_types (n : Network) (id : NodeId) (deps : List NodeId) :
    (n.link id deps).types = n.types := rfl

section
variable {n : Network} {id d : NodeId} {t : TypeId}

theorem dependencies_clean :
    ((n.clean id).graph.node d).dependencies = (n.graph.node d).dependencies :=
  FlowGraph.modify_field FlowNode.dependencies fun _ => rfl

theorem typeOf_clean : (n.clean id).graph.typeOf d = n.graph.typeOf d :=
  FlowGraph.modify_field FlowNode.type fun _ => rfl

theorem derivation_clean : ((n.clean id).graph.node d).derivation = (n.graph.node d).derivation :=
  FlowGraph.modify_field FlowNode.derivation fun _ => rfl

theorem observers_clean : ((n.clean id).graph.node d).observers = (n.graph.node d).observers :=
  FlowGraph.modify_field FlowNode.observers fun _ => rfl

theorem typeOf_retype_of_ne (hd : d ≠ id) : (n.retype id t).graph.typeOf d = n.graph.typeOf d :=
  congrArg FlowNode.type (FlowGraph.node_modify_of_ne hd)

theorem dependencies_retype :
    ((n.retype id t).graph.node d).dependencies = (n.graph.node d).dependencies :=
  FlowGraph.modify_field FlowNode.dependencies fun _ => rfl

theorem derivation_retype :
    ((n.retype id t).graph.node d).derivation = (n.graph.node d).derivation :=
  FlowGraph.modify_field FlowNode.derivation fun _ => rfl

theorem observers_retype :
    ((n.retype id t).graph.node d).observers = (n.graph.node d).observers :=
  FlowGraph.modify_field FlowNode.observers fun _ => rfl

end

@[simp] theorem derivedType_graph (n : Network) (id : NodeId) :
    (n.derivedType id).2.graph = n.graph := by
  unfold derivedType; split <;> rfl

end Network

namespace Binding
variable {α β : Type}

def outcome (x : Binding α) (n : Network) : Except GraphFailure α × Network := (ExceptT.run x).run n

def Keeps (J : Network → Prop) (x : Binding α) : Prop := ∀ n, J n → J (x.outcome n).2

def Does (x : Binding α) (n : Network) (a : α) (n' : Network) : Prop := x.outcome n = (.ok a, n')

theorem outcome_pure (a : α) (n : Network) : (pure a : Binding α).outcome n = (.ok a, n) := rfl

theorem outcome_bind (x : Binding α) (f : α → Binding β) (n : Network) :
    (x >>= f).outcome n = match x.outcome n with
      | (.ok a, n') => (f a).outcome n'
      | (.error e, n') => (.error e, n') := by
  show (ExceptT.run (x >>= f)).run n = _
  simp only [ExceptT.run_bind, StateT.run_bind, outcome]
  rcases (ExceptT.run x).run n with ⟨_ | a, n'⟩ <;> rfl

theorem does_pure {a b : α} {n n' : Network} : Does (pure a) n b n' ↔ a = b ∧ n = n' := by
  simp [Does, outcome_pure]

theorem does_bind {x : Binding α} {f : α → Binding β} {b : β} {n n' : Network} :
    (x >>= f).Does n b n' ↔ ∃ a m, x.Does n a m ∧ (f a).Does m b n' := by
  simp only [Does, outcome_bind]
  rcases x.outcome n with ⟨_ | a, m⟩
  · simp
  · constructor
    · exact fun h => ⟨a, m, rfl, h⟩
    · rintro ⟨a', m', h, h'⟩; cases h; exact h'

theorem does_modifyGraph {f : FlowGraph → FlowGraph} {u : Unit} {n n' : Network} :
    (modifyGraph f).Does n u n' ↔ n' = { n with graph := f n.graph } := by
  show (Except.ok (), { n with graph := f n.graph }) = (Except.ok u, n') ↔ _
  simp [eq_comm]

theorem does_forM_nil {f : β → Binding Unit} {u : Unit} {n n' : Network} :
    (([] : List β).forM f).Does n u n' ↔ n = n' :=
  does_pure.trans (by simp)

theorem does_forM_cons {b : β} {bs : List β} {f : β → Binding Unit} {u : Unit} {n n' : Network} :
    ((b :: bs).forM f).Does n u n' ↔ ∃ m, (f b).Does n () m ∧ (bs.forM f).Does m () n' :=
  does_bind.trans ⟨fun ⟨_, m, h, h'⟩ => ⟨m, h, h'⟩, fun ⟨m, h, h'⟩ => ⟨(), m, h, h'⟩⟩

/-! ### What changes keep -/

section
variable {J : Network → Prop}

theorem keeps_pure (a : α) : Keeps J (pure a : Binding α) := fun _ h => h

theorem Keeps.bind {x : Binding α} {f : α → Binding β} (hx : Keeps J x) (hf : ∀ a, Keeps J (f a)) :
    Keeps J (x >>= f) := by
  intro n h
  have h' := hx n h
  rw [outcome_bind]
  rcases hr : x.outcome n with ⟨_ | a, m⟩ <;> rw [hr] at h'
  · exact h'
  · exact hf a m h'

theorem Keeps.forM {bs : List β} {f : β → Binding Unit} (hf : ∀ b ∈ bs, Keeps J (f b)) :
    Keeps J (bs.forM f) := by
  induction bs with
  | nil => exact keeps_pure ()
  | cons b bs ih =>
    exact Keeps.bind (hf b (by simp)) fun _ => ih fun b' hb' => hf b' (by simp [hb'])

theorem Keeps.does {x : Binding α} {a : α} {n n' : Network} (hx : Keeps J x) (h : J n)
    (hd : x.Does n a n') : J n' := by
  have := hx n h
  rwa [hd] at this

end

/-! ### Refreshing a node -/

/-- The failure to give a frozen node another type. -/
def conflictAt (n : Network) (id : NodeId) (rejected : TypeId) : GraphFailure :=
  .conflict id (match (n.graph.node id).type with | some t => n.types.name t | none => "(untyped)")
    (n.types.name rejected)

theorem outcome_commit (id : NodeId) (type : TypeId) (n : Network) :
    (commit id type).outcome n =
      if (n.graph.node id).frozen && (n.graph.node id).type ≠ some type then
        (.error (conflictAt n id type), n)
      else (.ok (), n.retype id type) := by
  unfold commit
  rw [outcome_bind, show (get : Binding Network).outcome n = (.ok n, n) from rfl]
  dsimp only
  split <;> rfl

theorem outcome_refresh (id : NodeId) (n : Network) :
    (refresh id).outcome n =
      match n.derivedType id with
      | (none, m) => (.ok false, m)
      | (some type, m) =>
        if m.graph.typeOf id = some type then (.ok false, m)
        else if (m.graph.node id).frozen then (.error (conflictAt m id type), m)
        else (.ok true, m.retype id type) := by
  unfold refresh
  rw [outcome_bind, show (get : Binding Network).outcome n = (.ok n, n) from rfl]
  dsimp only
  rcases n.derivedType id with ⟨_ | type, m⟩
  · rfl
  · dsimp only
    rw [outcome_bind, show (set m : Binding Unit).outcome n = (.ok (), m) from rfl]
    dsimp only
    split
    · rfl
    · have hne : decide ((m.graph.node id).type ≠ some type) = true := decide_eq_true ‹_›
      rw [outcome_bind, outcome_commit, hne, Bool.and_true]
      by_cases hf : (m.graph.node id).frozen = true <;> simp only [hf] <;> rfl

/-- A refreshed node has the type that it derives, if it derives one, and is marked if that is
another than before. -/
theorem refresh_cases {id : NodeId} {n n' : Network} {changed : Bool}
    (h : (refresh id).Does n changed n') :
    (changed = false ∧ n' = (n.derivedType id).2 ∧
      ∀ t, (n.derivedType id).1 = some t → n.graph.typeOf id = some t) ∨
    ∃ t, changed = true ∧ n' = (n.derivedType id).2.retype id t ∧
      (n.derivedType id).1 = some t ∧ n.graph.typeOf id ≠ some t ∧
      (n.graph.node id).frozen = false := by
  have hg := Network.derivedType_graph n id
  rw [Does, outcome_refresh] at h
  rcases hd : n.derivedType id with ⟨_ | t, m⟩ <;> rw [hd] at h hg
  · cases h; exact .inl ⟨rfl, rfl, by simp⟩
  · simp only at h hg
    rw [hg] at h
    split at h
    · cases h; exact .inl ⟨rfl, rfl, fun t' ht' => by cases ht'; assumption⟩
    · split at h
      · cases h
      · cases h
        exact .inr ⟨t, rfl, rfl, rfl, ‹_›, Bool.eq_false_iff.mpr ‹_›⟩

theorem keeps_refresh {J : Network → Prop} {id : NodeId} (hgrow : ∀ n, J n → J (n.derivedType id).2)
    (hretype : ∀ n t, J n → (n.derivedType id).1 = some t → n.graph.typeOf id ≠ some t →
      (n.graph.node id).frozen = false → J ((n.derivedType id).2.retype id t)) :
    Keeps J (refresh id) := by
  intro n hn
  have hg := Network.derivedType_graph n id
  have h1 := hgrow n hn
  have h2 := hretype n
  rw [outcome_refresh]
  rcases hd : n.derivedType id with ⟨_ | t, m⟩ <;> rw [hd] at h1 h2 hg
  · exact h1
  · simp only at h1 h2 hg ⊢
    rw [hg]
    split
    · exact h1
    · split
      · exact h1
      · exact h2 t hn rfl ‹_› (Bool.eq_false_iff.mpr ‹_›)

theorem does_notify_node {id : NodeId} {n n' : Network} :
    (notify (.node id)).Does n () n' ↔ ∃ changed, (refresh id).Does n changed n' := by
  unfold notify
  rw [does_bind]
  exact exists_congr fun b => ⟨fun ⟨m, h, h'⟩ => (does_pure.mp h').2 ▸ h,
    fun h => ⟨n', h, does_pure.mpr ⟨rfl, rfl⟩⟩⟩

theorem does_notify_call {call : ExprId} {n n' : Network} :
    (notify (.call call)).Does n () n' ↔ n' = n.enqueue call := by
  unfold notify; exact does_modifyGraph

/-! ### Propagation -/

/-- What propagation does with each observer once all have been notified. -/
def carryOn (fuel : Nat) : Observer → Binding Unit
  | .node id => propagateWithin fuel id
  | .call _ => pure ()

theorem propagateWithin_succ (fuel : Nat) (id : NodeId) :
    propagateWithin (fuel + 1) id = (do
      let node := (← get).graph.node id
      if node.dirty then
        modifyGraph fun g => g.modify id fun node => { node with dirty := false }
        node.observers.forM notify
        node.observers.forM (carryOn fuel)) := by
  have : carryOn fuel = fun observer => match observer with
      | .node id => propagateWithin fuel id
      | .call _ => pure () := by
    funext o; cases o <;> rfl
  rw [this]; exact propagateWithin.eq_2 id fuel

theorem outcome_propagateWithin (fuel : Nat) (id : NodeId) (n : Network) :
    (propagateWithin (fuel + 1) id).outcome n =
      if (n.graph.node id).dirty then
        (do (n.graph.node id).observers.forM notify
            (n.graph.node id).observers.forM (carryOn fuel) : Binding Unit).outcome (n.clean id)
      else (.ok (), n) := by
  rw [propagateWithin_succ, outcome_bind, show (get : Binding Network).outcome n =
    (.ok n, n) from rfl]
  dsimp only
  split
  · rw [outcome_bind]; rfl
  · rfl

theorem does_propagateWithin {fuel : Nat} {id : NodeId} {n n' : Network} :
    (propagateWithin (fuel + 1) id).Does n () n' ↔
      if (n.graph.node id).dirty then
        ∃ m, ((n.graph.node id).observers.forM notify).Does (n.clean id) () m ∧
          ((n.graph.node id).observers.forM (carryOn fuel)).Does m () n'
      else n = n' := by
  rw [Does, outcome_propagateWithin]
  split
  · exact does_bind.trans ⟨fun ⟨_, m, h⟩ => ⟨m, h⟩, fun ⟨m, h⟩ => ⟨(), m, h⟩⟩
  · simp

theorem keeps_notify {J : Network → Prop} (hcall : ∀ n call, J n → J (n.enqueue call))
    (hrefresh : ∀ id, Keeps J (refresh id)) : ∀ o, Keeps J (notify o)
  | .node id => (hrefresh id).bind fun _ => keeps_pure ()
  | .call call => fun n h => hcall n call h

/-- Propagation keeps what its steps keep. -/
theorem keeps_propagateWithin {J : Network → Prop} (hclean : ∀ n id, J n → J (n.clean id))
    (hcall : ∀ n call, J n → J (n.enqueue call)) (hrefresh : ∀ id, Keeps J (refresh id)) :
    ∀ fuel id, Keeps J (propagateWithin fuel id) := by
  intro fuel
  induction fuel with
  | zero => exact fun id n h => h
  | succ fuel ih =>
    intro id n h
    rw [outcome_propagateWithin]
    split
    · refine Keeps.bind (Keeps.forM fun o _ => keeps_notify hcall hrefresh o)
        (fun _ => Keeps.forM fun o _ => ?_) _ (hclean n id h)
      cases o with
      | node id => exact ih id
      | call _ => exact keeps_pure ()
    · exact h

/-- A debt to observers: clearing the mark of a node takes on one for each of its observers, and
notifying an observer pays it. Propagation that is carried through leaves none. -/
theorem settles_propagateWithin {O : List Observer → Network → Prop}
    (hclean : ∀ n id, O [] n → O (n.graph.node id).observers (n.clean id))
    (hnotify : ∀ n n' o os, O (o :: os) n → (notify o).Does n () n' → O os n') (fuel : Nat)
    {id : NodeId} {n n' : Network} (hn : O [] n) (h : (propagateWithin fuel id).Does n () n') :
    O [] n' := by
  have hpay : ∀ (os : List Observer) {n n' : Network}, O os n →
      (os.forM notify).Does n () n' → O [] n' := by
    intro os
    induction os with
    | nil => intro n n' hn h; cases does_forM_nil.mp h; exact hn
    | cons o os ih =>
      intro n n' hn h
      obtain ⟨m, hm, hrest⟩ := does_forM_cons.mp h
      exact ih (hnotify n m o os hn hm) hrest
  induction fuel generalizing n n' id with
  | zero => cases h
  | succ fuel ih =>
    have hloop : ∀ (os : List Observer) {n n' : Network}, O [] n →
        (os.forM (carryOn fuel)).Does n () n' →
        O [] n' := by
      intro os
      induction os with
      | nil => intro n n' hn h; cases does_forM_nil.mp h; exact hn
      | cons o os ihos =>
        intro n n' hn h
        obtain ⟨m, hm, hrest⟩ := does_forM_cons.mp h
        cases o with
        | node id => exact ihos (ih hn hm) hrest
        | call _ =>
          cases (does_pure.mp hm).2
          exact ihos hn hrest
    rw [does_propagateWithin] at h
    split at h
    · obtain ⟨m, hm, hrest⟩ := h
      exact hloop _ (hpay _ (hclean n id hn) hm) hrest
    · exact h ▸ hn

theorem keeps_propagate {J : Network → Prop} (hclean : ∀ n id, J n → J (n.clean id))
    (hcall : ∀ n call, J n → J (n.enqueue call)) (hrefresh : ∀ id, Keeps J (refresh id))
    (id : NodeId) : Keeps J (propagate id) :=
  fun n h => keeps_propagateWithin hclean hcall hrefresh n.propagationFuel id n h

/-! ### Giving types and binding -/

theorem does_propagate {id : NodeId} {n n' : Network} :
    (propagate id).Does n () n' ↔ (propagateWithin n.propagationFuel id).Does n () n' := Iff.rfl

theorem does_setType {id : NodeId} {type : TypeId} {n n' : Network} :
    (setType id type).Does n () n' ↔
      if n.graph.typeOf id = some type then n = n'
      else (n.graph.node id).frozen = false ∧ (propagate id).Does (n.retype id type) () n' := by
  unfold setType
  rw [Does, outcome_bind, show (get : Binding Network).outcome n = (.ok n, n) from rfl]
  dsimp only
  split
  · exact does_pure.trans (by simp)
  · rename_i hne
    have hne : decide ((n.graph.node id).type ≠ some type) = true := decide_eq_true hne
    rw [outcome_bind, outcome_commit, hne, Bool.and_true]
    cases (n.graph.node id).frozen
    · simp [Does]
    · simp

theorem does_bindNode {id : NodeId} {deps : List NodeId} {n n' : Network} :
    (bind id deps).Does n () n' ↔
      ∃ changed m, (refresh id).Does (n.link id deps) changed m ∧
        if changed then (propagate id).Does m () n' else m = n' := by
  unfold bind
  rw [Does, outcome_bind]
  show ((refresh id >>= _).Does (n.link id deps) () n') ↔ _
  rw [does_bind]
  refine exists_congr fun b => exists_congr fun m => and_congr_right fun _ => ?_
  cases b
  · exact does_pure.trans (by simp)
  · rfl

theorem keeps_setType {J : Network → Prop} {id : NodeId} {type : TypeId}
    (hretype : ∀ n, J n → n.graph.typeOf id ≠ some type → (n.graph.node id).frozen = false →
      J (n.retype id type))
    (hpropagate : Keeps J (propagate id)) : Keeps J (setType id type) := by
  intro n h
  unfold setType
  rw [outcome_bind, show (get : Binding Network).outcome n = (.ok n, n) from rfl]
  dsimp only
  split
  · exact h
  · rename_i hne
    have hne' : decide ((n.graph.node id).type ≠ some type) = true := decide_eq_true hne
    rw [outcome_bind, outcome_commit, hne', Bool.and_true]
    cases hf : (n.graph.node id).frozen
    · exact hpropagate _ (hretype n h hne hf)
    · exact h

theorem keeps_bindNode {J : Network → Prop} {id : NodeId} {deps : List NodeId}
    (hlink : ∀ n, J n → J (n.link id deps)) (hrefresh : Keeps J (refresh id))
    (hpropagate : Keeps J (propagate id)) : Keeps J (bind id deps) := by
  unfold bind
  refine Keeps.bind (fun n h => hlink n h) fun _ => hrefresh.bind fun b => ?_
  split
  · exact hpropagate
  · exact keeps_pure ()

end Binding

end TypeFlow
