import TypeFlow.Proofs.Flow.Frozen
import TypeFlow.Proofs.Flow.History
import TypeFlow.Proofs.Flow.Notified

/-!
# Recorded commands

A recording does what a command does, and keeps its history along with it: every change of a type,
every call that is notified or taken from the queue. What it does to the network is what the command
does (`GraphCommand.erases_record`).
-/

namespace TypeFlow

/-- A change to a network together with the history that leads up to it. -/
abbrev Recording := StateT History Binding

namespace Recording

def network : Recording Network := liftM (get : Binding Network)

def record (e : Event) : Recording Unit := modify (e :: ·)

/-- The type that the node has got. -/
def recordType (id : NodeId) : Recording Unit := do
  match (← network).graph.typeOf id with
  | some type => record (.changed id type)
  | none => pure ()

def refresh (id : NodeId) : Recording Bool := do
  let changed ← liftM (Binding.refresh id)
  if changed then recordType id
  return changed

def notify : Observer → Recording Unit
  | .node id => do let _ ← refresh id
  | .call call => do
    liftM (Binding.notify (.call call))
    record (.notified call)

def propagateWithin : Nat → NodeId → Recording Unit
  | 0, _ => liftM (throw .exhausted : Binding Unit)
  | fuel + 1, id => do
    let node := (← network).graph.node id
    if node.dirty then
      liftM (Binding.modifyGraph fun g => g.modify id fun node => { node with dirty := false })
      node.observers.forM notify
      node.observers.forM fun observer =>
        match observer with
        | .node id => propagateWithin fuel id
        | .call _ => pure ()

def propagate (id : NodeId) : Recording Unit := do
  propagateWithin (← network).propagationFuel id

def setType (id : NodeId) (type : TypeId) : Recording Unit := do
  if (← network).graph.typeOf id = some type then return
  liftM (Binding.commit id type)
  recordType id
  propagate id

def bind (id : NodeId) (deps : List NodeId) : Recording Unit := do
  liftM (Binding.modifyGraph fun g => deps.foldl (fun g dep => g.addDependency id dep) g)
  if ← refresh id then propagate id

end Recording

namespace GraphCommand

def record : GraphCommand → Recording Unit
  | bind id deps => Recording.bind id deps
  | setType id type => Recording.setType id type
  | observe id (.call call) => do
    liftM (perform (observe id (.call call)))
    Recording.record (.observed id call)
  | nextCall => do
    let first := (← Recording.network).graph.pending.head?
    liftM (perform nextCall)
    match first with
    | some call => Recording.record (.popped call)
    | none => pure ()
  | c => liftM (perform c)

end GraphCommand

/-! ### What is recorded makes no difference -/

namespace Recording
variable {α β : Type}

/-- Without its history the recording is the change itself. -/
def Erases (x : Recording α) (y : Binding α) : Prop := ∀ h, Prod.fst <$> x.run h = y

theorem erases_lift (y : Binding α) : Erases (liftM y) y := by
  intro h
  show Prod.fst <$> (StateT.lift y).run h = y
  simp [StateT.lift, StateT.run]

theorem erases_pure (a : α) : Erases (pure a) (pure a) := fun h => by simp

theorem Erases.bind {x : Recording α} {y : Binding α} {f : α → Recording β} {g : α → Binding β}
    (hx : Erases x y) (hf : ∀ a, Erases (f a) (g a)) : Erases (x >>= f) (y >>= g) := by
  intro h
  rw [StateT.run_bind, map_bind, ← hx h, bind_map_left]
  exact congrArg _ (funext fun p => hf p.1 p.2)

theorem Erases.forM {bs : List β} {f : β → Recording Unit} {g : β → Binding Unit}
    (hf : ∀ b, Erases (f b) (g b)) : Erases (bs.forM f) (bs.forM g) := by
  induction bs with
  | nil => exact erases_pure ()
  | cons b bs ih => exact (hf b).bind fun _ => ih

theorem erases_network : Erases network get := erases_lift get

theorem erases_record (e : Event) : Erases (record e) (pure ()) := fun _ => rfl

theorem erases_recordType (id : NodeId) : Erases (recordType id) (pure ()) := by
  have hrest : ∀ n : Network, Erases
      (match n.graph.typeOf id with
        | some type => record (.changed id type)
        | none => pure ()) (pure ()) := fun n => by
    split
    · exact erases_record _
    · exact erases_pure ()
  exact erases_network.bind hrest

theorem erases_refresh (id : NodeId) : Erases (refresh id) (Binding.refresh id) := by
  have h : Erases (refresh id) (Binding.refresh id >>= pure) := by
    refine (erases_lift (Binding.refresh id)).bind fun changed => ?_
    cases changed
    · exact erases_pure false
    · exact (erases_recordType id).bind fun _ => erases_pure true
  rwa [bind_pure] at h

theorem erases_notify : ∀ o, Erases (notify o) (Binding.notify o)
  | .node id => (erases_refresh id).bind fun _ => erases_pure ()
  | .call call => (erases_lift (Binding.notify (.call call))).bind fun _ => erases_record _

theorem erases_propagateWithin (fuel : Nat) (id : NodeId) :
    Erases (propagateWithin fuel id) (Binding.propagateWithin fuel id) := by
  induction fuel generalizing id with
  | zero => exact erases_lift _
  | succ fuel ih =>
    rw [propagateWithin, Binding.propagateWithin]
    refine erases_network.bind fun n => ?_
    dsimp only
    split
    · refine (erases_lift _).bind fun _ =>
        (Erases.forM erases_notify).bind fun _ => .forM fun o => ?_
      cases o with
      | node id => exact ih id
      | call _ => exact erases_pure ()
    · exact erases_pure ()

theorem erases_propagate (id : NodeId) : Erases (propagate id) (Binding.propagate id) :=
  erases_network.bind fun n => erases_propagateWithin n.propagationFuel id

theorem erases_setType (id : NodeId) (type : TypeId) :
    Erases (setType id type) (Binding.setType id type) := by
  unfold setType Binding.setType
  refine erases_network.bind fun n => ?_
  split
  · exact erases_pure ()
  · refine (erases_lift (Binding.commit id type)).bind fun _ => ?_
    exact (erases_recordType id).bind fun _ => erases_propagate id

theorem erases_bind (id : NodeId) (deps : List NodeId) :
    Erases (bind id deps) (Binding.bind id deps) := by
  unfold bind Binding.bind
  refine (erases_lift _).bind fun _ => (erases_refresh id).bind fun changed => ?_
  split
  · exact erases_propagate id
  · exact erases_pure ()

end Recording

namespace GraphCommand

theorem erases_record (c : GraphCommand) : Recording.Erases c.record c.perform := by
  cases c with
  | bind id deps => exact Recording.erases_bind id deps
  | setType id type => exact Recording.erases_setType id type
  | observe id observer =>
    cases observer with
    | node other => exact Recording.erases_lift _
    | call call => exact (Recording.erases_lift _).bind fun _ => Recording.erases_record _
  | nextCall =>
    have h : Recording.Erases (record nextCall)
        (get >>= fun _ => perform nextCall >>= fun _ => pure ()) := by
      refine Recording.erases_network.bind fun n =>
        (Recording.erases_lift (perform nextCall)).bind fun _ => ?_
      split
      · exact Recording.erases_record _
      · exact Recording.erases_pure ()
    exact h
  | addNode | unbind | freeze | settleUntyped => exact Recording.erases_lift _

end GraphCommand

/-! ### Recordings that are carried through -/

namespace Recording
variable {α β : Type} {n n' : Network} {h h' : History}

def Does (x : Recording α) (n : Network) (h : History) (a : α) (n' : Network)
    (h' : History) : Prop :=
  (x.run h).Does n (a, h') n'

theorem does_bind {x : Recording α} {f : α → Recording β} {b : β} :
    (x >>= f).Does n h b n' h' ↔ ∃ a m k, x.Does n h a m k ∧ (f a).Does m k b n' h' := by
  unfold Does
  rw [StateT.run_bind, Binding.does_bind]
  exact ⟨fun ⟨p, m, hp⟩ => ⟨p.1, m, p.2, hp⟩, fun ⟨a, m, k, hp⟩ => ⟨(a, k), m, hp⟩⟩

theorem does_pure {a b : α} :
    (pure a : Recording α).Does n h b n' h' ↔ b = a ∧ n' = n ∧ h' = h := by
  unfold Does
  rw [StateT.run_pure, Binding.does_pure, Prod.mk.injEq]
  grind

theorem does_lift {y : Binding α} {a : α} :
    (liftM y : Recording α).Does n h a n' h' ↔ y.Does n a n' ∧ h' = h := by
  show (y >>= fun a => pure (a, h)).Does n (a, h') n' ↔ _
  rw [Binding.does_bind]
  constructor
  · rintro ⟨b, m, hy, hp⟩
    obtain ⟨heq, rfl⟩ := Binding.does_pure.mp hp
    cases heq
    exact ⟨hy, rfl⟩
  · rintro ⟨hy, rfl⟩
    exact ⟨a, n', hy, Binding.does_pure.mpr ⟨rfl, rfl⟩⟩

theorem does_network {m : Network} : network.Does n h m n' h' ↔ m = n ∧ n' = n ∧ h' = h := by
  unfold network
  rw [does_lift]
  show ((Except.ok n, n) = (Except.ok m, n') ∧ _) ↔ _
  grind

theorem does_record {e : Event} {u : Unit} :
    (record e).Does n h u n' h' ↔ n' = n ∧ h' = e :: h := by
  show (Except.ok ((), e :: h), n) = (Except.ok (u, h'), n') ↔ _
  grind

theorem does_recordType {id : NodeId} {type : TypeId} {u : Unit}
    (ht : n.graph.typeOf id = some type) :
    (recordType id).Does n h u n' h' ↔ n' = n ∧ h' = .changed id type :: h := by
  unfold recordType
  rw [does_bind]
  constructor
  · rintro ⟨m, _, _, hnet, hrest⟩
    obtain ⟨rfl, rfl, rfl⟩ := does_network.mp hnet
    rw [ht] at hrest
    exact does_record.mp hrest
  · rintro ⟨rfl, rfl⟩
    refine ⟨n', n', h, does_network.mpr ⟨rfl, rfl, rfl⟩, ?_⟩
    rw [ht]
    exact does_record.mpr ⟨rfl, rfl⟩

/-- The recording does what the change does. -/
theorem Erases.does {x : Recording α} {y : Binding α} {a : α} (he : Erases x y)
    (hx : x.Does n h a n' h') : y.Does n a n' := by
  rw [← he h, map_eq_pure_bind, Binding.does_bind]
  exact ⟨(a, h'), n', hx, Binding.does_pure.mpr ⟨rfl, rfl⟩⟩

/-- What is carried through has one history. -/
theorem Erases.exists_unique {x : Recording α} {y : Binding α} {a : α} (he : Erases x y)
    (hy : y.Does n a n') (h : History) : ∃! h', x.Does n h a n' h' := by
  rw [← he h, map_eq_pure_bind, Binding.does_bind] at hy
  obtain ⟨p, m, hp, hend⟩ := hy
  obtain ⟨rfl, rfl⟩ := Binding.does_pure.mp hend
  refine ⟨p.2, hp, fun h' hd => ?_⟩
  have heq := hd.symm.trans hp
  cases p
  cases heq
  rfl

theorem does_forM_nil {f : β → Recording Unit} {u : Unit} :
    (([] : List β).forM f).Does n h u n' h' ↔ n' = n ∧ h' = h :=
  does_pure.trans (and_iff_right rfl)

theorem does_forM_cons {b : β} {bs : List β} {f : β → Recording Unit} :
    ((b :: bs).forM f).Does n h () n' h' ↔ ∃ m k, (f b).Does n h () m k ∧
      (bs.forM f).Does m k () n' h' :=
  does_bind.trans ⟨fun ⟨_, m, k, hb, hbs⟩ => ⟨m, k, hb, hbs⟩, fun ⟨m, k, hb, hbs⟩ =>
    ⟨(), m, k, hb, hbs⟩⟩

/-- A refreshed node that has changed is recorded with the type that it has got. -/
theorem refresh_cases {id : NodeId} {changed : Bool} (hd : (refresh id).Does n h changed n' h') :
    (n' = (n.derivedType id).2 ∧ h' = h) ∨
    ∃ t, n' = (n.derivedType id).2.retype id t ∧ h' = .changed id t :: h ∧
      n.graph.typeOf id ≠ some t ∧ id.index < n.graph.size := by
  unfold refresh at hd
  obtain ⟨b, m, k, hlift, hrest⟩ := does_bind.mp hd
  obtain ⟨hb, rfl⟩ := does_lift.mp hlift
  rcases Binding.refresh_cases hb with ⟨rfl, rfl, -⟩ | ⟨t, rfl, rfl, hderived, hne, -⟩
  · obtain ⟨-, rfl, rfl⟩ := does_pure.mp hrest
    exact .inl ⟨rfl, rfl⟩
  · have hlt := Network.lt_of_derivedType hderived
    have htype : ((n.derivedType id).2.retype id t).graph.typeOf id = some t :=
      congrArg FlowNode.type (FlowGraph.node_modify_self (n.derivedType_graph id ▸ hlt))
    obtain ⟨_, m, k, hrec, hend⟩ := does_bind.mp hrest
    obtain ⟨rfl, rfl⟩ := (does_recordType htype).mp hrec
    obtain ⟨-, rfl, rfl⟩ := does_pure.mp hend
    exact .inr ⟨t, rfl, rfl, hne, hlt⟩

theorem does_notify_node {id : NodeId} :
    (notify (.node id)).Does n h () n' h' ↔ ∃ changed, (refresh id).Does n h changed n' h' := by
  unfold notify
  rw [does_bind]
  constructor
  · rintro ⟨b, m, k, hb, hend⟩
    obtain ⟨-, rfl, rfl⟩ := does_pure.mp hend
    exact ⟨b, hb⟩
  · exact fun ⟨b, hb⟩ => ⟨b, n', h', hb, does_pure.mpr ⟨rfl, rfl, rfl⟩⟩

theorem does_notify_call {call : ExprId} :
    (notify (.call call)).Does n h () n' h' ↔ n' = n.enqueue call ∧ h' = .notified call :: h := by
  unfold notify
  rw [does_bind]
  constructor
  · rintro ⟨_, m, k, hlift, hend⟩
    obtain ⟨hcall, rfl⟩ := does_lift.mp hlift
    obtain rfl := Binding.does_notify_call.mp hcall
    exact does_record.mp hend
  · rintro ⟨rfl, rfl⟩
    exact ⟨(), _, h, does_lift.mpr ⟨Binding.does_notify_call.mpr rfl, rfl⟩,
      does_record.mpr ⟨rfl, rfl⟩⟩

/-- What propagation does with each observer once all have been notified. -/
def carryOn (fuel : Nat) : Observer → Recording Unit
  | .node id => propagateWithin fuel id
  | .call _ => pure ()

theorem does_propagateWithin {fuel : Nat} {id : NodeId}
    (hd : (propagateWithin (fuel + 1) id).Does n h () n' h') :
    if (n.graph.node id).dirty then
      ∃ m k, ((n.graph.node id).observers.forM notify).Does (n.clean id) h () m k ∧
        ((n.graph.node id).observers.forM (carryOn fuel)).Does m k () n' h'
    else n' = n ∧ h' = h := by
  have hcarry : carryOn fuel = fun observer => match observer with
      | .node id => propagateWithin fuel id
      | .call _ => pure () := by
    funext o; cases o <;> rfl
  rw [propagateWithin] at hd
  obtain ⟨m, _, _, hnet, hrest⟩ := does_bind.mp hd
  obtain ⟨rfl, rfl, rfl⟩ := does_network.mp hnet
  dsimp only at hrest
  split
  · rename_i hdirty
    rw [if_pos hdirty] at hrest
    obtain ⟨_, m', k', hlift, hrest⟩ := does_bind.mp hrest
    obtain ⟨hclean, rfl⟩ := does_lift.mp hlift
    obtain rfl := Binding.does_modifyGraph.mp hclean
    obtain ⟨_, m'', k'', hnotify, hrest⟩ := does_bind.mp hrest
    exact ⟨m'', k'', hnotify, hcarry ▸ hrest⟩
  · rename_i hdirty
    rw [if_neg hdirty] at hrest
    exact (does_pure.mp hrest).2

theorem does_propagate {id : NodeId} (hd : (propagate id).Does n h () n' h') :
    (propagateWithin n.propagationFuel id).Does n h () n' h' := by
  obtain ⟨m, _, _, hnet, hrest⟩ := does_bind.mp hd
  obtain ⟨rfl, rfl, rfl⟩ := does_network.mp hnet
  exact hrest

end Recording

end TypeFlow
