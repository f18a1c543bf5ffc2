import TypeFlow.Flow.Basic

/-!
# Propagation

`setType` and `bind` change a node and carry the change on, until every node that depends on a
changed one has the type that it derives. A changed node first updates all its observers and then
lets each of them carry on, and it stops where a type stays as it is. A frozen node that would
have to change is a conflict; what was done before it stays done.

Without pointers and metaclasses a node only ever gains members, so that every chain of changes is
shorter than the number of nodes times the number of types. `propagationFuel` is above that.
-/

namespace TypeFlow

/-- Why a change was not carried through. -/
inductive GraphFailure where
  | conflict (node : NodeId) (frozen rejected : String)
  | exhausted
  deriving DecidableEq, Repr

/-- A flow graph over a table of types. -/
structure Network where
  types : Types
  graph : FlowGraph

/-- A change to a network, which may fail half-way. -/
abbrev Binding := ExceptT GraphFailure (StateM Network)

namespace Network

/-- The join of the dependencies' types; a single dependency passes its type on. -/
def joinOfDependencies (g : FlowGraph) (types : Types) (id : NodeId) :
    Option TypeId × Types :=
  match (g.node id).dependencies with
  | [] => (none, types)
  | [dep] => (g.typeOf dep, types)
  | deps => types.join (deps.filterMap g.typeOf)

end Network

def Derivation.apply (types : Types) (id : TypeId) : Derivation → Option TypeId × Types
  | .identity => (some id, types)
  | .pointerOf =>
    let (id, types) := types.pointerTo id
    (some id, types)
  | .metaclass =>
    let (id, types) := types.metaclassOf id
    (some id, types)
  | .narrow f => f.apply types id

namespace Network

/-- The type that a node should have, if its dependencies give it one. -/
def derivedType (n : Network) (id : NodeId) : Option TypeId × Network :=
  match joinOfDependencies n.graph n.types id with
  | (none, types) => (none, { n with types })
  | (some join, types) =>
    let (type, types) := (n.graph.node id).derivation.apply types join
    (type, { n with types })

def propagationFuel (n : Network) : Nat :=
  (n.graph.size + 1) * (n.types.size + n.graph.size + 64)

end Network

namespace Binding

def modifyGraph (f : FlowGraph → FlowGraph) : Binding Unit :=
  modify fun n => { n with graph := f n.graph }

/-- Gives a node a type of which its observers do not know yet. -/
def commit (id : NodeId) (type : TypeId) : Binding Unit := do
  let n ← get
  let node := n.graph.node id
  if node.frozen && node.type ≠ some type then
    let frozen := match node.type with | some t => n.types.name t | none => "(untyped)"
    throw (.conflict id frozen (n.types.name type))
  modifyGraph fun g => g.modify id fun node => { node with type := some type, dirty := true }

/-- Gives a node the type that its dependencies derive, if that is another than it has. Says
whether it changed. -/
def refresh (id : NodeId) : Binding Bool := do
  let (type?, n) := (← get).derivedType id
  set n
  match type? with
  | none => return false
  | some type =>
    if n.graph.typeOf id = some type then return false
    else
      commit id type
      return true

/-- Tells an observer about a change. -/
def notify : Observer → Binding Unit
  | .node id => do let _ ← refresh id
  | .call id => modifyGraph fun g => g.enqueue id

def propagateWithin : Nat → NodeId → Binding Unit
  | 0, _ => throw .exhausted
  | fuel + 1, id => do
    let node := (← get).graph.node id
    if node.dirty then
      modifyGraph fun g => g.modify id fun node => { node with dirty := false }
      node.observers.forM notify
      node.observers.forM fun observer =>
        match observer with
        | .node id => propagateWithin fuel id
        | .call _ => pure ()

/-- Carries the change of a node on. -/
def propagate (id : NodeId) : Binding Unit := do
  propagateWithin (← get).propagationFuel id

/-- Gives a node a type directly. -/
def setType (id : NodeId) (type : TypeId) : Binding Unit := do
  if (← get).graph.typeOf id = some type then return
  commit id type
  propagate id

/-- Makes a node depend on others. -/
def bind (id : NodeId) (deps : List NodeId) : Binding Unit := do
  modifyGraph fun g => deps.foldl (fun g dep => g.addDependency id dep) g
  if ← refresh id then propagate id

end Binding

end TypeFlow
