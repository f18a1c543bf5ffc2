import TypeFlow.Guard.Basic

/-!
# The flow of types

Nodes carry types. A node derives its type from the types of the nodes that it depends on, and
notifies its observers when it changes: the nodes that depend on it, and calls, which then wait in
a queue to be resolved again. A frozen node keeps its type for good.
-/

namespace TypeFlow

inductive Observer where
  | node (id : NodeId)
  | call (id : ExprId)
  deriving DecidableEq, Repr

/-- How a node derives its type from the join of its dependencies' types. -/
inductive Derivation where
  | identity
  | pointerOf
  | metaclass
  | narrow (f : Narrowing)
  deriving DecidableEq, Repr

structure FlowNode where
  type : Option TypeId := none
  dependencies : List NodeId := []
  observers : List Observer := []
  /-- What the expression of the node proves as a condition. -/
  guard : Option Guard := none
  frozen : Bool := false
  /-- Whether the type has changed without the observers' knowledge. -/
  dirty : Bool := false
  derivation : Derivation := .identity
  deriving DecidableEq, Repr

instance : Inhabited FlowNode := ⟨{}⟩

structure FlowGraph where
  nodes : Array FlowNode := #[]
  /-- The calls to resolve again, each once, in the order in which they were first notified. -/
  pending : List ExprId := []
  /-- The same calls as a set, in no particular order: who waits is looked up here. -/
  pendingSet : List ExprId := []

namespace FlowGraph

def empty : FlowGraph := {}

instance : Inhabited FlowGraph := ⟨empty⟩

def size (g : FlowGraph) : Nat := g.nodes.size

def node (g : FlowGraph) (id : NodeId) : FlowNode := g.nodes[id.index]?.getD default

def modify (g : FlowGraph) (id : NodeId) (f : FlowNode → FlowNode) : FlowGraph :=
  { g with nodes := g.nodes.modify id.index f }

def addNode (g : FlowGraph) (derivation : Derivation) : NodeId × FlowGraph :=
  (⟨g.size⟩, { g with nodes := g.nodes.push { derivation } })

/-- A new node that has a type, of which nobody is notified. -/
def addTyped (g : FlowGraph) (type : TypeId) : NodeId × FlowGraph :=
  (⟨g.size⟩, { g with nodes := g.nodes.push { type := some type } })

def typeOf (g : FlowGraph) (id : NodeId) : Option TypeId := (g.node id).type

def guardOf (g : FlowGraph) (id : NodeId) : Option Guard := (g.node id).guard

def setGuard (g : FlowGraph) (id : NodeId) (guard : Option Guard) : FlowGraph :=
  g.modify id fun n => { n with guard }

def freeze (g : FlowGraph) (id : NodeId) : FlowGraph :=
  g.modify id fun n => { n with frozen := true }

def addObserver (g : FlowGraph) (id : NodeId) (observer : Observer) : FlowGraph :=
  g.modify id fun n => { n with observers := insertLast n.observers observer }

def removeObserver (g : FlowGraph) (id : NodeId) (observer : Observer) : FlowGraph :=
  g.modify id fun n => { n with observers := n.observers.filter (· ≠ observer) }

/-- Makes a node depend on another, which then notifies it. -/
def addDependency (g : FlowGraph) (id dep : NodeId) : FlowGraph :=
  let g := g.modify id fun n => { n with dependencies := insertLast n.dependencies dep }
  g.addObserver dep (.node id)

/-- Removes dependencies; the node keeps the type it has. -/
def unbind (g : FlowGraph) (id : NodeId) (deps : List NodeId) : FlowGraph :=
  let g := g.modify id fun n =>
    { n with dependencies := n.dependencies.filter fun dep => ¬ dep ∈ deps }
  deps.foldl (fun g dep => g.removeObserver dep (.node id)) g

/-- Puts a call into the set, and last into the queue if it is new to the set. -/
def enqueue (g : FlowGraph) (call : ExprId) : FlowGraph :=
  { g with
    pending := if call ∈ g.pendingSet then g.pending else g.pending ++ [call]
    pendingSet := insertLast g.pendingSet call }

/-- The call that has waited longest, taken from the queue and from the set. -/
def nextCall? (g : FlowGraph) : Option (ExprId × FlowGraph) :=
  match g.pending with
  | [] => none
  | call :: rest =>
    some (call, { g with pending := rest, pendingSet := g.pendingSet.filter (· ≠ call) })

/-- Gives a type to every node that has none, and says how many there were. -/
def settleUntyped (g : FlowGraph) (bottom : TypeId) : Nat × FlowGraph :=
  (g.nodes.foldl (fun count n => if n.type.isNone then count + 1 else count) 0,
   { g with nodes := g.nodes.map fun n => { n with type := some (n.type.getD bottom) } })

end FlowGraph

end TypeFlow
