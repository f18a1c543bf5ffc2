import TypeFlow.Flow.Propagation
import TypeFlow.Tree.Kind
import TypeFlow.Types.Lookup

/-!
# Programs

A `Program` is all that inference knows about one program: its expressions, its types, the flow
graph, and what declarations and calls have recorded so far. Every expression owns one node of the
graph.
-/

namespace TypeFlow

structure Expr where
  construct : Construct ExprId
  location : Option Location
  node : NodeId
  deriving DecidableEq, Repr

instance : Inhabited Expr := ⟨⟨.nop, none, ⟨0⟩⟩⟩

/-- A constant's value is inferred when it is first read. -/
inductive ConstantState where
  | pending
  | evaluating
  | done
  deriving DecidableEq, Repr

/-- A constant and the surroundings it was declared in. -/
structure Constant where
  owner : TypeId
  name : String
  value : ExprId
  /-- The enclosing types, innermost first. -/
  enclosing : List TypeId
  scope : Option TypeId
  state : ConstantState
  deriving DecidableEq, Repr

instance : Inhabited Constant := ⟨⟨.program, "", ⟨0⟩, [], none, .done⟩⟩

structure Program extends Network where
  exprs : Array Expr
  /-- The symbols met so far, in order. -/
  symbols : List String := []
  globals : OrderedMap String NodeId := ∅
  constants : Array Constant := #[]
  /-- The constants being evaluated, innermost first. -/
  evaluating : List ConstantId := []
  /-- The code generated for calls. -/
  expansions : OrderedMap ExprId ExprId := ∅
  /-- The loops that something breaks out of. -/
  brokenLoops : List ExprId := []
  /-- The nodes that take the values of `break` inside blocks. -/
  blockBreaks : OrderedMap ExprId NodeId := ∅
  /-- The types of `self` where calls were written. -/
  callScopes : OrderedMap ExprId TypeId := ∅
  /-- How many expansions are being typed. -/
  expansionDepth : Nat := 0
  temporaries : Nat := 0

namespace Program

/-- A node of type `Nil`, for absent branches and missing values. -/
def nilNode : NodeId := ⟨0⟩

def initial : Program where
  types := .initial
  graph := (FlowGraph.empty.addTyped .nil).2
  exprs := #[]

instance : Inhabited Program := ⟨initial⟩

/-! ### Expressions -/

def expr (p : Program) (id : ExprId) : Expr := p.exprs[id.index]?.getD default

def construct (p : Program) (id : ExprId) : Construct ExprId := (p.expr id).construct

def location (p : Program) (id : ExprId) : Option Location := (p.expr id).location

def nodeOf (p : Program) (id : ExprId) : NodeId := (p.expr id).node

def typeOf (p : Program) (id : ExprId) : Option TypeId := p.graph.typeOf (p.nodeOf id)

def guardOf (p : Program) (id : ExprId) : Option Guard := p.graph.guardOf (p.nodeOf id)

/-- The node of a part that may be absent. -/
def partNode (p : Program) : Option ExprId → NodeId
  | some id => p.nodeOf id
  | none => nilNode

/-- How the node of an expression derives its type. -/
def derivationOf {α : Type} : Construct α → Derivation
  | .pointerOf _ => .pointerOf
  | .typeOf _ => .metaclass
  | _ => .identity

/-- Adds an expression with a node of its own. -/
def addExpr (p : Program) (construct : Construct ExprId) (location : Option Location) :
    ExprId × Program :=
  let (node, graph) := p.graph.addNode (derivationOf construct)
  (⟨p.exprs.size⟩, { p with graph, exprs := p.exprs.push { construct, location, node } })

/-- The statements of a sequence, or the expression itself. -/
def statements (p : Program) (id : ExprId) : List ExprId :=
  match p.construct id with
  | .sequence items => items
  | _ => [id]

/-- Drops the statements of a sequence after the first `count`. -/
def truncate (p : Program) (id : ExprId) (count : Nat) : Program :=
  { p with
    exprs := p.exprs.modify id.index fun e =>
      match e.construct with
      | .sequence items => { e with construct := .sequence (items.take count) }
      | _ => e }

def pathWithin (p : Program) : Nat → ExprId → String
  | 0, id => (p.construct id).kind.shape
  | fuel + 1, id =>
    match p.construct id with
    | .path names fromRoot => (if fromRoot then "::" else "") ++ "::".intercalate names
    | .var name | .instanceVar name | .globalVar name => name
    | .genericInstance name args =>
      p.pathWithin fuel name ++ "(" ++ ", ".intercalate (args.map (p.pathWithin fuel)) ++ ")"
    | c => c.kind.shape

/-- The text of a constant path or variable; of anything else the name of its shape. -/
def path (p : Program) (id : ExprId) : String := p.pathWithin (id.index + 1) id

/-! ### Nodes -/

def modifyTypes (p : Program) (f : Types → Types) : Program := { p with types := f p.types }

def modifyGraph (p : Program) (f : FlowGraph → FlowGraph) : Program := { p with graph := f p.graph }

def addNode (p : Program) (derivation : Derivation) : NodeId × Program :=
  let (id, graph) := p.graph.addNode derivation
  (id, { p with graph })

def addVar (p : Program) : NodeId × Program := p.addNode .identity

/-- A node that stands for a value of a type. -/
def addValue (p : Program) (type : TypeId) : NodeId × Program :=
  let (id, graph) := p.graph.addTyped type
  (id, { p with graph })

/-- The node that takes the values of `break` inside a block. -/
def breakNodeOf (p : Program) (block : ExprId) : NodeId × Program :=
  match p.blockBreaks.get? block with
  | some node => (node, p)
  | none =>
    let (node, p) := p.addVar
    (node, { p with blockBreaks := p.blockBreaks.insert block node })

/-- A variable name that no program uses. -/
def temporaryName (p : Program) : String × Program :=
  (s!"#temp_{p.temporaries + 1}", { p with temporaries := p.temporaries + 1 })

def noteSymbol (p : Program) (name : String) : Program :=
  { p with symbols := insertLast p.symbols name }

def settleUntyped (p : Program) : Nat × Program :=
  let (count, graph) := p.graph.settleUntyped .noReturn
  (count, { p with graph })

/-! ### Constants -/

def constant (p : Program) (id : ConstantId) : Constant := p.constants[id.index]?.getD default

def setConstantState (p : Program) (id : ConstantId) (state : ConstantState) : Program :=
  { p with constants := p.constants.modify id.index fun c => { c with state } }

def addConstant (p : Program) (c : Constant) : Program :=
  let id : ConstantId := ⟨p.constants.size⟩
  { p with types := p.types.addConstant c.owner c.name id, constants := p.constants.push c }

def pendingConstants (p : Program) : List ConstantId :=
  (List.range p.constants.size).map ConstantId.mk |>.filter fun id =>
    (p.constant id).state == .pending

/-- The name of a constant with the type that it was declared in. -/
def qualifiedName (p : Program) (id : ConstantId) : String :=
  let c := p.constant id
  if c.owner = .program then c.name else p.types.name c.owner ++ "::" ++ c.name

end Program

end TypeFlow
