import TypeFlow.Inference.Walk

/-!
# Inference of a program

`Session.infer` takes a tree through four phases: it is lowered and walked, the constants that
nothing has read are evaluated, and every node that has no type by then gets `NoReturn`. A session
can be used for several trees, one after the other, also after one has failed.
-/

namespace TypeFlow

/-- Sizes at the end of a run. -/
structure RunStats where
  expressions : Nat
  nodes : Nat
  types : Nat
  /-- How many nodes had no type until the last phase. -/
  fixedNodes : Nat
  deriving DecidableEq, Repr

structure Inferred where
  root : ExprId
  stats : Option RunStats
  deriving DecidableEq, Repr

namespace Session

variable {α : Type}

/-- Runs a step from a frame; the session and the frame afterwards come with the outcome. -/
def runIn (s : Session) (setting : Setting) (frame : Frame) (step : Infer α) :
    Except Failure α × WalkState :=
  (step setting).run ⟨s, frame⟩

/-- Runs a step at the top level of the program. -/
def run (s : Session) (setting : Setting) (step : Infer α) : Except Failure α × Session :=
  let (result, state) := s.runIn setting {} step
  (result, state.session)

/-- The name of the type of an expression, if it has one. -/
def typeNameOf (s : Session) (id : ExprId) : Option String :=
  (s.program.typeOf id).map s.program.types.name

end Session

/-- A part of a run. What it did before it failed stays. -/
abbrev Phase := ExceptT Failure (StateM Session)

namespace Phase

/-- Takes a step at the top level of the program. -/
def ofStep {α : Type} (setting : Setting) (step : Infer α) : Phase α := fun s => s.run setting step

def lower (setting : Setting) (tree : Tree) : Phase ExprId := ofStep setting (Infer.lowerTree tree)

def walk (setting : Setting) (root : ExprId) : Phase Unit :=
  ofStep setting (Infer.walk Infer.depthBudget root)

/-- Evaluates the constants that the walk has left unread, unless the options forbid it. -/
def constants (setting : Setting) : Phase Unit :=
  if setting.options.inferUnreadConstants then
    ofStep setting (Infer.evaluateRemaining (Infer.walk Infer.depthBudget))
  else return

/-- Gives the nodes without a type their type and counts what there is. -/
def settle (options : Options) (root : ExprId) : Phase Inferred :=
  modifyGet fun s =>
    let (fixedNodes, p) := s.program.settleUntyped
    let stats : RunStats :=
      { expressions := p.exprs.size, nodes := p.graph.size, types := p.types.size, fixedNodes }
    ({ root, stats := if options.stats then some stats else none }, { s with program := p })

/-- All phases, one after the other. -/
def all (setting : Setting) (tree : Tree) : Phase Inferred := do
  let root ← lower setting tree
  walk setting root
  constants setting
  settle setting.options root

end Phase

def Session.infer (s : Session) (setting : Setting) (tree : Tree) :
    Except Failure Inferred × Session :=
  (Phase.all setting tree).run s

end TypeFlow
