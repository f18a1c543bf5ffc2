import TypeFlow.Diagnostic.Basic
import TypeFlow.Options
import TypeFlow.Program.InstanceVars

/-!
# Sessions

What a run works with. `Toolchain` are the parts of a compiler that inference asks: a parser and a
normalizer for generated code, a backend that makes generators for macros, and the choice of whether
calls are resolved. A `Session` holds a program together with what is remembered across its calls; a
`Frame` is where in the program the walk is.
-/

namespace TypeFlow

/-- Generated source that does not parse. -/
structure SyntaxFault where
  message : String
  location : Option Location
  deriving DecidableEq, Repr

def SyntaxFault.toError (e : SyntaxFault) : Diagnostic := .syntaxError e.message e.location

/-- Makes the source text for a call. -/
abbrev Expander := Program → ExprId → Except Diagnostic String

structure Toolchain where
  /-- Parses a source; it has a file name, and names of variables that it may use. -/
  parse : String → String → List String → Except SyntaxFault Tree
  normalize : Program → Tree → Tree × Program
  /-- The expander for the calls of a macro. -/
  buildExpander : Program → ExprId → Expander
  /-- Whether calls are bound to methods, or left alone. -/
  resolvesCalls : Bool

namespace Toolchain

/-- No parser, no normalizer and no backend. -/
def standard : Toolchain where
  parse _ file _ := .error ⟨s!"no parser available for {file}", none⟩
  normalize p tree := (tree, p)
  buildExpander _ _ := fun _ call => .error (.typeError .noGenerator (some call) none none)
  resolvesCalls := true

instance : Inhabited Toolchain := ⟨standard⟩

end Toolchain

/-! ### What was asked -/

/-- A call to be resolved, with the types that it has at that moment. -/
structure CallRequest where
  /-- The type of the receiver, for a call that has one. -/
  receiver : Option (Option TypeId)
  name : String
  args : List (Option TypeId)
  deriving DecidableEq, Repr

/-- What a session has asked of its tools, in order. -/
structure Journal where
  calls : Array CallRequest := #[]
  /-- File names and visible variables of the sources given to the parser. -/
  parses : Array (String × List String) := #[]
  builds : Nat := 0
  expansions : Nat := 0

/-! ### What is remembered -/

/-- A method with the types it is called with; each combination is typed once. -/
structure MethodInstance where
  owner : TypeId
  definition : ExprId
  args : List TypeId
  block : Option ExprId
  deriving DecidableEq, Repr

/-- What the resolution of calls remembers. -/
structure CallMemo where
  /-- The nodes of the methods' results. -/
  instances : OrderedMap MethodInstance NodeId := ∅
  /-- The nodes that calls are bound to. -/
  targets : OrderedMap ExprId (List NodeId) := ∅
  /-- One node per type, for results known beforehand. -/
  values : OrderedMap TypeId NodeId := ∅

/-- A macro and the kinds of its arguments; such calls share an expander. -/
structure ExpanderKey where
  definition : ExprId
  kinds : List Kind
  deriving DecidableEq, Repr

structure Session where
  program : Program := .initial
  memo : CallMemo := {}
  expanders : OrderedMap ExpanderKey Expander := ∅
  journal : Journal := {}

instance : Inhabited Session := ⟨{}⟩

/-! ### Where the walk is -/

structure Frame where
  /-- The nodes of local variables. -/
  vars : OrderedMap String NodeId := ∅
  /-- The type of `self` inside a method. -/
  scope : Option TypeId := none
  /-- The node that collects the results of the method being typed. -/
  result : Option NodeId := none
  /-- The block given to the method being typed. -/
  block : Option ExprId := none
  /-- The types of what the method being typed says it yields. -/
  yieldTypes : Option (List TypeId) := none
  /-- The block whose body is being walked. -/
  insideBlock : Option ExprId := none
  /-- The enclosing types, innermost first. -/
  enclosing : List TypeId := [.program]
  /-- The enclosing loops, innermost first. -/
  loops : List ExprId := []
  /-- What holds in the enclosing regions. -/
  guards : GuardStack := .initial
  deriving DecidableEq, Repr

namespace Frame

instance : Inhabited Frame := ⟨{}⟩

/-- The innermost enclosing type. -/
def innermostType (f : Frame) : TypeId := f.enclosing.headD .program

end Frame

end TypeFlow
