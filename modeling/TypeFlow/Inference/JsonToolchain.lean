import TypeFlow.Inference.Session

/-!
# Generated code as JSON

With the toolchain `Toolchain.json` generated code is the JSON text of a tree, and the body of a
macro is a string literal that holds this text. There is no normalizer, so that trees must not
contain sugar.
-/

namespace TypeFlow.Toolchain

/-- Reads a tree; a text that is none is refused as a whole. -/
def parseJson (source file : String) : Except SyntaxFault Tree :=
  match Tree.ofJson? source with
  | some tree => .ok tree
  | none => .error ⟨"invalid syntax tree", some ⟨some file, 1, 1⟩⟩

/-- The text that the body of a macro consists of. -/
def template? (p : Program) (definition : ExprId) : Option String :=
  match p.construct definition with
  | .macroDef _ _ _ (some body) =>
    match p.construct body with
    | .stringLiteral text => some text
    | _ => none
  | _ => none

def expandTemplate (template : Option String) : Expander := fun p call =>
  match template with
  | some text => .ok text
  | none => .error (.typeError .templateNotText (some call) (p.location call) none)

def json : Toolchain :=
  { standard with
    parse := fun source file _ => parseJson source file
    buildExpander := fun p definition => expandTemplate (template? p definition) }

end TypeFlow.Toolchain
