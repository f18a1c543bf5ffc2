import TypeFlow.Inference.Expansion

/-!
# The walk

`walk` types an expression and everything below it: it does what the construct asks for, and then
resolves every call whose inputs have changed meanwhile. It goes at most `fuel` steps deep.
-/

namespace TypeFlow.Infer

section

variable (walk : Step)

/-- What is to be done for each construct. -/
def walkConstruct (id : ExprId) : Construct ExprId → Infer Unit
  | .nop => giveType id .nil
  | .nilLiteral => giveType id .nil
  | .boolLiteral _ => giveType id .bool
  | .charLiteral _ => giveType id .char
  | .numberLiteral _ kind => giveType id kind.type
  | .stringLiteral _ => giveType id .string
  | .symbolLiteral value => do
    modifyProgram fun p => p.noteSymbol value
    giveType id .symbol
  | .sequence items => walkSequence walk id items
  | .var name => walkVar id name
  | .instanceVar name => walkInstanceVar id name
  | .globalVar name => walkGlobalVar id name
  | .path names fromRoot => walkPath walk id names fromRoot
  | .declareVar name type => walkDeclareVar walk id name type
  | .assign target value => walkAssign walk id target value
  | .multiAssign targets values => walkMultiAssign walk id targets values
  | .conditional cond onTrue onFalse operator =>
    walkConditional walk id cond onTrue onFalse operator
  | .loop cond body _ => walkLoop walk id cond body
  | .breakOut values => walkBreak walk id values
  | .returnFrom values => walkReturn walk id values
  | .yieldTo values => walkYield walk id values
  | .call receiver name args block => walkCall walk id receiver name args block
  | .block params body => walkBlock walk id params body
  | .methodDef receiver name params _ _ _ => walkMethodDef walk id receiver name params
  | .macroDef receiver name params _ => walkMacroDef walk id receiver name params
  | .classDef name superclass typeVars isAbstract body =>
    walkClassDef walk id name superclass typeVars isAbstract body
  | .moduleDef name typeVars body => walkModuleDef walk id name typeVars body
  | .includeModule name => walkInclude walk id name
  | .libDef name libname body => walkLibDef walk id name libname body
  | .funDef name realName args returnType _ varargs =>
    walkFunDef walk id name realName args returnType varargs
  | .aliasDef name type pointers => walkAliasDef walk id name type pointers
  | .structDef name fields => walkFieldsDef walk id name fields .cStruct
  | .unionDef name fields => walkFieldsDef walk id name fields .cUnion
  | .enumDef name constants => walkEnumDef id name constants
  | .structGet name => walkFieldGet id name
  | .unionGet name => walkFieldGet id name
  | .structSet name => walkFieldSet id name
  | .unionSet name => walkFieldSet id name
  | .classOfSelf => walkClassOfSelf id
  | .allocate => walkAllocate id
  | .eitherValue left right => walkEither walk id left right
  | .typeUnion members => walkTypeUnion walk id members
  | .genericInstance name args => walkGenericInstance walk id name args
  | .isA object type => walkIsA walk id object type
  | .typeOf values => walkTypeOf walk id values
  | .pointerOf target => walkPointerOf walk id target
  | .pointerMalloc => walkSamePointer id
  | .pointerRealloc => walkSamePointer id
  | .pointerAdd => walkSamePointer id
  | .pointerGetValue => walkPointerGet id
  | .pointerSetValue => walkPointerSet id
  | .pointerCast => walkPointerCast id

end

def walk : Nat → Step
  | 0, _ => throw .exhausted
  | fuel + 1, id => do
    let construct ← construct id
    mapError (Diagnostic.placedAt (← locationOf id)) (walkConstruct (walk fuel) id construct)
    resolvePending (walk fuel) fuel

/-- How deep a walk may go. Every call, block and part of an expression goes one step deeper. -/
def depthBudget : Nat := 1000000

end TypeFlow.Infer
