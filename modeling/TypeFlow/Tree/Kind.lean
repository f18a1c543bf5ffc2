import TypeFlow.Tree.Basic

/-!
# Kinds of constructs

`Kind` and `SugarKind` name the constructs. A kind has a tag, which stands for it in JSON trees,
and a shape, which diagnostics show; both lists `all` are in the order of the table of tags.
`Construct.kind` forgets all but the kind.
-/

namespace TypeFlow

inductive Kind where
  | nop
  | nilLiteral
  | boolLiteral
  | charLiteral
  | numberLiteral
  | stringLiteral
  | symbolLiteral
  | sequence
  | var
  | instanceVar
  | globalVar
  | path
  | declareVar
  | assign
  | multiAssign
  | conditional
  | loop
  | breakOut
  | returnFrom
  | yieldTo
  | call
  | block
  | methodDef
  | macroDef
  | classDef
  | moduleDef
  | includeModule
  | libDef
  | funDef
  | aliasDef
  | structDef
  | unionDef
  | enumDef
  | structGet
  | structSet
  | unionGet
  | unionSet
  | classOfSelf
  | allocate
  | eitherValue
  | typeUnion
  | genericInstance
  | isA
  | typeOf
  | pointerOf
  | pointerMalloc
  | pointerRealloc
  | pointerGetValue
  | pointerSetValue
  | pointerAdd
  | pointerCast
  deriving DecidableEq, Repr

namespace Kind

def all : List Kind :=
  [.nop, .nilLiteral, .boolLiteral, .charLiteral, .numberLiteral, .stringLiteral, .symbolLiteral,
   .sequence, .var, .instanceVar, .globalVar, .path, .declareVar, .assign, .multiAssign,
   .conditional, .loop, .breakOut, .returnFrom, .yieldTo, .call, .block, .methodDef, .macroDef,
   .classDef, .moduleDef, .includeModule, .libDef, .funDef, .aliasDef, .structDef, .unionDef,
   .enumDef, .structGet, .structSet, .unionGet, .unionSet, .classOfSelf, .allocate, .eitherValue,
   .typeUnion, .genericInstance, .isA, .typeOf, .pointerOf, .pointerMalloc, .pointerRealloc,
   .pointerGetValue, .pointerSetValue, .pointerAdd, .pointerCast]

def tag : Kind → String
  | .nop => "nop"
  | .nilLiteral => "nil_literal"
  | .boolLiteral => "bool_literal"
  | .charLiteral => "char_literal"
  | .numberLiteral => "number_literal"
  | .stringLiteral => "string_literal"
  | .symbolLiteral => "symbol_literal"
  | .sequence => "expressions"
  | .var => "var"
  | .instanceVar => "instance_var"
  | .globalVar => "global"
  | .path => "ident"
  | .declareVar => "declare_var"
  | .assign => "assign"
  | .multiAssign => "multi_assign"
  | .conditional => "if"
  | .loop => "while"
  | .breakOut => "break"
  | .returnFrom => "return"
  | .yieldTo => "yield"
  | .call => "call"
  | .block => "block"
  | .methodDef => "def"
  | .macroDef => "macro"
  | .classDef => "class_def"
  | .moduleDef => "module_def"
  | .includeModule => "include"
  | .libDef => "lib_def"
  | .funDef => "fun_def"
  | .aliasDef => "type_def"
  | .structDef => "struct_def"
  | .unionDef => "union_def"
  | .enumDef => "enum_def"
  | .structGet => "struct_get"
  | .structSet => "struct_set"
  | .unionGet => "union_get"
  | .unionSet => "union_set"
  | .classOfSelf => "class_method"
  | .allocate => "allocate"
  | .eitherValue => "simple_or"
  | .typeUnion => "ident_union"
  | .genericInstance => "new_generic_class"
  | .isA => "is_a"
  | .typeOf => "type_merge"
  | .pointerOf => "pointer_of"
  | .pointerMalloc => "pointer_malloc"
  | .pointerRealloc => "pointer_realloc"
  | .pointerGetValue => "pointer_get_value"
  | .pointerSetValue => "pointer_set_value"
  | .pointerAdd => "pointer_add"
  | .pointerCast => "pointer_cast"

/-- The name in diagnostics. -/
def shape : Kind → String
  | .nop => "Nop"
  | .nilLiteral => "NilLiteral"
  | .boolLiteral => "BoolLiteral"
  | .charLiteral => "CharLiteral"
  | .numberLiteral => "NumberLiteral"
  | .stringLiteral => "StringLiteral"
  | .symbolLiteral => "SymbolLiteral"
  | .sequence => "Expressions"
  | .var => "Var"
  | .instanceVar => "InstanceVar"
  | .globalVar => "Global"
  | .path => "Ident"
  | .declareVar => "DeclareVar"
  | .assign => "Assign"
  | .multiAssign => "MultiAssign"
  | .conditional => "If"
  | .loop => "While"
  | .breakOut => "Break"
  | .returnFrom => "Return"
  | .yieldTo => "Yield"
  | .call => "Call"
  | .block => "Block"
  | .methodDef => "Def"
  | .macroDef => "Macro"
  | .classDef => "ClassDef"
  | .moduleDef => "ModuleDef"
  | .includeModule => "Include"
  | .libDef => "LibDef"
  | .funDef => "FunDef"
  | .aliasDef => "TypeDef"
  | .structDef => "StructDef"
  | .unionDef => "UnionDef"
  | .enumDef => "EnumDef"
  | .structGet => "StructGet"
  | .structSet => "StructSet"
  | .unionGet => "UnionGet"
  | .unionSet => "UnionSet"
  | .classOfSelf => "ClassMethod"
  | .allocate => "Allocate"
  | .eitherValue => "SimpleOr"
  | .typeUnion => "IdentUnion"
  | .genericInstance => "NewGenericClass"
  | .isA => "IsA"
  | .typeOf => "TypeMerge"
  | .pointerOf => "PointerOf"
  | .pointerMalloc => "PointerMalloc"
  | .pointerRealloc => "PointerRealloc"
  | .pointerGetValue => "PointerGetValue"
  | .pointerSetValue => "PointerSetValue"
  | .pointerAdd => "PointerAdd"
  | .pointerCast => "PointerCast"

/-- The fields of such a construct in JSON trees, in the order written. -/
def fieldNames : Kind → List String
  | .nop => []
  | .nilLiteral => []
  | .boolLiteral => ["value"]
  | .charLiteral => ["value"]
  | .numberLiteral => ["value", "kind"]
  | .stringLiteral => ["value"]
  | .symbolLiteral => ["value"]
  | .sequence => ["expressions"]
  | .var => ["name"]
  | .instanceVar => ["name"]
  | .globalVar => ["name"]
  | .path => ["names", "global"]
  | .declareVar => ["name", "declared_type"]
  | .assign => ["target", "value"]
  | .multiAssign => ["targets", "values"]
  | .conditional => ["cond", "then", "else", "binary"]
  | .loop => ["cond", "body", "run_once"]
  | .breakOut => ["exps"]
  | .returnFrom => ["exps"]
  | .yieldTo => ["exps"]
  | .call => ["obj", "name", "args", "block"]
  | .block => ["args", "body"]
  | .methodDef => ["receiver", "name", "args", "body", "return_type", "block_arg"]
  | .macroDef => ["receiver", "name", "args", "body"]
  | .classDef => ["name", "superclass", "type_vars", "abstract", "body"]
  | .moduleDef => ["name", "type_vars", "body"]
  | .includeModule => ["name"]
  | .libDef => ["name", "libname", "body"]
  | .funDef => ["name", "real_name", "args", "return_type", "ptr", "varargs"]
  | .aliasDef => ["name", "type", "ptr"]
  | .structDef => ["name", "fields"]
  | .unionDef => ["name", "fields"]
  | .enumDef => ["name", "constants"]
  | .structGet => ["name"]
  | .structSet => ["name"]
  | .unionGet => ["name"]
  | .unionSet => ["name"]
  | .classOfSelf => []
  | .allocate => []
  | .eitherValue => ["left", "right"]
  | .typeUnion => ["idents"]
  | .genericInstance => ["name", "type_vars"]
  | .isA => ["obj", "const"]
  | .typeOf => ["expressions"]
  | .pointerOf => ["var"]
  | .pointerMalloc => []
  | .pointerRealloc => []
  | .pointerGetValue => []
  | .pointerSetValue => []
  | .pointerAdd => []
  | .pointerCast => []

def ofTag? (tag : String) : Option Kind :=
  all.find? fun kind => kind.tag == tag

end Kind

inductive SugarKind where
  | and
  | or
  | require
  | rangeLiteral
  | case
  | when
  | regexpLiteral
  | arrayLiteral
  | hashLiteral
  | unless
  | stringInterpolation
  deriving DecidableEq, Repr

namespace SugarKind

def all : List SugarKind :=
  [.and, .or, .require, .rangeLiteral, .case, .when, .regexpLiteral, .arrayLiteral, .hashLiteral,
   .unless, .stringInterpolation]

def tag : SugarKind → String
  | .and => "and"
  | .or => "or"
  | .require => "require"
  | .rangeLiteral => "range_literal"
  | .case => "case"
  | .when => "when"
  | .regexpLiteral => "regexp_literal"
  | .arrayLiteral => "array_literal"
  | .hashLiteral => "hash_literal"
  | .unless => "unless"
  | .stringInterpolation => "string_interpolation"

/-- The name in diagnostics. -/
def shape : SugarKind → String
  | .and => "And"
  | .or => "Or"
  | .require => "Require"
  | .rangeLiteral => "RangeLiteral"
  | .case => "Case"
  | .when => "When"
  | .regexpLiteral => "RegexpLiteral"
  | .arrayLiteral => "ArrayLiteral"
  | .hashLiteral => "HashLiteral"
  | .unless => "Unless"
  | .stringInterpolation => "StringInterpolation"

/-- The fields of such a construct in JSON trees, in the order written. -/
def fieldNames : SugarKind → List String
  | .and => ["left", "right"]
  | .or => ["left", "right"]
  | .require => ["string"]
  | .rangeLiteral => ["from", "to", "exclusive"]
  | .case => ["cond", "whens", "else"]
  | .when => ["conds", "body"]
  | .regexpLiteral => ["value"]
  | .arrayLiteral => ["elements", "of"]
  | .hashLiteral => ["keys", "values", "of_key", "of_value"]
  | .unless => ["cond", "then", "else"]
  | .stringInterpolation => ["expressions"]

def ofTag? (tag : String) : Option SugarKind :=
  all.find? fun kind => kind.tag == tag

end SugarKind

def Construct.kind {α : Type} : Construct α → Kind
  | .nop .. => .nop
  | .nilLiteral .. => .nilLiteral
  | .boolLiteral .. => .boolLiteral
  | .charLiteral .. => .charLiteral
  | .numberLiteral .. => .numberLiteral
  | .stringLiteral .. => .stringLiteral
  | .symbolLiteral .. => .symbolLiteral
  | .sequence .. => .sequence
  | .var .. => .var
  | .instanceVar .. => .instanceVar
  | .globalVar .. => .globalVar
  | .path .. => .path
  | .declareVar .. => .declareVar
  | .assign .. => .assign
  | .multiAssign .. => .multiAssign
  | .conditional .. => .conditional
  | .loop .. => .loop
  | .breakOut .. => .breakOut
  | .returnFrom .. => .returnFrom
  | .yieldTo .. => .yieldTo
  | .call .. => .call
  | .block .. => .block
  | .methodDef .. => .methodDef
  | .macroDef .. => .macroDef
  | .classDef .. => .classDef
  | .moduleDef .. => .moduleDef
  | .includeModule .. => .includeModule
  | .libDef .. => .libDef
  | .funDef .. => .funDef
  | .aliasDef .. => .aliasDef
  | .structDef .. => .structDef
  | .unionDef .. => .unionDef
  | .enumDef .. => .enumDef
  | .structGet .. => .structGet
  | .structSet .. => .structSet
  | .unionGet .. => .unionGet
  | .unionSet .. => .unionSet
  | .classOfSelf .. => .classOfSelf
  | .allocate .. => .allocate
  | .eitherValue .. => .eitherValue
  | .typeUnion .. => .typeUnion
  | .genericInstance .. => .genericInstance
  | .isA .. => .isA
  | .typeOf .. => .typeOf
  | .pointerOf .. => .pointerOf
  | .pointerMalloc .. => .pointerMalloc
  | .pointerRealloc .. => .pointerRealloc
  | .pointerGetValue .. => .pointerGetValue
  | .pointerSetValue .. => .pointerSetValue
  | .pointerAdd .. => .pointerAdd
  | .pointerCast .. => .pointerCast

def Sugar.kind {α : Type} : Sugar α → SugarKind
  | .and .. => .and
  | .or .. => .or
  | .require .. => .require
  | .rangeLiteral .. => .rangeLiteral
  | .case .. => .case
  | .when .. => .when
  | .regexpLiteral .. => .regexpLiteral
  | .arrayLiteral .. => .arrayLiteral
  | .hashLiteral .. => .hashLiteral
  | .unless .. => .unless
  | .stringInterpolation .. => .stringInterpolation

end TypeFlow
