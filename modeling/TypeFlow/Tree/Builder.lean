import TypeFlow.Decimal.Shortest
import TypeFlow.Tree.Basic

/-!
# Building trees

One function per construct that programs build by hand, without locations; `Tree.located` adds one.
-/

namespace TypeFlow.Tree

def bare (construct : Construct Tree) : Tree := .plain construct none

/-- The tree at a line and column of an unnamed source. -/
def located (tree : Tree) (line column : Nat) : Tree := tree.withLocation ⟨none, line, column⟩

def nop : Tree := bare .nop

def nil : Tree := bare .nilLiteral

def bool (value : Bool) : Tree := bare (.boolLiteral value)

def char (value : Char) : Tree := bare (.charLiteral value)

def number (text : String) (kind : NumberKind) : Tree := bare (.numberLiteral text kind)

def int32 (value : Int) : Tree := number (toString value) .i32

/-- Float literals are positional from `0.0001` to below `10 ^ 16`, and always have a fraction or an
exponent. -/
def floatLayout : Decimal.Layout where
  leastPositional := -4
  exponential := 16
  mark := "e"
  infinity := "inf"
  notANumber := "NaN"

def float64 (value : Binary64) : Tree := number (floatLayout.text value) .f64

def string (value : String) : Tree := bare (.stringLiteral value)

def symbol (value : String) : Tree := bare (.symbolLiteral value)

def sequence (items : List Tree) : Tree := bare (.sequence items)

def var (name : String) : Tree := bare (.var name)

def instanceVar (name : String) : Tree := bare (.instanceVar name)

def globalVar (name : String) : Tree := bare (.globalVar name)

/-- The text after the double colons at its start. -/
def dropColons : List Char → List Char
  | ':' :: ':' :: rest => dropColons rest
  | cs => cs

def splitAtColons : List Char → List (List Char)
  | [] => [[]]
  | ':' :: ':' :: rest => [] :: splitAtColons rest
  | c :: rest =>
    match splitAtColons rest with
    | part :: parts => (c :: part) :: parts
    | [] => [[c]]

/-- A constant path such as `Foo::Bar`; double colons at the start make it start at the root. -/
def path (text : String) : Tree :=
  let cs := text.toList
  bare (.path ((splitAtColons (dropColons cs)).map String.ofList) (cs.take 2 == [':', ':']))

def declareVar (name : String) (type : Tree) : Tree := bare (.declareVar name type)

def assign (target value : Tree) : Tree := bare (.assign target value)

def multiAssign (targets values : List Tree) : Tree := bare (.multiAssign targets values)

def conditional (cond : Tree) (onTrue onFalse : Option Tree) : Tree :=
  bare (.conditional cond onTrue onFalse none)

/-- The conditional that a short-circuit operator stands for. -/
def shortCircuit (operator : ShortCircuit) (cond : Tree) (onTrue onFalse : Option Tree) : Tree :=
  bare (.conditional cond onTrue onFalse (some operator))

def loop (cond : Tree) (body : Option Tree) : Tree := bare (.loop cond body false)

def breakOut (values : List Tree) : Tree := bare (.breakOut values)

def returnFrom (values : List Tree) : Tree := bare (.returnFrom values)

def yieldTo (values : List Tree) : Tree := bare (.yieldTo values)

def call (receiver : Option Tree) (name : String) (args : List Tree) : Tree :=
  bare (.call receiver name args none)

def callWithBlock (receiver : Option Tree) (name : String) (args : List Tree) (block : Tree) :
    Tree :=
  bare (.call receiver name args (some block))

def block (params : List String) (body : Option Tree) : Tree :=
  bare (.block (params.map var) body)

def methodDef (name : String) (params : List String) (body : Option Tree) : Tree :=
  bare (.methodDef none name params body none none)

def macroDef (name : String) (params : List String) (body : Option Tree) : Tree :=
  bare (.macroDef none name params body)

def classDef (name : String) (superclass body : Option Tree) : Tree :=
  bare (.classDef name superclass none false body)

def genericClassDef (name : String) (typeVars : List String) (body : Option Tree) : Tree :=
  bare (.classDef name none (some typeVars) false body)

def moduleDef (name : String) (typeVars : Option (List String)) (body : Option Tree) : Tree :=
  bare (.moduleDef name typeVars body)

def includeModule (name : Tree) : Tree := bare (.includeModule name)

def genericInstance (name : Tree) (args : List Tree) : Tree := bare (.genericInstance name args)

def isA (object type : Tree) : Tree := bare (.isA object type)

def typeOf (values : List Tree) : Tree := bare (.typeOf values)

def eitherValue (left right : Tree) : Tree := bare (.eitherValue left right)

end TypeFlow.Tree
