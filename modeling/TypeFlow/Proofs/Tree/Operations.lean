import Mathlib.Data.List.Chain
import TypeFlow.Tree.Builder
import TypeFlow.Tree.Printer

/-!
# Operators, as they are printed

`Operation` is a tree of variables, numbers and calls with a receiver and without a block: binary
operators, negations, index reads and methods. It is printed token by token (`toList_textAt`). The
printer writes no parentheses around an operand, so the text does not say how a chain of binary
operators was grouped, nor which part of it an index read was from: `regroup` groups all chains to
the left and takes index reads from the last operand alone, and neither changes the tokens
(`tokens_regroup`). A `Clear` operation is grouped like that.
-/

namespace TypeFlow

/-! ### Operations -/

/-- All but white space, digits and the signs that are written between names. -/
def isLetter (c : Char) : Bool :=
  !Text.isBlank c && !c.isDigit &&
    !(['+', '-', '*', '/', '<', '=', '(', ')', '[', ']', '.', ','].contains c)

structure Name where
  chars : List Char
  nonempty : chars ≠ []
  letters : ∀ c ∈ chars, isLetter c = true

def Name.text (n : Name) : String := String.ofList n.chars

theorem Name.beforeLast?_text (n : Name) : Text.beforeLast? '=' n.text = none := by
  unfold Text.beforeLast? Name.text
  rw [String.toList_ofList]
  rcases hlast : n.chars.reverse with _ | ⟨c, cs⟩
  · rfl
  · have hletter := n.letters c (List.mem_reverse.mp (hlast ▸ List.mem_cons_self))
    have hc : c ≠ '=' := fun heq => by rw [heq] at hletter; exact absurd hletter (by decide)
    exact if_neg hc

/-- A decimal number without a suffix. -/
structure Literal where
  negative : Bool
  digits : List Char
  nonempty : digits ≠ []
  decimal : ∀ c ∈ digits, c.isDigit = true

def Literal.chars (l : Literal) : List Char := (if l.negative then ['-'] else []) ++ l.digits

inductive Operator where
  | add | subtract | multiply | divide | less | equal
  deriving DecidableEq

def Operator.symbol : Operator → String
  | add => "+"
  | subtract => "-"
  | multiply => "*"
  | divide => "/"
  | less => "<"
  | equal => "=="

inductive Operation where
  | var (name : Name)
  | number (literal : Literal)
  | binary (left : Operation) (operator : Operator) (right : Operation)
  | negation (operand : Operation)
  | index (receiver position : Operation)
  | method (receiver : Operation) (name : Name) (word : Layout.isWord name.text = true)
      (args : List Operation)

/-- A method is called by its name, with however many arguments. -/
theorem Layout.call_eq_byName {name : String} (hword : Layout.isWord name = true) (text : String)
    (isCall : Bool) (args : List String) : Layout.call (some (text, isCall)) name args =
      Layout.receiver text isCall ++ Layout.callByName true name args := by
  have hread : name ≠ "[]" := fun heq => by rw [heq] at hword; exact absurd hword (by decide)
  have hwrite : name ≠ "[]=" := fun heq => by rw [heq] at hword; exact absurd hword (by decide)
  unfold Layout.call
  dsimp only
  rw [if_neg hread]
  split
  · rw [if_neg hwrite]
  · rw [if_pos hword]
  · rw [if_pos hword]
  · rfl

/-- An operator is written between its operands. -/
theorem Layout.call_symbol (operator : Operator) (text arg : String) (isCall : Bool) :
    Layout.call (some (text, isCall)) operator.symbol [arg] =
      Layout.binary text operator.symbol arg := by
  have hread : operator.symbol ≠ "[]" := by cases operator <;> decide
  have hword : ¬ Layout.isWord operator.symbol = true := by cases operator <;> decide
  unfold Layout.call
  dsimp only
  rw [if_neg hread, if_neg hword]

theorem Layout.toList_commas (s : String) (strings : List String) :
    (Layout.commas (s :: strings)).toList =
    s.toList ++ strings.flatMap fun s => ',' :: ' ' :: s.toList := by
  unfold Layout.commas
  rw [String.toList_intercalate]
  induction strings generalizing s with
  | nil => simp
  | cons s' strings ih =>
    rw [List.map_cons, List.map_cons, List.intercalate_cons_cons, ← List.map_cons, ih]
    simp

namespace Operation

/-- The arguments of a method count as its parts. -/
@[elab_as_elim]
theorem induction {motive : Operation → Prop} (var : ∀ name, motive (var name))
    (number : ∀ literal, motive (number literal))
    (binary : ∀ left operator right, motive left → motive right →
      motive (binary left operator right))
    (negation : ∀ operand, motive operand → motive (negation operand))
    (index : ∀ receiver position, motive receiver → motive position →
      motive (index receiver position))
    (method : ∀ receiver name word args, motive receiver → (∀ a ∈ args, motive a) →
      motive (method receiver name word args)) (t : Operation) : motive t :=
  @Operation.rec motive (fun args => ∀ a ∈ args, motive a) var number binary negation index method
    (fun _ h => nomatch h) (fun _ _ ht hrest => List.forall_mem_cons.mpr ⟨ht, hrest⟩) t

mutual

def tree : Operation → Tree
  | var name => .var name.text
  | number literal => .number (String.ofList literal.chars) .i32
  | binary left operator right => .call (some left.tree) operator.symbol [right.tree]
  | negation operand => .call (some operand.tree) "-@" []
  | index receiver position => .call (some receiver.tree) "[]" [position.tree]
  | method receiver name _ args => .call (some receiver.tree) name.text (trees args)

def trees : List Operation → List Tree
  | [] => []
  | t :: rest => t.tree :: trees rest

end

def isCall : Operation → Bool
  | var _ | number _ => false
  | _ => true

def isBinary : Operation → Bool
  | binary .. => true
  | _ => false

/-! ### Tokens -/

inductive Token where
  | word (name : Name)
  | numeral (literal : Literal)
  | operator (operator : Operator)
  /-- The sign of a negation with the parenthesis after it. -/
  | minus
  | dot | comma | leftParen | rightParen | leftBracket | rightBracket

def Token.chars : Token → List Char
  | word name => name.chars
  | numeral literal => literal.chars
  | operator o => ' ' :: o.symbol.toList ++ [' ']
  | minus => ['-', '(']
  | dot => ['.']
  | comma => [',', ' ']
  | leftParen => ['(']
  | rightParen => [')']
  | leftBracket => ['[']
  | rightBracket => [']']

mutual

def tokens : Operation → List Token
  | var name => [.word name]
  | number literal => [.numeral literal]
  | binary left operator right => left.tokens ++ .operator operator :: right.tokens
  | negation operand => .minus :: operand.tokens ++ [.rightParen]
  | index receiver position => receiver.tokens ++ .leftBracket :: position.tokens ++ [.rightBracket]
  | method receiver name _ args =>
    (if receiver.isCall then .leftParen :: receiver.tokens ++ [.rightParen] else receiver.tokens)
      ++ .dot :: .word name :: argTokens args

/-- No parentheses are written around no arguments. -/
def argTokens : List Operation → List Token
  | [] => []
  | t :: rest => .leftParen :: t.tokens ++ moreTokens rest

def moreTokens : List Operation → List Token
  | [] => [.rightParen]
  | t :: rest => .comma :: t.tokens ++ moreTokens rest

end

/-! ### The text, token by token -/

@[simp] theorem isCall_tree (t : Operation) : t.tree.isCall = t.isCall := by
  cases t <;> rfl

theorem texts_trees (depth : Nat) (args : List Operation) :
    Tree.texts depth (trees args) = args.map fun t => t.tree.textAt depth := by
  induction args with
  | nil => rfl
  | cons t args ih => exact congrArg (t.tree.textAt depth :: ·) ih

theorem moreTokens_chars {depth : Nat} {args : List Operation}
    (h : ∀ a ∈ args, (a.tree.textAt depth).toList = a.tokens.flatMap Token.chars) :
    (moreTokens args).flatMap Token.chars =
      (args.flatMap fun a => ',' :: ' ' :: (a.tree.textAt depth).toList) ++ [')'] := by
  induction args with
  | nil => rfl
  | cons a args ih =>
    obtain ⟨ha, hargs⟩ := List.forall_mem_cons.mp h
    simp only [moreTokens, List.flatMap_cons, List.flatMap_append, List.cons_append,
      ih hargs, ha, Token.chars, List.nil_append, List.append_assoc]

theorem textAt_var (depth : Nat) (name : String) : (Tree.var name).textAt depth = name := rfl

theorem textAt_number (depth : Nat) (text : String) :
    (Tree.number text .i32).textAt depth = text := rfl

theorem textAt_call (depth : Nat) (receiver : Tree) (name : String) (args : List Tree) :
    (Tree.call (some receiver) name args).textAt depth =
      Layout.call (some (receiver.textAt depth, receiver.isCall)) name (Tree.texts depth args) :=
  String.append_empty

theorem toList_textAt (depth : Nat) (t : Operation) :
    (t.tree.textAt depth).toList = t.tokens.flatMap Token.chars := by
  induction t using induction with
  | var name => simp [tree, tokens, textAt_var, Token.chars, Name.text]
  | number literal => simp [tree, tokens, textAt_number, Token.chars]
  | binary left operator right hleft hright =>
    simp [tree, tokens, textAt_call, Tree.texts, Layout.call_symbol operator, Layout.binary,
      Token.chars, hleft, hright]
  | negation operand h =>
    simp [tree, tokens, textAt_call, Tree.texts, Layout.call, Layout.isWord,
      Text.beforeLast?, Token.chars, h]
  | index receiver position hreceiver hposition =>
    simp [tree, tokens, textAt_call, Tree.texts, Layout.call, Layout.commas, Token.chars,
      hreceiver, hposition]
  | method receiver name word args hreceiver hargs =>
    have hargTokens : (Layout.callByName true name.text (Tree.texts depth (trees args))).toList =
        name.chars ++ (argTokens args).flatMap Token.chars := by
      unfold Layout.callByName
      rw [name.beforeLast?_text]
      cases args with
      | nil => simp [Layout.callByName.plain, trees, Tree.texts, argTokens, Name.text]
      | cons a args =>
        obtain ⟨ha, hargs⟩ := List.forall_mem_cons.mp hargs
        simp [Layout.callByName.plain, trees, Tree.texts, argTokens, Name.text,
          Layout.toList_commas, texts_trees,
          moreTokens_chars hargs, ha, Token.chars, List.flatMap_map]
    cases hcall : receiver.isCall <;>
      simp [tree, tokens, textAt_call, Layout.call_eq_byName word, Layout.receiver, hargTokens,
        hcall, hreceiver, Token.chars]

/-! ### Grouping to the left -/

/-- What an operand is the right side of. -/
abbrev Left := Option (Operation × Operator)

def join : Left × Operation → Operation
  | (none, t) => t
  | (some (left, operator), t) => binary left operator t

mutual

/-- The last operand of a chain of binary operators, and what comes before it. -/
def place : Operation → Left → Left × Operation
  | var name, left => (left, var name)
  | number literal, left => (left, number literal)
  | binary l operator r, left => r.place (some (join (l.place left), operator))
  | negation t, left => (left, negation (join (t.place none)))
  | index t i, left => ((t.place left).1, index (t.place left).2 (join (i.place none)))
  | method t name word args, left =>
    (left, method (join (t.place none)) name word (regroupAll args))

def regroupAll : List Operation → List Operation
  | [] => []
  | t :: rest => join (t.place none) :: regroupAll rest

end

/-- The operation as a reader takes it who groups from the left and reads an index from the last
operand alone. -/
def regroup (t : Operation) : Operation := join (t.place none)

theorem regroupAll_eq (args : List Operation) : regroupAll args = args.map regroup := by
  induction args with
  | nil => rfl
  | cons t args ih => exact congrArg (t.regroup :: ·) ih

theorem place_negation (t : Operation) (left : Left) :
    (negation t).place left = (left, negation t.regroup) := rfl

theorem place_index (t i : Operation) (left : Left) :
    (index t i).place left = ((t.place left).1, index (t.place left).2 i.regroup) := rfl

theorem place_method (t : Operation) (name : Name) (word : Layout.isWord name.text = true)
    (args : List Operation) (left : Left) :
    (method t name word args).place left =
      (left, method t.regroup name word (args.map regroup)) := by
  rw [← regroupAll_eq]
  rfl

/-- No right operand is a binary operator, and no index is read from one. -/
inductive Clear : Operation → Prop where
  | var (name : Name) : Clear (var name)
  | number (literal : Literal) : Clear (number literal)
  | binary {left right : Operation} (operator : Operator) : Clear left → Clear right →
      right.isBinary = false →
      Clear (binary left operator right)
  | negation {operand : Operation} : Clear operand → Clear (negation operand)
  | index {receiver position : Operation} : Clear receiver → Clear position →
      receiver.isBinary = false →
      Clear (index receiver position)
  | method {receiver : Operation} {name : Name} (word : Layout.isWord name.text = true)
      {args : List Operation} :
      Clear receiver → (∀ a ∈ args, Clear a) → Clear (method receiver name word args)

theorem place_of_clear {t : Operation} (h : Clear t) :
    (t.isBinary = false → ∀ left, t.place left = (left, t)) ∧ t.regroup = t := by
  induction h with
  | var | number => exact ⟨fun _ _ => rfl, rfl⟩
  | @binary left right operator _ _ hright ihleft ihright =>
    refine ⟨fun h => (nomatch h), ?_⟩
    rw [regroup, place, show join (left.place none) = left from ihleft.2, ihright.1 hright]
    rfl
  | @negation operand _ ih =>
    have hplace : ∀ left, (negation operand).place left = (left, negation operand) := fun left => by
      rw [place_negation, ih.2]
    exact ⟨fun _ => hplace, congrArg join (hplace none)⟩
  | @index receiver position _ _ hreceiver ihreceiver ihposition =>
    have hplace : ∀ left, (index receiver position).place left =
        (left, index receiver position) := fun left => by
      rw [place_index, ihposition.2, ihreceiver.1 hreceiver]
    exact ⟨fun _ => hplace, congrArg join (hplace none)⟩
  | @method receiver name word args _ _ ihreceiver ihargs =>
    have hplace : ∀ left, (method receiver name word args).place left =
        (left, method receiver name word args) :=
      fun left => by
        rw [place_method, ihreceiver.2, List.map_congr_left fun a ha =>
          (ihargs a ha).2, List.map_id']
    exact ⟨fun _ => hplace, congrArg join (hplace none)⟩

theorem clear_join {left : Left} {t : Operation}
    (hleft : ∀ l operator, left = some (l, operator) → Clear l) (ht : Clear t)
    (hoperand : t.isBinary = false) : Clear (join (left, t)) := by
  rcases left with _ | ⟨l, operator⟩
  · exact ht
  · exact .binary operator (hleft l operator rfl) ht hoperand

theorem clear_place (t : Operation) :
    ∀ left : Left, (∀ l operator, left = some (l, operator) → Clear l) →
    (∀ l operator, (t.place left).1 = some (l, operator) → Clear l) ∧ Clear (t.place left).2 ∧
      (t.place left).2.isBinary = false := by
  have hnone : ∀ l operator, (none : Left) = some (l, operator) → Clear l := fun _ _ h => nomatch h
  induction t using induction with
  | var name => exact fun left hleft => ⟨hleft, .var name, rfl⟩
  | number literal => exact fun left hleft => ⟨hleft, .number literal, rfl⟩
  | binary l operator r ihl ihr =>
    refine fun left hleft => ihr _ fun _ _ heq => ?_
    obtain ⟨hbefore, hlast, hoperand⟩ := ihl left hleft
    cases heq
    exact clear_join hbefore hlast hoperand
  | negation t ih =>
    obtain ⟨hbefore, hlast, hoperand⟩ := ih none hnone
    exact fun left hleft => ⟨hleft, .negation (clear_join hbefore hlast hoperand), rfl⟩
  | index t i iht ihi =>
    intro left hleft
    obtain ⟨hbefore, hlast, hoperand⟩ := iht left hleft
    obtain ⟨hbefore', hlast', hoperand'⟩ := ihi none hnone
    exact ⟨hbefore, .index hlast (clear_join hbefore' hlast' hoperand') hoperand, rfl⟩
  | method t name word args iht ihargs =>
    intro left hleft
    obtain ⟨hbefore, hlast, hoperand⟩ := iht none hnone
    rw [place_method]
    refine ⟨hleft, .method word (clear_join hbefore hlast hoperand) fun a ha => ?_, rfl⟩
    obtain ⟨b, hb, rfl⟩ := List.mem_map.mp ha
    obtain ⟨hbefore', hlast', hoperand'⟩ := ihargs b hb none hnone
    exact clear_join hbefore' hlast' hoperand'

theorem clear_regroup (t : Operation) : Clear t.regroup := by
  obtain ⟨hbefore, hlast, hoperand⟩ := clear_place t none fun _ _ h => nomatch h
  exact clear_join hbefore hlast hoperand

/-! ### Grouping leaves the tokens alone -/

def Left.tokens : Left → List Token
  | none => []
  | some (left, operator) => left.tokens ++ [.operator operator]

theorem tokens_join (left : Left) (t : Operation) :
    (Operation.join (left, t)).tokens = left.tokens ++ t.tokens := by
  rcases left with _ | ⟨l, operator⟩
  · rfl
  · simp [Operation.join, tokens, Left.tokens]

theorem isCall_join_place (t : Operation) : ∀ (left : Operation) (operator : Operator),
    (join (t.place (some (left, operator)))).isCall = true := by
  induction t using induction with
  | binary l operator r _ ihr => exact fun _ _ => ihr _ _
  | index t i =>
    intro left operator
    rw [place]
    cases (t.place (some (left, operator))).1 <;> rfl
  | _ => exact fun _ _ => rfl

theorem isCall_regroup (t : Operation) : t.regroup.isCall = t.isCall := by
  cases t with
  | binary l operator r => exact isCall_join_place r _ _
  | index t i =>
    rw [regroup, place]
    cases (t.place none).1 <;> rfl
  | _ => rfl

theorem argTokens_congr {f : Operation → Operation} {args : List Operation}
    (h : ∀ a ∈ args, (f a).tokens = a.tokens) : argTokens (args.map f) = argTokens args := by
  have hmore : ∀ args : List Operation, (∀ a ∈ args, (f a).tokens = a.tokens) →
      moreTokens (args.map f) = moreTokens args := by
    intro args h
    induction args with
    | nil => rfl
    | cons a args ih =>
      obtain ⟨ha, hargs⟩ := List.forall_mem_cons.mp h
      simp only [List.map_cons, moreTokens, ha, ih hargs]
  cases args with
  | nil => rfl
  | cons a args =>
    obtain ⟨ha, hargs⟩ := List.forall_mem_cons.mp h
    simp only [List.map_cons, argTokens, ha, hmore args hargs]

theorem tokens_place (t : Operation) : ∀ left : Left,
    (t.place left).1.tokens ++ (t.place left).2.tokens = left.tokens ++ t.tokens := by
  induction t using induction with
  | var | number => exact fun _ => rfl
  | binary l operator r ihl ihr =>
    intro left
    rw [place, ihr, Left.tokens, tokens_join, ihl left]
    simp [tokens]
  | negation t ih =>
    intro left
    have h : t.regroup.tokens = t.tokens := (tokens_join ..).trans (ih none)
    simp only [place_negation, tokens, h]
  | index t i iht ihi =>
    intro left
    have h : i.regroup.tokens = i.tokens := (tokens_join ..).trans (ihi none)
    simp only [place_index, tokens, h, ← List.append_assoc, iht left]
  | method t name word args iht ihargs =>
    intro left
    have ht : t.regroup.tokens = t.tokens := (tokens_join ..).trans (iht none)
    have hargs : argTokens (args.map regroup) = argTokens args :=
      argTokens_congr fun a ha => (tokens_join ..).trans (ihargs a ha none)
    simp only [place_method, tokens, isCall_regroup, ht, hargs]

theorem tokens_regroup (t : Operation) : t.regroup.tokens = t.tokens := by
  rw [regroup, tokens_join]
  exact tokens_place t none

end Operation

end TypeFlow
