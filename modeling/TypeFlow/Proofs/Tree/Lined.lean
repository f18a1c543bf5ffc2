import TypeFlow.Proofs.Tree.Encoded
import TypeFlow.Proofs.Tree.Laid

/-!
# The parts of printed trees

A `Lined` tree has no line break but those of the printer, and lists of expressions only where they
are lines of their own. `flushLines` counts the lines of its text that have no margin, however deep
it is. If the parts of a construct are `LaidOut`, so are the heads, arguments, bodies and members
that its text consists of.
-/

namespace TypeFlow

open Layout Text

/-! ### Words, operands and lines -/

/-- The names and the texts of literals. The line break that is a character literal is written as an
escape. -/
def Construct.words {α : Type} : Construct α → List String
  | .numberLiteral text _ => [text]
  | .stringLiteral value | .symbolLiteral value => [value]
  | .var name | .instanceVar name | .globalVar name | .declareVar name _ | .call _ name _
      _ | .aliasDef name _ _
  | .structGet name | .structSet name | .unionGet name | .unionSet name => [name]
  | .path names _ => names
  | .methodDef _ name params _ _ blockParam =>
    name :: (params ++ blockParam.toList.map BlockParam.name)
  | .macroDef _ name params _ => name :: params
  | .classDef name _ vars _ _ | .moduleDef name vars _ => name :: vars.getD []
  | .libDef name libname _ => name :: libname.toList
  | .funDef name realName args _ _ _ => name :: realName :: args.map Field.name
  | .structDef name fields | .unionDef name fields => name :: fields.map Field.name
  | .enumDef name constants => name :: constants.map EnumConstant.name
  | _ => []

def Sugar.words {α : Type} : Sugar α → List String
  | .regexpLiteral value => [value]
  | _ => []

/-- The parts other than bodies, branches and an assigned value, which alone may be lists of
expressions. -/
def Construct.operands {α : Type} : Construct α → List α
  | .assign target _ => [target]
  | .conditional cond _ _ _ | .loop cond _ _ => [cond]
  | .block params _ => params
  | .methodDef receiver _ _ _ returnType blockParam =>
    receiver.toList ++ returnType.toList ++ blockParam.toList.flatMap BlockParam.inputs
  | .macroDef receiver _ _ _ => receiver.toList
  | .classDef _ superclass _ _ _ => superclass.toList
  | .moduleDef .. | .libDef .. => []
  | c => c.children

def Sugar.operands {α : Type} : Sugar α → List α
  | .case subject clauses _ => subject :: clauses
  | .when conds _ => conds
  | .unless cond _ _ => [cond]
  | s => s.children

/-- No name and no literal breaks a line, and lists of expressions are only where their lines are
lines of a body. -/
inductive Tree.Lined : Tree → Prop where
  | plain {c : Construct Tree} {location : Option Location} : (∀ word ∈ c.words,
      '\n' ∉ word.toList) →
      (∀ part ∈ c.operands, part.isSequence = false) → (∀ part ∈ c.children, Lined part) →
        Lined (.plain c location)
  | sugar {s : Sugar Tree} {location : Option Location} : (∀ word ∈ s.words, '\n' ∉ word.toList) →
      (∀ part ∈ s.operands, part.isSequence = false) → (∀ part ∈ s.children, Lined part) →
        Lined (.sugar s location)

/-- The parts that are printed: of a hash no key without a value, and its types only together. -/
def Sugar.shown {α : Type} : Sugar α → List α
  | .hashLiteral keys values keyType valueType =>
    ((keys.zip values).flatMap fun pair => [pair.1, pair.2])
      ++ (if keyType.isSome && valueType.isSome then keyType.toList ++ valueType.toList else [])
  | s => s.children

/-- The end of a loop without a body that is run once first is on a line without a margin. -/
def Construct.flushLines {α : Type} : Construct α → Nat
  | .loop _ none true => 1
  | _ => 0

/-- A `case` starts a line without a margin below its head and another below its `else` branch, and
what follows a `when` clause is on one. -/
def Sugar.flushLines {α : Type} : Sugar α → Nat
  | .case _ _ otherwise => if otherwise.isSome then 2 else 1
  | .when .. => 1
  | _ => 0

theorem Construct.mem_children_of_mem_operands {α : Type} {c : Construct α} {part : α}
    (h : part ∈ c.operands) : part ∈ c.children := by
  cases c with
  | methodDef receiver name params body returnType blockParam =>
    cases blockParam <;>
    · simp only [operands, children, Option.toList_none, Option.toList_some, List.flatMap_nil,
        List.flatMap_singleton, List.mem_append] at h ⊢
      tauto
  | assign | conditional | loop | block | macroDef | classDef =>
    simp only [operands, children, List.mem_append, List.mem_cons, List.not_mem_nil] at h ⊢
    tauto
  | moduleDef | libDef => cases h
  | _ => exact h

theorem Sugar.mem_children_of_mem_operands {α : Type} {s : Sugar α} {part : α}
    (h : part ∈ s.operands) : part ∈ s.children := by
  cases s with
  | case | when | «unless» =>
    simp only [operands, children, List.mem_append, List.mem_cons,
      List.not_mem_nil, or_false] at h ⊢
    tauto
  | _ => exact h

theorem Sugar.mem_children_of_mem_shown {α : Type} {s : Sugar α} {part : α} (h : part ∈ s.shown) :
    part ∈ s.children := by
  cases s with
  | hashLiteral keys values keyType valueType =>
    rcases List.mem_append.mp h with h | h
    · obtain ⟨⟨key, value⟩, hpair, hpart⟩ := List.mem_flatMap.mp h
      obtain ⟨hkey, hvalue⟩ := List.of_mem_zip hpair
      simp only [List.mem_cons, List.not_mem_nil, or_false] at hpart
      rcases hpart with rfl | rfl
      · exact List.mem_append_left _ hkey
      · exact List.mem_append_right _ (List.mem_append_left _ hvalue)
    · split at h
      · exact List.mem_append_right _ (List.mem_append_right _ h)
      · cases h
  | _ => exact h

theorem Sugar.sizeOf_lt_of_mem_children {α : Type} [SizeOf α] {s : Sugar α} {a : α}
    (h : a ∈ s.children) : sizeOf a < sizeOf s := by
  have hoption : ∀ o : Option α, a ∈ o.toList → sizeOf a < sizeOf o :=
    fun _ => sizeOf_lt_of_mem_toList
  have hlist : ∀ as : List α, a ∈ as → sizeOf a < sizeOf as := fun _ => List.sizeOf_lt_of_mem
  cases s <;>
    simp only [children, List.mem_append, List.mem_cons, List.not_mem_nil, or_false] at h <;>
  · simp only [and.sizeOf_spec, or.sizeOf_spec, require.sizeOf_spec,
      rangeLiteral.sizeOf_spec, case.sizeOf_spec,
      when.sizeOf_spec, arrayLiteral.sizeOf_spec, hashLiteral.sizeOf_spec, unless.sizeOf_spec,
      stringInterpolation.sizeOf_spec]
    grind

namespace Tree

/-- The lines of the tree that have no margin, at whatever depth it is printed. -/
def flushLines : Tree → Nat
  | .plain c _ => c.flushLines + (c.children.attach.map fun ⟨part, _⟩ => part.flushLines).sum
  | .sugar s _ => s.flushLines + (s.shown.attach.map fun ⟨part, _⟩ => part.flushLines).sum
termination_by tree => sizeOf tree
decreasing_by
  · have := Construct.sizeOf_lt_of_mem_children ‹_›
    rw [Tree.plain.sizeOf_spec]
    omega
  · have := Sugar.sizeOf_lt_of_mem_children (Sugar.mem_children_of_mem_shown ‹_›)
    rw [Tree.sugar.sizeOf_spec]
    omega

theorem flushLines_plain (c : Construct Tree) (location : Option Location) :
    (plain c location).flushLines = c.flushLines + (c.children.map flushLines).sum := by
  rw [flushLines]
  simp

theorem flushLines_sugar (s : Sugar Tree) (location : Option Location) :
    (sugar s location).flushLines = s.flushLines + (s.shown.map flushLines).sum := by
  rw [flushLines]
  simp

/-! ### The text of parts -/

theorem texts_eq (depth : Nat) (trees : List Tree) :
    texts depth trees = trees.map fun t => t.textAt depth := by
  induction trees with
  | nil => rfl
  | cons t trees ih => exact congrArg (t.textAt depth :: ·) ih

theorem fieldTexts_eq (depth : Nat) (fields : List (Field Tree)) :
    fieldTexts depth fields = fields.map (fieldText depth) := by
  induction fields with
  | nil => rfl
  | cons field fields ih => exact congrArg (fieldText depth field :: ·) ih

/-- The tree is written within a line, although it may end on another one. -/
abbrev WithinLine (t : Tree) : Prop := Inline t.flushLines fun depth => t.textAt depth

/-- Within a line, a tree that is not a list of expressions; a list is lines below a line. -/
structure LaidOut (t : Tree) : Prop where
  inline : t.isSequence = false → t.WithinLine
  below : Beneath t.flushLines fun depth => bodyText depth (some t)

section Parts
variable {trees : List Tree} {o : Option Tree} {m : Nat}

theorem inline_commas (h : ∀ t ∈ trees, t.WithinLine) :
    Inline (trees.map flushLines).sum fun depth => commas (texts depth trees) := by
  simp only [texts_eq]
  exact .intercalate (by decide) h

theorem inline_between {before after : String} (hbefore : '\n' ∉ before.toList)
    (hafter : '\n' ∉ after.toList) (h : ∀ t ∈ o.toList, t.WithinLine) :
    Inline (o.toList.map flushLines).sum fun depth => between depth before after o := by
  cases o with
  | none => exact .word (by decide)
  | some t =>
    simp only [between]
    refine .cast ?_ (((Inline.word hbefore).append (h t List.mem_cons_self)).append (.word hafter))
    simp

theorem beneath_bodyText (h : ∀ t ∈ o.toList, t.LaidOut) :
    Beneath (o.toList.map flushLines).sum fun depth => bodyText depth o := by
  cases o with
  | none => exact .nil
  | some t => exact (h t List.mem_cons_self).below

end Parts

/-! ### The text of a call -/

section Calls
variable {trees : List Tree} {name : String}

theorem inline_callByName (hname : '\n' ∉ name.toList) (hasReceiver : Bool)
    (h : ∀ t ∈ trees, t.WithinLine) :
    Inline (trees.map flushLines).sum fun depth => callByName hasReceiver name
      (texts depth trees) := by
  have hargs := inline_commas h
  have hplain : Inline (trees.map flushLines).sum fun depth => callByName.plain hasReceiver name
      (texts depth trees) := by
    have hparens : Inline (trees.map flushLines).sum fun depth =>
        name ++ "(" ++ commas (texts depth trees) ++ ")" :=
      .cast (by simp) ((((Inline.word hname).append (.word (by decide))).append hargs).append
        (.word (by decide)))
    unfold callByName.plain
    cases trees with
    | nil =>
      cases hasReceiver
      · exact hparens
      · exact .word hname
    | cons t trees =>
      cases hasReceiver <;> exact hparens
  unfold callByName
  cases hbefore : beforeLast? '=' name with
  | none => exact hplain
  | some setter =>
    dsimp only
    split
    · exact hplain
    · refine .cast ?_ (((Inline.word (break_not_mem_beforeLast? hname hbefore)).append
        (.word (by decide))).append hargs)
      simp

theorem inline_call (object : Option Tree) (hname : '\n' ∉ name.toList)
    (hobject : ∀ t ∈ object.toList, t.WithinLine) (h : ∀ t ∈ trees, t.WithinLine) :
    Inline ((object.toList ++ trees).map flushLines).sum fun depth =>
      Layout.call (objectText depth object) name (texts depth trees) := by
  rcases object with _ | receiver
  · exact inline_callByName hname false h
  have hreceiver := hobject receiver List.mem_cons_self
  have hbyName : Inline (receiver.flushLines + (trees.map flushLines).sum) fun depth =>
      Layout.receiver (receiver.textAt depth) receiver.isCall ++ callByName true name
        (texts depth trees) := by
    refine .append ?_ (inline_callByName hname true h)
    unfold Layout.receiver
    cases receiver.isCall
    · exact hreceiver.append (.word (by decide))
    · refine .cast ?_ ((((Inline.word (by decide)).append hreceiver).append
        (.word (by decide))).append (.word (by decide)))
      simp
  rw [Option.toList_some, List.singleton_append, List.map_cons, List.sum_cons]
  simp only [objectText]
  unfold Layout.call
  dsimp only
  split
  · exact .cast (by simp) (((hreceiver.append (.word (by decide))).append (inline_commas h)).append
      (.word (by decide)))
  rcases trees with _ | ⟨first, _ | ⟨second, _ | ⟨third, rest⟩⟩⟩ <;> simp only [texts] at hbyName ⊢
  · split
    · exact hbyName
    · have hoperator : '\n' ∉ ((beforeLast? '@' name).getD name).toList := by
        cases hbefore : beforeLast? '@' name with
        | none => exact hname
        | some before => exact break_not_mem_beforeLast? hname hbefore
      refine .cast ?_
        ((((Inline.word hoperator).append (.word (by decide))).append hreceiver).append
          (.word (by decide)))
      simp
  · split
    · exact hbyName
    · have hfirst := h first List.mem_cons_self
      unfold Layout.binary
      refine .cast ?_
        ((((hreceiver.append (.word (by decide))).append (.word hname)).append
          (.word (by decide))).append hfirst)
      simp
  · split
    · have hfirst := h first List.mem_cons_self
      have hsecond := h second (List.mem_cons_of_mem _ List.mem_cons_self)
      refine .cast ?_ ((((hreceiver.append (.word (by decide))).append hfirst).append
        (.word (by decide))).append hsecond)
      simp [Nat.add_assoc]
    · exact hbyName
  · exact hbyName

end Calls

/-! ### Heads, bodies and members -/

section Constructs
variable {trees : List Tree} {o : Option Tree} {m : Nat} {head : Nat → String}

/-- Nothing is written around an empty list. -/
theorem inline_listed {before after : String} (hbefore : '\n' ∉ before.toList)
    (hafter : '\n' ∉ after.toList) (h : ∀ t ∈ trees, t.WithinLine) :
    Inline (trees.map flushLines).sum fun depth =>
      if trees.isEmpty then "" else before ++ commas (texts depth trees) ++ after := by
  cases trees with
  | nil => exact .word (by decide)
  | cons t trees =>
    exact .cast (by simp) (((Inline.word hbefore).append (inline_commas h)).append (.word hafter))

theorem inline_keyword {word : String} (hword : '\n' ∉ word.toList)
    (h : ∀ t ∈ trees, t.WithinLine) :
    Inline (trees.map flushLines).sum fun depth => keyword word (texts depth trees) := by
  cases trees with
  | nil => exact .word hword
  | cons t trees =>
    exact .cast (by simp)
      (((Inline.word hword).append (.word (by decide))).append (inline_commas h))

theorem inline_binary {left right : Tree} {operator : String} (hoperator : '\n' ∉ operator.toList)
    (hleft : left.WithinLine) (hright : right.WithinLine) :
    Inline (([left, right].map flushLines).sum) fun depth =>
      binary (left.textAt depth) operator (right.textAt depth) := by
  refine .cast ?_
    ((((hleft.append (.word (by decide))).append (.word hoperator)).append
      (.word (by decide))).append hright)
  simp

/-- A body below a head, and the end. -/
theorem inline_body (hhead : Inline m head) (hopens : Opens (head 0))
    (h : ∀ t ∈ o.toList, t.LaidOut) : Inline (m + (o.toList.map flushLines).sum) fun depth =>
      head depth ++ "\n" ++ bodyText depth o ++ indentation depth ++ "end" :=
  .between hhead.laid hopens (beneath_bodyText h) (.word (by decide)) (by decide)

theorem inline_conditional {word : String} (hword : '\n' ∉ word.toList) (hopens : Opens word)
    {cond : Tree} {onTrue onFalse : Option Tree} (hcond : cond.WithinLine)
    (hparts : ∀ t ∈ onTrue.toList ++ onFalse.toList, t.LaidOut) :
    Inline ((cond :: (onTrue.toList ++ onFalse.toList)).map flushLines).sum fun depth =>
      word ++ cond.textAt depth ++ "\n" ++ bodyText depth onTrue
        ++ elseClause (indentation depth) onFalse.isSome (bodyText depth onFalse) ++
          indentation depth ++ "end" := by
  obtain ⟨hbody, helse⟩ := List.forall_mem_append.mp hparts
  have hhead := (Inline.word hword).append hcond
  cases onFalse with
  | none =>
    refine .cast (by simp) (.of_eq (fun depth => ?_) (inline_body hhead (hopens.append _) hbody))
    simp [elseClause]
  | some branch =>
    have htail : Inline _ fun depth => "else" ++ "\n" ++ bodyText depth (some branch) ++
        indentation depth ++ "end" :=
      inline_body (.word (by decide)) (by decide) helse
    have h := Inline.between hhead.laid (hopens.append _) (beneath_bodyText hbody) htail.laid
      (.append _ (by decide))
    refine .cast (by simp [Nat.add_assoc]) (.of_eq (fun depth => ?_) h)
    have helse : "else\n" = "else" ++ "\n" := rfl
    simp only [elseClause, Option.isSome_some, if_true, helse, String.append_assoc]

theorem inline_field {field : Field Tree} (hname : '\n' ∉ field.name.toList)
    (h : field.type.WithinLine) :
    Inline field.type.flushLines fun depth => fieldText depth field := by
  obtain ⟨name, type, pointers⟩ := field
  have hstars : '\n' ∉ (stars pointers).toList := break_not_mem_copies pointers (by decide)
  simp only [fieldText]
  exact .cast (by simp)
    ((((Inline.word hname).append (.word (by decide))).append h).append (.word hstars))

/-- A loop whose body comes first. Without a body its end has no margin. -/
theorem inline_runOnce {cond : Tree} {body : Option Tree} (hcond : cond.WithinLine)
    (hbody : ∀ t ∈ body.toList, t.LaidOut) :
    Inline ((Construct.loop cond body true).flushLines +
        ((cond :: body.toList).map flushLines).sum) fun depth =>
      runOnceText depth body ++ cond.textAt depth := by
  have hbegin : Inline 0 fun _ => "begin" := .word (by decide)
  have hopens : Opens "begin" := by decide
  cases body with
  | none =>
    have hend : Inline _ fun depth => "end while " ++ cond.textAt depth :=
      (Inline.word (by decide)).append hcond
    refine ⟨.of_eq (fun depth => ?_) (.cast ?_ (hbegin.laid.before .nil hend.laid)),
      fun hzero => ?_⟩
    · simp [runOnceText, ← String.append_assoc]
    · simp [Construct.flushLines]
    · simp [Construct.flushLines] at hzero
  | some t =>
    have ht := hbody t List.mem_cons_self
    have hwhile : Inline 0 fun _ => " while " := .word (by decide)
    cases hlist : t.isSequence with
    | false =>
      refine .cast ?_ (.of_eq (fun depth => ?_) (((ht.inline hlist).append hwhile).append hcond))
      · simp [Construct.flushLines, Nat.add_comm]
      · simp [runOnceText, hlist]
    | true =>
      have hlines := inline_body (o := some t) hbegin hopens (List.forall_mem_singleton.mpr ht)
      refine .cast ?_ (.of_eq (fun depth => ?_) ((hlines.append hwhile).append hcond))
      · simp [Construct.flushLines, Nat.add_comm]
      · simp [runOnceText, bodyText, hlist, String.append_assoc]

/-- The members of a declaration are lines of their own. -/
theorem inline_members {α : Type} {N : α → Nat} {F : α → Nat → String} {as : List α} {head : String}
    (hhead : '\n' ∉ head.toList) (hopens : Opens head) (h : ∀ a ∈ as, Inline (N a) (F a)) :
    Inline (as.map N).sum fun depth => members depth head (as.map fun a => F a (depth + 1)) := by
  have hbelow := Beneath.join fun a ha => (h a ha).laid
  have hend : Inline 0 fun _ => "end" := .word (by decide)
  refine .cast (by simp) (.of_eq (fun depth => ?_)
    (.between (.word hhead) hopens hbelow hend.laid (by decide)))
  simp [members, Function.comp_def]

theorem inline_fields {fields : List (Field Tree)} {head : String} (hhead : '\n' ∉ head.toList)
    (hopens : Opens head) (hnames : ∀ name ∈ fields.map Field.name, '\n' ∉ name.toList)
    (h : ∀ t ∈ fields.map Field.type, t.WithinLine) :
    Inline ((fields.map Field.type).map flushLines).sum fun depth =>
      members depth head (fieldTexts (depth + 1) fields) := by
  simp only [fieldTexts_eq, List.map_map]
  exact inline_members (F := fun field depth => fieldText depth field) hhead hopens fun field hf =>
    inline_field (hnames _ (List.mem_map_of_mem hf)) (h _ (List.mem_map_of_mem hf))

theorem inline_blockParam {p : BlockParam Tree} (hname : '\n' ∉ p.name.toList)
    (h : ∀ t ∈ p.inputs, t.WithinLine) :
    Inline (p.inputs.map flushLines).sum fun depth => blockParamText depth p := by
  obtain ⟨name, inputs⟩ := p
  simp only [blockParamText]
  exact .cast (by simp)
    (((Inline.word (by decide)).append (.word hname)).append
      (inline_listed (by decide) (by decide) h))

/-- The parameters of a method and its block parameter, in parentheses if there are any. -/
theorem inline_params {params : List String} {blockParam : Option (BlockParam Tree)}
    (hwords : ∀ word ∈ params ++ blockParam.toList.map BlockParam.name, '\n' ∉ word.toList)
    (h : ∀ t ∈ blockParam.toList.flatMap BlockParam.inputs, t.WithinLine) :
    Inline ((blockParam.toList.flatMap BlockParam.inputs).map flushLines).sum fun depth =>
      if params.isEmpty && blockParam.isNone then ""
      else "(" ++ commas (params ++ blockParamTexts depth blockParam) ++ ")" := by
  obtain ⟨hparams, hblock⟩ := List.forall_mem_append.mp hwords
  cases blockParam with
  | none =>
    simp only [blockParamTexts, List.append_nil, Option.isNone_none, Bool.and_true]
    split
    · exact .word (by decide)
    · exact ((Inline.word (by decide)).append (inline_names (by decide) hparams)).append
        (.word (by decide))
  | some p =>
    rw [Option.toList_some, List.flatMap_singleton] at h ⊢
    -- Each parameter comes with its number of flush lines, which is none but for the last.
    have hall : ∀ a ∈ params.map (fun name => ((0, fun _ => name) : Nat × (Nat → String))) ++
        [((p.inputs.map flushLines).sum, fun depth => blockParamText depth p)], Inline a.1 a.2 := by
      refine List.forall_mem_append.mpr ⟨List.forall_mem_map.mpr fun name hname =>
        .word (hparams name hname), ?_⟩
      exact List.forall_mem_singleton.mpr (inline_blockParam (hblock p.name List.mem_cons_self) h)
    have hcommas : Inline (p.inputs.map flushLines).sum fun depth =>
        commas (params ++ [blockParamText depth p]) := by
      have hlist :=
        Inline.intercalate (N := fun a : Nat × (Nat → String) => a.1) (F := fun a => a.2)
        (show '\n' ∉ ", ".toList by decide) hall
      simpa [commas, Function.comp_def, List.map_const'] using hlist
    simp only [blockParamTexts, Option.isNone_some, Bool.and_false, Bool.false_eq_true, if_false]
    exact .cast (by simp) (((Inline.word (by decide)).append hcommas).append (.word (by decide)))

/-- An external function up to its return type. -/
theorem inline_funHead {name realName : String} {args : List (Field Tree)} {varargs : Bool}
    (hname : '\n' ∉ name.toList) (hreal : '\n' ∉ realName.toList)
    (hfields : ∀ name ∈ args.map Field.name, '\n' ∉ name.toList)
    (h : ∀ t ∈ args.map Field.type, t.WithinLine) :
    Inline ((args.map Field.type).map flushLines).sum fun depth =>
      "fun " ++ name ++ (if name = realName then "" else " = " ++ realName)
        ++ (if args.isEmpty then ""
            else "(" ++ commas (fieldTexts depth args) ++
              (if varargs then ", ..." else "") ++ ")") := by
  have hother : Inline 0 fun _ => if name = realName then "" else " = " ++ realName := by
    split
    · exact .word (by decide)
    · exact (Inline.word (by decide)).append (.word hreal)
  have hdots : '\n' ∉ (if varargs then ", ..." else "").toList := by cases varargs <;> decide
  have hargs : Inline ((args.map Field.type).map flushLines).sum fun depth =>
      commas (fieldTexts depth args) := by
    simp only [fieldTexts_eq, List.map_map]
    exact .intercalate (F := fun field depth => fieldText depth field) (by decide) fun field hf =>
      inline_field (hfields _ (List.mem_map_of_mem hf)) (h _ (List.mem_map_of_mem hf))
  refine .cast (by simp) ((((Inline.word (by decide)).append (.word hname)).append hother).append
    (n := ((args.map Field.type).map flushLines).sum) ?_)
  cases args with
  | nil => exact .word (by decide)
  | cons field args =>
    exact .cast (by simp)
      ((((Inline.word (by decide)).append hargs).append (.word hdots)).append (.word (by decide)))

end Constructs

end Tree
end TypeFlow
