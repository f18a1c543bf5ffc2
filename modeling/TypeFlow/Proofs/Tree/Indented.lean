import TypeFlow.Proofs.Tree.Lined

/-!
# Indented trees

A construct whose parts are `LaidOut` is written within a line (`inline_constructText`), and so is
sugar (`inline_sugarText`); lists of expressions are lines of their own. So all `Lined` trees are
`LaidOut`.
-/

namespace TypeFlow

open Layout Text

namespace Tree

/-! ### The text of a construct -/

variable {c : Construct Tree}

/-- The construct is written within a line, although it may end on another one. -/
abbrev InlineConstruct (c : Construct Tree) : Prop :=
  Inline (c.flushLines + (c.children.map flushLines).sum) fun depth => constructText depth c

section Constructs
variable {name : String} {body : Option Tree}

/-- An assigned list of expressions is written between `begin` and `end`. -/
theorem inline_assign {target value : Tree} (htarget : target.WithinLine) (hvalue : value.LaidOut) :
    InlineConstruct (.assign target value) := by
  have hright : Inline value.flushLines fun depth =>
      if value.isSequence then "begin\n" ++ value.textAt (depth + 1) ++ indentation depth ++ "end"
      else value.textAt depth := by
    cases hlist : value.isSequence with
    | false => exact hvalue.inline hlist
    | true =>
      have hbody : Inline _ fun depth => "begin" ++ "\n" ++ bodyText depth (some value) ++
          indentation depth ++ "end" :=
        inline_body (.word (by decide)) (by decide) (List.forall_mem_singleton.mpr hvalue)
      exact .cast (by simp) (.of_eq (fun depth => by simp [bodyText, hlist]) hbody)
  exact .cast (by simp [Construct.children, Construct.flushLines])
    ((htarget.append (.word (by decide))).append hright)

theorem inline_loop {cond : Tree} (runOnce : Bool) (hcond : cond.WithinLine)
    (hbody : ∀ t ∈ body.toList, t.LaidOut) : InlineConstruct (.loop cond body runOnce) := by
  cases runOnce with
  | false =>
    have hopens : Opens "while " := by decide
    exact .cast (by simp [Construct.children, Construct.flushLines])
      (inline_body ((Inline.word (by decide)).append hcond) (hopens.append _) hbody)
  | true => exact inline_runOnce hcond hbody

theorem inline_block {params : List Tree} (hparams : ∀ t ∈ params, t.WithinLine)
    (hbody : ∀ t ∈ body.toList, t.LaidOut) : InlineConstruct (.block params body) := by
  have hhead : Inline _ fun depth =>
      "do" ++ (if params.isEmpty then "" else " |" ++ commas (texts depth params) ++ "|") :=
    (Inline.word (by decide)).append (inline_listed (by decide) (by decide) hparams)
  have hopens : Opens "do" := by decide
  exact .cast (by simp [Construct.children, Construct.flushLines])
    (inline_body hhead (hopens.append _) hbody)

/-- What a method or a macro is defined on. -/
theorem inline_owner {owner : Option Tree} (h : ∀ t ∈ owner.toList, t.WithinLine) :
    Inline (owner.toList.map flushLines).sum fun depth => between depth "" "." owner :=
  inline_between (by decide) (by decide) h

theorem inline_methodDef {owner returnType : Option Tree} {params : List String}
    {blockParam : Option (BlockParam Tree)} (hname : '\n' ∉ name.toList)
    (hparams : ∀ word ∈ params ++ blockParam.toList.map BlockParam.name, '\n' ∉ word.toList)
    (howner : ∀ t ∈ owner.toList, t.WithinLine) (hreturn : ∀ t ∈ returnType.toList, t.WithinLine)
    (hblock : ∀ t ∈ blockParam.toList.flatMap BlockParam.inputs, t.WithinLine)
    (hbody : ∀ t ∈ body.toList, t.LaidOut) :
    InlineConstruct (.methodDef owner name params body returnType blockParam) := by
  have hhead :=
    ((((Inline.word (show '\n' ∉ "def ".toList by decide)).append (inline_owner howner)).append
    (.word hname)).append (inline_params hparams hblock)).append
    (inline_between (show '\n' ∉ " : ".toList by decide) (show '\n' ∉ "".toList by decide) hreturn)
  have hopens : Opens "def " := by decide
  refine .cast ?_ (inline_body hhead ((((hopens.append _).append _).append _).append _) hbody)
  cases blockParam <;>
  · simp [Construct.children, Construct.flushLines]
    omega

theorem inline_macroDef {owner : Option Tree} {params : List String} (hname : '\n' ∉ name.toList)
    (hparams : ∀ word ∈ params, '\n' ∉ word.toList) (howner : ∀ t ∈ owner.toList, t.WithinLine)
    (hbody : ∀ t ∈ body.toList, t.LaidOut) :
    InlineConstruct (.macroDef owner name params body) := by
  have hparens : Inline 0 fun _ => if params.isEmpty then "" else "(" ++ commas params ++ ")" := by
    split
    · exact .word (by decide)
    · exact ((Inline.word (by decide)).append (inline_names (by decide) hparams)).append
        (.word (by decide))
  have hhead :=
    (((Inline.word (show '\n' ∉ "macro ".toList by decide)).append (inline_owner howner)).append
    (.word hname)).append hparens
  have hopens : Opens "macro " := by decide
  exact .cast (by simp [Construct.children, Construct.flushLines])
    (inline_body hhead (((hopens.append _).append _).append _) hbody)

theorem inline_classDef {superclass : Option Tree} {vars : Option (List String)} {isAbstract : Bool}
    (hname : '\n' ∉ name.toList) (hvars : ∀ word ∈ vars.getD [], '\n' ∉ word.toList)
    (hsuperclass : ∀ t ∈ superclass.toList, t.WithinLine) (hbody : ∀ t ∈ body.toList, t.LaidOut) :
    InlineConstruct (.classDef name superclass vars isAbstract body) := by
  have habstract : Inline 0 fun _ => (if isAbstract then "abstract " else "") ++ "class " :=
    .word (by cases isAbstract <;> decide)
  have hopens : Opens ((if isAbstract then "abstract " else "") ++ "class ") := by
    cases isAbstract <;> decide
  have hhead := ((habstract.append (.word hname)).append (inline_typeVars hvars)).append
    (inline_between (show '\n' ∉ " < ".toList by decide)
      (show '\n' ∉ "".toList by decide) hsuperclass)
  exact .cast (by simp [Construct.children, Construct.flushLines])
    (inline_body hhead (((hopens.append _).append _).append _) hbody)

theorem inline_moduleDef {vars : Option (List String)} (hname : '\n' ∉ name.toList)
    (hvars : ∀ word ∈ vars.getD [], '\n' ∉ word.toList) (hbody : ∀ t ∈ body.toList, t.LaidOut) :
    InlineConstruct (.moduleDef name vars body) := by
  have hhead := ((Inline.word (show '\n' ∉ "module ".toList by decide)).append (.word hname)).append
    (inline_typeVars hvars)
  have hopens : Opens "module " := by decide
  exact .cast (by simp [Construct.children, Construct.flushLines])
    (inline_body hhead ((hopens.append _).append _) hbody)

theorem inline_libDef {libname : Option String} (hname : '\n' ∉ name.toList)
    (hlib : ∀ word ∈ libname.toList, '\n' ∉ word.toList) (hbody : ∀ t ∈ body.toList, t.LaidOut) :
    InlineConstruct (.libDef name libname body) := by
  have hhead := (Inline.word (show '\n' ∉ "lib ".toList by decide)).append (.word hname)
  have hopens : Opens "lib " := by decide
  cases libname with
  | none =>
    have hlines :=
      inline_body (hhead.append (.word (show '\n' ∉ "".toList by decide)))
        ((hopens.append _).append _) hbody
    exact .cast (by simp [Construct.children, Construct.flushLines]) hlines
  | some l =>
    have hquoted := ((Inline.word (show '\n' ∉ "(\x27".toList by decide)).append
      (.word (hlib l List.mem_cons_self))).append (.word (show '\n' ∉ "\x27)".toList by decide))
    exact .cast (by simp [Construct.children, Construct.flushLines])
      (inline_body (hhead.append hquoted) ((hopens.append _).append _) hbody)

theorem inline_enumDef {constants : List EnumConstant} (hname : '\n' ∉ name.toList)
    (hconstants : ∀ word ∈ constants.map EnumConstant.name, '\n' ∉ word.toList) :
    InlineConstruct (.enumDef name constants) := by
  have hopens : Opens "enum " := by decide
  have hhead : '\n' ∉ ("enum " ++ name).toList := by simp [hname]
  have hlines :=
    inline_members (N := fun _ => 0) (F := fun constant _ => enumConstant constant)
      hhead (hopens.append _)
    fun constant hmem =>
      .word (break_not_mem_enumConstant (hconstants _ (List.mem_map_of_mem hmem)))
  exact .cast (by simp [Construct.children, Construct.flushLines, List.map_const']) hlines

end Constructs

theorem inline_constructText (hlines : ∀ items, c ≠ .sequence items)
    (hwords : ∀ word ∈ c.words, '\n' ∉ word.toList)
    (hoperands : ∀ part ∈ c.operands, part.isSequence = false)
    (hparts : ∀ part ∈ c.children, part.LaidOut) : InlineConstruct c := by
  have h : ∀ part ∈ c.operands, part.WithinLine := fun part hpart =>
    (hparts part (Construct.mem_children_of_mem_operands hpart)).inline (hoperands part hpart)
  cases c with
  | sequence items => exact absurd rfl (hlines items)
  | nop | nilLiteral | classOfSelf | allocate | pointerMalloc | pointerRealloc
      | pointerGetValue | pointerSetValue
  | pointerAdd | pointerCast => exact .word (by decide)
  | boolLiteral value => cases value <;> exact .word (by decide)
  | charLiteral value =>
    exact ((Inline.word (by decide)).append (.word (break_not_mem_charText value))).append
      (.word (by decide))
  | numberLiteral text kind =>
    have htext := hwords text List.mem_cons_self
    have hsuffix : '\n' ∉ kind.suffix.toList := by cases kind <;> decide
    simp only [InlineConstruct, constructText]
    split
    · exact .word htext
    · exact ((Inline.word htext).append (.word (by decide))).append (.word hsuffix)
  | stringLiteral value =>
    have hvalue := break_not_mem_escapeQuotes (hwords value List.mem_cons_self)
    exact ((Inline.word (by decide)).append (.word hvalue)).append (.word (by decide))
  | symbolLiteral value =>
    exact (Inline.word (by decide)).append (.word (hwords value List.mem_cons_self))
  | var name | instanceVar name | globalVar name => exact .word (hwords name List.mem_cons_self)
  | path names fromRoot =>
    simp only [InlineConstruct, constructText]
    refine .append (m := 0) ?_ (inline_names (by decide) hwords)
    split <;> exact .word (by decide)
  | declareVar name type =>
    have hname := hwords name List.mem_cons_self
    exact .cast (by simp [Construct.children, Construct.flushLines])
      (((Inline.word hname).append (.word (by decide))).append (h type List.mem_cons_self))
  | assign target value =>
    exact inline_assign (h target List.mem_cons_self)
      (hparts value (List.mem_cons_of_mem _ List.mem_cons_self))
  | multiAssign targets values =>
    obtain ⟨htargets, hvalues⟩ := List.forall_mem_append.mp h
    exact .cast (by simp [Construct.children, Construct.flushLines])
      (((inline_commas htargets).append (.word (by decide))).append (inline_commas hvalues))
  | conditional cond onTrue onFalse operator =>
    exact .cast (by simp [Construct.children, Construct.flushLines])
      (inline_conditional (by decide) (by decide) (h cond List.mem_cons_self)
        (List.forall_mem_cons.mp hparts).2)
  | loop cond body runOnce =>
    exact inline_loop runOnce (h cond List.mem_cons_self) (List.forall_mem_cons.mp hparts).2
  | breakOut values =>
    exact .cast (by simp [Construct.children, Construct.flushLines]) (inline_keyword (by decide) h)
  | returnFrom values =>
    exact .cast (by simp [Construct.children, Construct.flushLines]) (inline_keyword (by decide) h)
  | yieldTo values =>
    exact .cast (by simp [Construct.children, Construct.flushLines]) (inline_keyword (by decide) h)
  | call receiver name args block =>
    obtain ⟨hcall, hblock⟩ := List.forall_mem_append.mp h
    obtain ⟨hreceiver, hargs⟩ := List.forall_mem_append.mp hcall
    have hname := hwords name List.mem_cons_self
    exact .cast (by simp [Construct.children, Construct.flushLines, Nat.add_assoc])
      ((inline_call receiver hname hreceiver hargs).append
        (inline_between (by decide) (by decide) hblock))
  | block params body => exact inline_block h (List.forall_mem_append.mp hparts).2
  | methodDef owner name params body returnType blockParam =>
    have hbody : ∀ t ∈ body.toList, t.LaidOut :=
      fun t ht => hparts t (by simp [Construct.children, ht])
    obtain ⟨h, hblock⟩ := List.forall_mem_append.mp h
    obtain ⟨howner, hreturn⟩ := List.forall_mem_append.mp h
    obtain ⟨hname, hparams⟩ := List.forall_mem_cons.mp hwords
    exact inline_methodDef hname hparams howner hreturn hblock hbody
  | macroDef owner name params body =>
    obtain ⟨hname, hparams⟩ := List.forall_mem_cons.mp hwords
    exact inline_macroDef hname hparams h (List.forall_mem_append.mp hparts).2
  | classDef name superclass vars isAbstract body =>
    obtain ⟨hname, hvars⟩ := List.forall_mem_cons.mp hwords
    exact inline_classDef hname hvars h (List.forall_mem_append.mp hparts).2
  | moduleDef name vars body =>
    obtain ⟨hname, hvars⟩ := List.forall_mem_cons.mp hwords
    exact inline_moduleDef hname hvars hparts
  | includeModule name =>
    exact .cast (by simp [Construct.children, Construct.flushLines])
      ((Inline.word (by decide)).append (h name List.mem_cons_self))
  | libDef name libname body =>
    obtain ⟨hname, hlib⟩ := List.forall_mem_cons.mp hwords
    exact inline_libDef hname hlib hparts
  | funDef name realName args returnType pointers varargs =>
    obtain ⟨hname, hnames⟩ := List.forall_mem_cons.mp hwords
    obtain ⟨hreal, hfields⟩ := List.forall_mem_cons.mp hnames
    obtain ⟨hargs, hreturn⟩ := List.forall_mem_append.mp h
    exact .cast (by simp [Construct.children, Construct.flushLines])
      ((inline_funHead hname hreal hfields hargs).append
        (inline_between (by decide) (break_not_mem_copies pointers (by decide)) hreturn))
  | aliasDef name type pointers =>
    have hname := hwords name List.mem_cons_self
    have hstars : '\n' ∉ (stars pointers).toList := break_not_mem_copies pointers (by decide)
    exact .cast (by simp [Construct.children, Construct.flushLines])
      (((((Inline.word (by decide)).append (.word hname)).append (.word (by decide))).append
        (h type List.mem_cons_self)).append (.word hstars))
  | structDef name fields =>
    obtain ⟨hname, hfields⟩ := List.forall_mem_cons.mp hwords
    have hopens : Opens "struct " := by decide
    have hhead : '\n' ∉ ("struct " ++ name).toList := by simp [hname]
    exact .cast (by simp [Construct.children, Construct.flushLines])
      (inline_fields hhead (hopens.append _) hfields h)
  | unionDef name fields =>
    obtain ⟨hname, hfields⟩ := List.forall_mem_cons.mp hwords
    have hopens : Opens "union " := by decide
    have hhead : '\n' ∉ ("union " ++ name).toList := by simp [hname]
    exact .cast (by simp [Construct.children, Construct.flushLines])
      (inline_fields hhead (hopens.append _) hfields h)
  | enumDef name constants =>
    obtain ⟨hname, hconstants⟩ := List.forall_mem_cons.mp hwords
    exact inline_enumDef hname hconstants
  | structGet name | unionGet name =>
    exact (Inline.word (by decide)).append (.word (hwords name List.mem_cons_self))
  | structSet name | unionSet name =>
    exact ((Inline.word (by decide)).append (.word (hwords name List.mem_cons_self))).append
      (.word (by decide))
  | eitherValue left right =>
    have hright := h right (List.mem_cons_of_mem _ List.mem_cons_self)
    exact .cast (by simp [Construct.children, Construct.flushLines])
      (inline_binary (by decide) (h left List.mem_cons_self) hright)
  | typeUnion types =>
    simp only [InlineConstruct, constructText, texts_eq]
    exact .cast (by simp [Construct.children, Construct.flushLines]) (.intercalate (by decide) h)
  | genericInstance name args =>
    obtain ⟨hname, hargs⟩ := List.forall_mem_cons.mp h
    exact .cast (by simp [Construct.children, Construct.flushLines])
      (((hname.append (.word (by decide))).append (inline_commas hargs)).append (.word (by decide)))
  | isA object type =>
    have htype := h type (List.mem_cons_of_mem _ List.mem_cons_self)
    exact .cast (by simp [Construct.children, Construct.flushLines])
      ((((h object List.mem_cons_self).append (.word (by decide))).append htype).append
        (.word (by decide)))
  | typeOf values =>
    exact .cast (by simp [Construct.children, Construct.flushLines, Construct.operands])
      (((Inline.word (by decide)).append (inline_commas h)).append (.word (by decide)))
  | pointerOf target =>
    exact .cast (by simp [Construct.children, Construct.flushLines])
      ((h target List.mem_cons_self).append (.word (by decide)))

/-! ### The text of sugar -/

section Sugar
variable {trees : List Tree}

theorem inline_join (h : ∀ t ∈ trees, t.WithinLine) :
    Inline (trees.map flushLines).sum fun depth => String.join (texts depth trees) := by
  simp only [texts_eq]
  exact .join h

/-- The ends of a `case`, from its `else` branch on, have no margins. -/
theorem laid_otherwise {otherwise : Option Tree} (h : ∀ t ∈ otherwise.toList, t.LaidOut) :
    Laid ((if otherwise.isSome then 1 else 0) + (otherwise.toList.map flushLines).sum) fun depth =>
      elseClause "" otherwise.isSome (bodyText depth otherwise) ++ "end" := by
  cases otherwise with
  | none => exact .word (by decide)
  | some branch =>
    have hbranch := (Laid.word (show '\n' ∉ "else".toList by decide)).before (beneath_bodyText h)
      (.word (show '\n' ∉ "end".toList by decide))
    refine .cast ?_ (.of_eq (fun depth => ?_) hbranch)
    · simp [Nat.add_comm]
    · simp [elseClause]

theorem inline_case {subject : Tree} {clauses : List Tree} {otherwise : Option Tree}
    (hsubject : subject.WithinLine) (hclauses : ∀ t ∈ clauses, t.WithinLine)
    (hotherwise : ∀ t ∈ otherwise.toList, t.LaidOut) :
    Inline ((Sugar.case subject clauses otherwise).flushLines
        + ((subject :: (clauses ++ otherwise.toList)).map flushLines).sum) fun depth =>
      sugarText depth (.case subject clauses otherwise) := by
  have hhead := (Inline.word (show '\n' ∉ "case ".toList by decide)).append hsubject
  have hlaid :=
    hhead.laid.before .nil ((inline_join hclauses).laid.append (laid_otherwise hotherwise))
  refine ⟨.cast ?_ (.of_eq (fun depth => ?_) hlaid), fun hzero => ?_⟩
  · cases otherwise <;> simp [Sugar.flushLines] <;> omega
  · simp [sugarText, String.append_assoc]
  · cases otherwise <;> simp [Sugar.flushLines] at hzero

theorem inline_when {conds : List Tree} {body : Option Tree}
    (hconds : ∀ t ∈ conds, t.WithinLine) (hbody : ∀ t ∈ body.toList, t.LaidOut) :
    Inline ((Sugar.when conds body).flushLines +
        ((conds ++ body.toList).map flushLines).sum) fun depth =>
      sugarText depth (.when conds body) := by
  have hhead := (Inline.word (show '\n' ∉ "when ".toList by decide)).append (inline_commas hconds)
  have hlaid := hhead.laid.before (beneath_bodyText hbody) (.word (show '\n' ∉ "".toList by decide))
  refine ⟨.cast ?_ (.of_eq (fun depth => ?_) hlaid), fun hzero => ?_⟩
  · simp [Sugar.flushLines, Nat.add_comm]
  · simp [sugarText]
  · simp [Sugar.flushLines] at hzero

theorem inline_pairs {pairs : List (Tree × Tree)}
    (h : ∀ t ∈ pairs.flatMap fun pair => [pair.1, pair.2], t.WithinLine) :
    Inline ((pairs.flatMap fun pair => [pair.1, pair.2]).map flushLines).sum fun depth =>
      commas (pairs.map fun pair => pair.1.textAt depth ++ " => " ++ pair.2.textAt depth) := by
  have hsum : ((pairs.flatMap fun pair => [pair.1, pair.2]).map flushLines).sum =
      (pairs.map fun pair => pair.1.flushLines + pair.2.flushLines).sum := by
    clear h
    induction pairs with
    | nil => rfl
    | cons pair pairs ih => simp [ih, Nat.add_assoc]
  rw [hsum]
  refine .intercalate (F := fun (pair : Tree × Tree) depth => pair.1.textAt depth ++ " => " ++
    pair.2.textAt depth) (by decide) fun pair hpair => ?_
  have hkey := h pair.1 (List.mem_flatMap.mpr ⟨pair, hpair, List.mem_cons_self⟩)
  have hvalue :=
    h pair.2 (List.mem_flatMap.mpr ⟨pair, hpair, List.mem_cons_of_mem _ List.mem_cons_self⟩)
  exact .cast (by simp) ((hkey.append (.word (by decide))).append hvalue)

theorem inline_hash {keys values : List Tree} {keyType valueType : Option Tree}
    (hkeys : ∀ t ∈ keys, t.WithinLine) (hvalues : ∀ t ∈ values, t.WithinLine)
    (hkeyType : ∀ t ∈ keyType.toList, t.WithinLine)
    (hvalueType : ∀ t ∈ valueType.toList, t.WithinLine) :
    Inline ((TypeFlow.Sugar.hashLiteral keys values keyType valueType).shown.map
        flushLines).sum fun depth =>
      sugarText depth (.hashLiteral keys values keyType valueType) := by
  have hpairs : ∀ t ∈ (keys.zip values).flatMap fun pair => [pair.1, pair.2], t.WithinLine := by
    intro t ht
    obtain ⟨⟨key, value⟩, hpair, hmem⟩ := List.mem_flatMap.mp ht
    obtain ⟨hkey, hvalue⟩ := List.of_mem_zip hpair
    simp only [List.mem_cons, List.not_mem_nil, or_false] at hmem
    rcases hmem with rfl | rfl
    · exact hkeys _ hkey
    · exact hvalues _ hvalue
  have hentries :=
    ((Inline.word (show '\n' ∉ "\x7b".toList by decide)).append (inline_pairs hpairs)).append
    (.word (show '\n' ∉ "\x7d".toList by decide))
  have htext : ∀ depth, sugarText depth (.hashLiteral keys values keyType valueType) =
      "\x7b" ++ commas ((keys.zip values).map fun pair => pair.1.textAt depth ++ " => " ++
        pair.2.textAt depth) ++ "\x7d"
        ++ (if keyType.isSome && valueType.isSome then
              between depth " of " "" keyType ++ between depth " => " "" valueType
            else "") := by
    intro depth
    rw [sugarText, texts_eq, texts_eq, List.zip_map, List.map_map]
    rfl
  simp only [htext, Sugar.shown, List.map_append, List.sum_append]
  refine .append (.cast (by simp) hentries) ?_
  split
  · rw [List.map_append, List.sum_append]
    exact (inline_between (by decide) (by decide) hkeyType).append
      (inline_between (by decide) (by decide) hvalueType)
  · exact .word (by decide)

/-- The literal parts of an interpolated string are written without their quotes. -/
theorem inline_partTexts (hlined : ∀ t ∈ trees, t.Lined) (h : ∀ t ∈ trees, t.WithinLine) :
    Inline (trees.map flushLines).sum fun depth => String.join (partTexts depth trees) := by
  induction trees with
  | nil => exact .word (by decide)
  | cons t trees ih =>
    obtain ⟨ht, htrees⟩ := List.forall_mem_cons.mp h
    obtain ⟨hline, hlines⟩ := List.forall_mem_cons.mp hlined
    simp only [partTexts, String.join_cons, List.map_cons, List.sum_cons]
    refine .append ?_ (ih hlines htrees)
    cases htext : t.literalText? with
    | none =>
      exact .cast (by simp) (((Inline.word (by decide)).append ht).append (.word (by decide)))
    | some value =>
      unfold literalText? at htext
      split at htext
      · cases htext
        cases hline with
        | plain hwords =>
          rw [flushLines_plain]
          exact .word (break_not_mem_escapeQuotes (hwords value List.mem_cons_self))
      · cases htext

variable {s : TypeFlow.Sugar Tree}

theorem inline_sugarText (hwords : ∀ word ∈ s.words, '\n' ∉ word.toList)
    (hoperands : ∀ part ∈ s.operands, part.isSequence = false)
    (hlined : ∀ part ∈ s.children, part.Lined) (hparts : ∀ part ∈ s.children, part.LaidOut) :
    Inline (s.flushLines + (s.shown.map flushLines).sum) fun depth => sugarText depth s := by
  have h : ∀ part ∈ s.operands, part.WithinLine := fun part hpart =>
    (hparts part (Sugar.mem_children_of_mem_operands hpart)).inline (hoperands part hpart)
  cases s with
  | and left right | or left right =>
    have hright := h right (List.mem_cons_of_mem _ List.mem_cons_self)
    exact .cast (by simp [Sugar.flushLines, Sugar.shown, Sugar.children])
      (inline_binary (by decide) (h left List.mem_cons_self) hright)
  | require string =>
    exact .cast (by simp [Sugar.flushLines, Sugar.shown, Sugar.children])
      ((Inline.word (by decide)).append (h string List.mem_cons_self))
  | rangeLiteral first last exclusive =>
    have hlast := h last (List.mem_cons_of_mem _ List.mem_cons_self)
    have hdots : '\n' ∉ (if exclusive then "..." else "..").toList := by cases exclusive <;> decide
    exact .cast (by simp [Sugar.flushLines, Sugar.shown, Sugar.children])
      (((h first List.mem_cons_self).append (.word hdots)).append hlast)
  | case subject clauses otherwise =>
    obtain ⟨hsubject, hclauses⟩ := List.forall_mem_cons.mp h
    exact inline_case hsubject hclauses fun t ht =>
      hparts t (List.mem_cons_of_mem _ (List.mem_append_right _ ht))
  | when conds body => exact inline_when h (List.forall_mem_append.mp hparts).2
  | regexpLiteral value =>
    exact ((Inline.word (by decide)).append (.word (hwords value List.mem_cons_self))).append
      (.word (by decide))
  | arrayLiteral elements elementType =>
    obtain ⟨helements, htype⟩ := List.forall_mem_append.mp h
    exact .cast (by simp [Sugar.flushLines, Sugar.shown, Sugar.children])
      ((((Inline.word (by decide)).append (inline_commas helements)).append
        (.word (by decide))).append (inline_between (by decide) (by decide) htype))
  | hashLiteral keys values keyType valueType =>
    obtain ⟨hkeys, hrest⟩ := List.forall_mem_append.mp h
    obtain ⟨hvalues, htypes⟩ := List.forall_mem_append.mp hrest
    obtain ⟨hkeyType, hvalueType⟩ := List.forall_mem_append.mp htypes
    exact .cast (by simp [Sugar.flushLines, Sugar.shown])
      (inline_hash hkeys hvalues hkeyType hvalueType)
  | «unless» cond onTrue onFalse =>
    exact .cast (by simp [Sugar.flushLines, Sugar.shown, Sugar.children])
      (inline_conditional (by decide) (by decide) (h cond List.mem_cons_self)
        (List.forall_mem_cons.mp hparts).2)
  | stringInterpolation parts =>
    exact .cast (by simp [Sugar.flushLines, Sugar.shown, Sugar.children])
      (((Inline.word (by decide)).append (inline_partTexts hlined h)).append (.word (by decide)))

end Sugar

/-! ### Trees -/

theorem LaidOut.of_inline {t : Tree} (hlist : t.isSequence = false) (h : t.WithinLine) :
    t.LaidOut where
  inline _ := h
  below := by
    have hline := Beneath.line h.laid
    simp only [bodyText, hlist, Bool.false_eq_true, if_false]
    exact hline

theorem Lined.laidOut {t : Tree} (h : t.Lined) : t.LaidOut := by
  induction h with
  | @plain c location hwords hoperands hlined ih =>
    by_cases hlist : ∃ items, c = .sequence items
    · obtain ⟨items, rfl⟩ := hlist
      refine ⟨fun h => Bool.noConfusion h, ?_⟩
      have hitems :=
        Beneath.join fun item hitem => ((ih item hitem).inline (hoperands item hitem)).laid
      refine .of_eq (fun depth => ?_) (.cast ?_ hitems)
      · simp [bodyText, isSequence, textAt, constructText, Construct.children,
          texts_eq, Function.comp_def]
      · simp [flushLines_plain, Construct.flushLines, Construct.children]
    · have hinline := inline_constructText (not_exists.mp hlist) hwords hoperands ih
      refine .of_inline ?_ (.cast (flushLines_plain c location).symm hinline)
      cases c with
      | sequence items => exact absurd ⟨items, rfl⟩ hlist
      | _ => rfl
  | sugar hwords hoperands hlined ih =>
    exact .of_inline rfl
      (.cast (flushLines_sugar _ _).symm (inline_sugarText hwords hoperands hlined ih))

end Tree
end TypeFlow
