import TypeFlow.Proofs.Tree.Indented
import TypeFlow.Tree.Builder

/-!
# Trees within constructs

A `Shell` is a construct around a body, and an `Enclosed` tree the only statement of the innermost
of some constructs. The lines of the whole are those of the constructs around the lines that the
tree has at its depth (`Enclosed.rows_text`), and these are the lines it has on its own, with a
margin before all but the flush ones (`Lined.rows_enclosed`).
-/

namespace TypeFlow

open Layout Text

namespace Tree

/-! ### Enclosing constructs -/

/-- A construct around the lines of a body. A conditional has two of them, one for each branch. -/
inductive Shell where
  | loop (cond : Tree)
  | runOnce (cond : Tree)
  | thenBranch (cond : Tree) (onFalse : Option Tree) (operator : Option ShortCircuit)
  | elseBranch (cond : Tree) (onTrue : Option Tree) (operator : Option ShortCircuit)
  | methodDef (owner : Option Tree) (name : String) (params : List String)
      (returnType : Option Tree)
      (blockParam : Option (BlockParam Tree))
  | macroDef (owner : Option Tree) (name : String) (params : List String)
  | classDef (name : String) (superclass : Option Tree)
      (vars : Option (List String)) (isAbstract : Bool)
  | moduleDef (name : String) (vars : Option (List String))
  | libDef (name : String) (libname : Option String)

namespace Shell

def construct (body : Tree) : Shell → Construct Tree
  | loop cond => .loop cond (some body) false
  | runOnce cond => .loop cond (some body) true
  | thenBranch cond onFalse operator => .conditional cond (some body) onFalse operator
  | elseBranch cond onTrue operator => .conditional cond onTrue (some body) operator
  | methodDef owner name params returnType blockParam =>
    .methodDef owner name params (some body) returnType blockParam
  | macroDef owner name params => .macroDef owner name params (some body)
  | classDef name superclass vars isAbstract =>
    .classDef name superclass vars isAbstract (some body)
  | moduleDef name vars => .moduleDef name vars (some body)
  | libDef name libname => .libDef name libname (some body)

/-- What is written above the body. -/
def head (depth : Nat) : Shell → String
  | loop cond => "while " ++ cond.textAt depth
  | runOnce _ => "begin"
  | thenBranch cond _ _ => "if " ++ cond.textAt depth
  | elseBranch cond onTrue _ =>
    "if " ++ cond.textAt depth ++ "\n" ++ bodyText depth onTrue ++ indentation depth ++ "else"
  | methodDef owner name params returnType blockParam =>
    "def " ++ between depth "" "." owner ++ name
      ++ (if params.isEmpty && blockParam.isNone then ""
          else "(" ++ commas (params ++ blockParamTexts depth blockParam) ++ ")")
      ++ between depth " : " "" returnType
  | macroDef owner name params =>
    "macro " ++ between depth "" "." owner ++ name ++
      (if params.isEmpty then "" else "(" ++ commas params ++ ")")
  | classDef name superclass vars isAbstract =>
    (if isAbstract then "abstract " else "") ++ "class " ++ name ++ typeVars vars ++
      between depth " < " "" superclass
  | moduleDef name vars => "module " ++ name ++ typeVars vars
  | libDef name libname =>
    "lib " ++ name ++ (match libname with | some l => "(\x27" ++ l ++ "\x27)" | none => "")

/-- What is written below the body, after the margin. -/
def tail (depth : Nat) : Shell → String
  | runOnce cond => "end while " ++ cond.textAt depth
  | thenBranch _ (some branch) _ =>
    "else\n" ++ bodyText depth (some branch) ++ indentation depth ++ "end"
  | _ => "end"

/-- The body of a loop that is run once first is on lines of its own only if it is a list. -/
def Takes (body : Tree) : Shell → Prop
  | runOnce _ => body.isSequence = true
  | _ => True

variable {shell : Shell} {body : Tree}

theorem isSequence_construct (location : Option Location) :
    (plain (shell.construct body) location).isSequence = false := by
  cases shell <;> rfl

theorem constructText_construct (h : shell.Takes body) (depth : Nat) :
    constructText depth (shell.construct body) =
      shell.head depth ++ "\n" ++ bodyText depth (some body) ++ indentation depth ++
        shell.tail depth := by
  cases shell with
  | runOnce cond =>
    have hlist : body.isSequence = true := h
    simp [construct, head, tail, constructText, runOnceText, bodyText, hlist, String.append_assoc]
  | thenBranch cond onFalse operator =>
    cases onFalse <;> simp [construct, head, tail, constructText, elseClause, String.append_assoc]
  | libDef name libname =>
    cases libname <;> simp [construct, head, tail, constructText, String.append_assoc]
  | _ => simp [construct, head, tail, constructText, elseClause, String.append_assoc]

theorem opens_head (depth : Nat) (shell : Shell) : Opens (shell.head depth) := by
  cases shell with
  | loop cond =>
    have h : Opens "while " := by decide
    exact h.append _
  | runOnce => exact show Opens "begin" by decide
  | thenBranch cond =>
    have h : Opens "if " := by decide
    exact h.append _
  | elseBranch cond onTrue =>
    have h : Opens "if " := by decide
    exact ((((h.append _).append _).append _).append _).append _
  | methodDef owner name params returnType blockParam =>
    have h : Opens "def " := by decide
    exact (((h.append _).append _).append _).append _
  | macroDef owner name params =>
    have h : Opens "macro " := by decide
    exact ((h.append _).append _).append _
  | classDef name superclass vars isAbstract =>
    have h : Opens ((if isAbstract then "abstract " else "") ++ "class ") := by
      cases isAbstract <;> decide
    exact ((h.append _).append _).append _
  | moduleDef name vars =>
    have h : Opens "module " := by decide
    exact (h.append _).append _
  | libDef name libname =>
    have h : Opens "lib " := by decide
    exact (h.append _).append _

theorem opens_tail (depth : Nat) (shell : Shell) : Opens (shell.tail depth) := by
  have hend : Opens "end" := by decide
  cases shell with
  | runOnce cond => exact .append (by decide) _
  | thenBranch cond onFalse operator =>
    cases onFalse with
    | none => exact hend
    | some branch =>
      have helse : Opens "else\n" := by decide
      exact ((helse.append _).append _).append _
  | _ => exact hend

end Shell

/-! ### Rows of enclosing constructs -/

/-- The body is the statement, by itself or as the only one of a list. -/
inductive Sole (statement : Tree) : Tree → Prop where
  | alone : Sole statement statement
  | listed (location : Option Location) : Sole statement (.plain (.sequence [statement]) location)

/-- A tree with the constructs around it, the outermost one first. Each is the only statement of the
next one's body. -/
inductive Enclosed (t : Tree) : List Shell → Tree → Prop where
  | here : Enclosed t [] t
  | within {shell : Shell} {shells : List Shell} {inner body : Tree} (location : Option Location) :
      Enclosed t shells inner → Sole inner body → shell.Takes body →
      Enclosed t (shell :: shells) (.plain (shell.construct body) location)

def rowsAbove (depth : Nat) : List Shell → List String
  | [] => []
  | shell :: shells => rows (indentation depth ++ shell.head depth) ++ rowsAbove (depth + 1) shells

def rowsBelow (depth : Nat) : List Shell → List String
  | [] => []
  | shell :: shells => rowsBelow (depth + 1) shells ++ rows (indentation depth ++ shell.tail depth)

/-- Lines within constructs, the outermost of which has no margin and no white space after it. -/
def framed (shell : Shell) (shells : List Shell) (lines : List String) : List String :=
  (rows (shell.head 0) ++ rowsAbove 1 shells) ++ lines ++
    (rowsBelow 1 shells ++ rows (trim (shell.tail 0)))

section
variable {t inner body whole : Tree} {shell : Shell} {shells : List Shell}

theorem bodyText_sole (hlist : inner.isSequence = false) (h : Sole inner body) (depth : Nat) :
    bodyText depth (some body) = indentation (depth + 1) ++ inner.textAt (depth + 1) ++ "\n" := by
  cases h with
  | alone => simp [bodyText, hlist]
  | listed => simp [bodyText, isSequence, textAt, constructText, texts]

/-- The tree is a line below the head, and the tail below that. -/
theorem textAt_construct (hlist : inner.isSequence = false) (h : Sole inner body)
    (htakes : shell.Takes body) (location : Option Location) (depth : Nat) :
    (plain (shell.construct body) location).textAt depth =
      shell.head depth ++ "\n" ++ (indentation (depth + 1) ++ inner.textAt (depth + 1) ++ "\n" ++
        (indentation depth ++ shell.tail depth)) := by
  rw [textAt, Shell.constructText_construct htakes, bodyText_sole hlist h]
  simp only [String.append_assoc]

theorem Enclosed.isSequence (hlist : t.isSequence = false) (h : Enclosed t shells whole) :
    whole.isSequence = false := by
  cases h with
  | here => exact hlist
  | within => exact Shell.isSequence_construct _

theorem Enclosed.rows_textAt (hlist : t.isSequence = false) (h : Enclosed t shells whole)
    (depth : Nat) : rows (indentation depth ++ whole.textAt depth) =
      rowsAbove depth shells ++ rows
          (indentation (depth + shells.length) ++ t.textAt (depth + shells.length)) ++
        rowsBelow depth shells := by
  induction h generalizing depth with
  | here => simp [rowsAbove, rowsBelow]
  | @within shell shells inner body location henclosed hsole htakes ih =>
    have hstart : ∀ after, indentation depth ++ (shell.head depth ++ "\n" ++ after) =
        indentation depth ++ shell.head depth ++ "\n" ++ after := by
          simp only [String.append_assoc, implies_true]
    rw [textAt_construct (henclosed.isSequence hlist) hsole htakes, hstart, rows_append,
      rows_append, ih (depth + 1)]
    simp only [rowsAbove, rowsBelow, List.length_cons, List.append_assoc,
      Nat.add_assoc, Nat.add_comm 1]

theorem Enclosed.rows_text (hlist : t.isSequence = false) (h : Enclosed t (shell :: shells) whole) :
    rows whole.text =
      framed shell shells
        (rows (indentation (shells.length + 1) ++ t.textAt (shells.length + 1))) := by
  cases h with
  | @within _ _ inner body location henclosed hsole htakes =>
    have htext : (plain (shell.construct body) location).text =
        shell.head 0 ++ "\n" ++
          (indentation 1 ++ inner.textAt 1 ++ "\n" ++ trim (shell.tail 0)) := by
      rw [text, textAt_construct (henclosed.isSequence hlist) hsole htakes]
      have hstart : indentation 0 ++ shell.tail 0 = shell.tail 0 := String.empty_append
      rw [hstart, ← String.append_assoc, trim_append (((shell.opens_head 0).append _).append _)
        (shell.opens_tail 0), String.append_assoc]
    rw [htext, rows_append, rows_append, henclosed.rows_textAt hlist 1, framed]
    simp only [List.append_assoc, Nat.add_comm 1]

/-- Within any constructs a tree has the lines it has on its own, at the depth of the innermost
body. The first of them has the margin there, and so have all others but the same `flushLines` many
at every depth: a tree without any of these is written line for line as on its own, with the margin
before each line. What its text on its own lacks then is white space at the ends and no line. -/
theorem Lined.rows_enclosed (h : t.Lined) (hlist : t.isSequence = false) :
    (∃ breaks : List Bool, breaks.length + 1 = (rows (t.textAt 0)).length ∧
      breaks.count true = t.flushLines ∧ ∀ shell shells whole, Enclosed t (shell :: shells) whole →
        rows whole.text =
          framed shell shells (List.zipWith (shiftRow (shells.length + 1)) (false :: breaks)
            (rows (t.textAt 0))) ∧
        (rows whole.text = framed shell shells
            ((rows (t.textAt 0)).map (indentation (shells.length + 1) ++ ·)) ↔
          t.flushLines = 0)) ∧
    (t.flushLines = 0 → ∃ before after : String,
      (∀ c ∈ before.toList ++ after.toList, isBlank c = true ∧ c ≠ '\n') ∧
        t.textAt 0 = before ++ t.text ++ after) := by
  have hinline := h.laidOut.inline hlist
  refine ⟨?_, fun hzero => (hinline.smooth hzero).exists_trim⟩
  obtain ⟨breaks, hlength, hcount, hrows⟩ := hinline.laid.exists_rows
  refine ⟨breaks, hlength, hcount, fun shell shells whole henclosed => ?_⟩
  have hwhole := henclosed.rows_text hlist
  rw [hrows] at hwhole
  refine ⟨hwhole, ?_⟩
  have hlength' : (false :: breaks).length = (rows (t.textAt 0)).length := hlength
  rw [hwhole, framed, framed, List.append_left_inj, List.append_right_inj,
    zipWith_shiftRow_eq_map_iff (Nat.add_one_ne_zero _) hlength',
      List.count_cons_of_ne Bool.false_ne_true, hcount]

end

theorem lined_var {name : String} (h : '\n' ∉ name.toList) : (var name).Lined :=
  .plain (List.forall_mem_singleton.mpr h) (fun _ h => nomatch h) (fun _ h => nomatch h)

/-- An `if` with both branches. -/
def branches : Tree := bare (.conditional (var "a") (some (var "b")) (some (var "c")) none)

/-- The `if` as the body of a method, in a list of its own, and the method as the body of a
class. -/
def inClass : Tree :=
  bare (.classDef "A" none none false
    (some (bare (.methodDef none "m" [] (some (bare (.sequence [branches]))) none none))))

theorem lined_branches : branches.Lined := by
  refine .plain (fun _ h => nomatch h) (List.forall_mem_singleton.mpr rfl) ?_
  refine List.forall_mem_cons.mpr
    ⟨lined_var (by decide), List.forall_mem_cons.mpr ⟨lined_var (by decide), ?_⟩⟩
  exact List.forall_mem_singleton.mpr (lined_var (by decide))

theorem enclosed_inClass :
    Enclosed branches
      [.classDef "A" none none false, .methodDef none "m" [] none none] inClass := by
  have hmethod : Enclosed branches [.methodDef none "m" [] none none]
      (bare (.methodDef none "m" [] (some (bare (.sequence [branches]))) none none)) :=
    .within none .here (.listed none) True.intro
  exact .within none hmethod .alone True.intro

theorem rows_enclosed_inClass :
    branches.Lined ∧ branches.isSequence = false ∧ branches.flushLines = 0 ∧
    rows branches.text = ["if a", "  b", "else", "  c", "end"] ∧
    rows inClass.text =
      ["class A", "  def m", "    if a", "      b", "    else", "      c", "    end",
        "  end", "end"] := by
  have hflush : branches.flushLines = 0 := by
    simp [branches, bare, var, flushLines_plain, Construct.flushLines, Construct.children]
  refine ⟨lined_branches, rfl, hflush, by decide +kernel, ?_⟩
  obtain ⟨⟨breaks, -, -, h⟩, -⟩ := lined_branches.rows_enclosed rfl
  rw [(h _ _ _ enclosed_inClass).2.mpr hflush]
  decide +kernel

/-- A `case` with an `else` branch. -/
def choice : Tree :=
  .sugar (.case (var "x") [.sugar (.when [var "a"] (some (var "b"))) none] (some (var "d"))) none

/-- A loop without a body that is run once first. -/
def emptyRunOnce : Tree := bare (.loop (var "d") none true)

theorem lined_choice : choice.Lined := by
  have hclause : (sugar (.when [var "a"] (some (var "b"))) none).Lined := by
    refine .sugar (fun _ h => nomatch h) (List.forall_mem_singleton.mpr rfl) ?_
    exact List.forall_mem_cons.mpr
      ⟨lined_var (by decide), List.forall_mem_singleton.mpr (lined_var (by decide))⟩
  refine .sugar (fun _ h => nomatch h)
    (List.forall_mem_cons.mpr ⟨rfl, List.forall_mem_singleton.mpr rfl⟩) ?_
  refine List.forall_mem_cons.mpr ⟨lined_var (by decide), List.forall_mem_cons.mpr ⟨hclause, ?_⟩⟩
  exact List.forall_mem_singleton.mpr (lined_var (by decide))

theorem lined_emptyRunOnce : emptyRunOnce.Lined :=
  .plain (fun _ h => nomatch h) (List.forall_mem_singleton.mpr rfl)
    (List.forall_mem_singleton.mpr (lined_var (by decide)))

/-- In a loop, the `when` clause, the `else` and the end of a `case` have no margin, and neither has
the end of a loop that is run once first and has no body. -/
theorem rows_flush_inLoop :
    (choice.Lined ∧ rows choice.text = ["case x", "when a", "  b", "else", "  d", "end"] ∧
      rows (bare (.loop (var "c") (some choice) false)).text =
        ["while c", "  case x", "when a", "    b", "else", "    d", "end", "end"] ∧
      rows (bare (.loop (var "c") (some choice) false)).text ≠
        ["while c"] ++ (rows choice.text).map (indentation 1 ++ ·) ++ ["end"]) ∧
    (emptyRunOnce.Lined ∧ rows emptyRunOnce.text = ["begin", "end while d"] ∧
      rows (bare (.loop (var "c") (some emptyRunOnce) false)).text =
        ["while c", "  begin", "end while d", "end"] ∧
      rows (bare (.loop (var "c") (some emptyRunOnce) false)).text ≠
        ["while c"] ++ (rows emptyRunOnce.text).map (indentation 1 ++ ·) ++ ["end"]) :=
  ⟨⟨lined_choice, by decide +kernel, by decide +kernel, by decide +kernel⟩,
    lined_emptyRunOnce, by decide +kernel, by decide +kernel, by decide +kernel⟩

end Tree
end TypeFlow
