import TypeFlow.Proofs.Json.Words
import TypeFlow.Proofs.Text.Rows
import TypeFlow.Tree.Printer

/-!
# Texts at every depth

The text of a tree is a text at every depth of indentation. `Laid n` texts are the same at all
depths but for the margins of their lines, which `n` of the lines do without; `Inline` ones moreover
lose no line when they are trimmed, and can stand within a line. `Beneath` are the lines between the
head of a construct and its end. All three are put together from their parts.
-/

namespace TypeFlow.Layout

open Text

variable {m n : Nat} {f g : Nat → String}

theorem toList_indentation (depth : Nat) :
    (indentation depth).toList = List.replicate (2 * depth) ' ' :=
  String.toList_ofList

theorem break_not_mem_indentation (depth : Nat) : '\n' ∉ (indentation depth).toList := by
  rw [toList_indentation, List.mem_replicate]
  exact fun h => absurd h.2 (by decide)

theorem indentation_add (depth more : Nat) :
    indentation (depth + more) = indentation depth ++ indentation more := by
  apply String.toList_inj.mp
  rw [String.toList_append, toList_indentation, toList_indentation, toList_indentation, Nat.mul_add,
    List.replicate_append_replicate]

/-- The depth adds its margin after each line break but the marked ones, of which there are `n`. -/
def Laid (n : Nat) (f : Nat → String) : Prop :=
  ∃ breaks : List Bool, breaks.count true = n ∧ breaks.length = (f 0).toList.count '\n' ∧
    ∀ depth, (f depth).toList = withMargin (indentation depth).toList breaks (f 0).toList

theorem Laid.word {s : String} (h : '\n' ∉ s.toList) : Laid 0 fun _ => s :=
  ⟨[], rfl, (List.count_eq_zero.mpr h).symm, fun _ => by simp only [withMargin]⟩

theorem Laid.of_eq (heq : ∀ depth, g depth = f depth) (h : Laid n f) : Laid n g := (funext heq) ▸ h

theorem Laid.cast (hn : m = n) (h : Laid m f) : Laid n f := hn ▸ h

theorem Laid.append (hf : Laid m f) (hg : Laid n g) :
    Laid (m + n) fun depth => f depth ++ g depth := by
  obtain ⟨breaks, rfl, hlength, hf⟩ := hf
  obtain ⟨more, rfl, hlength', hg⟩ := hg
  refine ⟨breaks ++ more, List.count_append, ?_, fun depth => ?_⟩
  · rw [String.toList_append, List.count_append, List.length_append, hlength, hlength']
  · rw [String.toList_append, String.toList_append, withMargin_append hlength, ← hf, ← hg]

/-- A line break with the margin of the line after it. -/
theorem Laid.newLine : Laid 0 fun depth => "\n" ++ indentation depth :=
  ⟨[false], rfl, rfl, fun depth => by simp [withMargin, toList_indentation]⟩

theorem Laid.flush : Laid 1 fun _ => "\n" :=
  ⟨[true], rfl, rfl, fun _ => by simp [withMargin]⟩

/-- On a line of its own, one step deeper. -/
theorem Laid.deeper (h : Laid n f) :
    Laid n fun depth => "\n" ++ indentation (depth + 1) ++ f (depth + 1) := by
  obtain ⟨breaks, rfl, hlength, h⟩ := h
  have hstart : ∀ depth, ("\n" ++ indentation (depth + 1) ++ f (depth + 1)).toList =
      '\n' ::
        ((indentation depth).toList ++ ((indentation 1).toList ++ (f (depth + 1)).toList)) := by
    intro depth
    rw [indentation_add]
    simp
  have hfirst : (indentation 0).toList ++ ((indentation 1).toList ++ (f (0 + 1)).toList) =
      (indentation 1).toList ++ withMargin (indentation 1).toList breaks (f 0).toList := by
    rw [← h]
    rfl
  refine ⟨false :: breaks, List.count_cons_of_ne Bool.false_ne_true, ?_, fun depth => ?_⟩
  · rw [hstart, hfirst, List.count_cons_self, List.count_append, List.count_eq_zero.mpr
      (break_not_mem_indentation 1),
      count_withMargin (break_not_mem_indentation 1), List.length_cons, hlength, Nat.zero_add]
  · rw [hstart, hstart, hfirst, withMargin_break, withMargin_append_of_not_mem
      (break_not_mem_indentation 1),
      withMargin_withMargin (break_not_mem_indentation 1), h (depth + 1), indentation_add,
        String.toList_append]
    rfl

/-- A row at a depth, which is flush or has the margin. -/
def shiftRow (depth : Nat) (flush : Bool) (row : String) : String :=
  (if flush then "" else indentation depth) ++ row

theorem shiftRow_eq_iff {depth : Nat} (hdepth : depth ≠ 0) {flush : Bool} {row : String} :
    shiftRow depth flush row = indentation depth ++ row ↔ flush = false := by
  cases flush with
  | false => exact ⟨fun _ => rfl, fun _ => rfl⟩
  | true =>
    refine ⟨fun heq => ?_, fun h => Bool.noConfusion h⟩
    have hlength := congrArg (fun s => s.toList.length) heq
    simp [shiftRow, toList_indentation] at hlength
    exact absurd hlength hdepth

theorem zipWith_shiftRow_eq_map_iff {depth : Nat} (hdepth : depth ≠ 0) {flush : List Bool}
    {lines : List String} (h : flush.length = lines.length) :
    List.zipWith (shiftRow depth) flush lines = lines.map (indentation depth ++ ·) ↔
      flush.count true = 0 := by
  induction flush generalizing lines with
  | nil =>
    rw [List.length_eq_zero_iff.mp h.symm]
    exact ⟨fun _ => rfl, fun _ => rfl⟩
  | cons first flush ih =>
    obtain ⟨row, lines, rfl⟩ := List.exists_cons_of_length_eq_add_one h.symm
    rw [List.zipWith_cons_cons, List.map_cons, List.cons.injEq, shiftRow_eq_iff hdepth,
      ih (Nat.succ.inj h)]
    cases first <;> simp

/-- On a line of its own a text has the same rows at each depth, with the margin before the first
and all that are not flush. -/
theorem Laid.exists_rows (h : Laid n f) :
    ∃ breaks : List Bool, breaks.length + 1 = (rows (f 0)).length ∧ breaks.count true = n ∧
      ∀ depth, rows (indentation depth ++ f depth) = List.zipWith (shiftRow depth)
        (false :: breaks) (rows (f 0)) := by
  obtain ⟨breaks, rfl, hlength, hf⟩ := h
  refine ⟨breaks, ?_, rfl, fun depth => ?_⟩
  · rw [rows, List.length_map, length_split, hlength]
  · have hrows := split_withMargin (break_not_mem_indentation depth) false hlength
    rw [if_neg Bool.false_ne_true, ← hf, ← String.toList_append] at hrows
    rw [rows, hrows, rows, List.map_zipWith, List.zipWith_map_right]
    congr 1
    funext flush row
    cases flush <;> simp [shiftRow, String.ofList_append]

/-! ### Words -/

theorem break_not_mem_charText (value : Char) : '\n' ∉ (charText value).toList := by
  unfold charText
  split
  · decide
  split
  · decide
  split
  · decide
  split
  · decide
  · rw [String.toList_singleton, List.mem_singleton]
    exact Ne.symm ‹value ≠ '\n'›

theorem break_not_mem_escapeQuotes {value : String} (h : '\n' ∉ value.toList) :
    '\n' ∉ (escapeQuotes value).toList := by
  rw [escapeQuotes, String.toList_ofList, List.mem_flatMap]
  rintro ⟨c, hc, hmem⟩
  split at hmem
  · exact absurd hmem (by decide)
  · exact h (List.mem_singleton.mp hmem ▸ hc)

theorem break_not_mem_toString (i : Int) : '\n' ∉ (toString i).toList := by
  rw [Json.toList_toString_int, List.mem_append, not_or]
  refine ⟨by split <;> decide, fun h => ?_⟩
  have hdigit := (Json.isDigits_toDigits i.natAbs).digits _ h
  exact absurd hdigit (by decide)

theorem break_not_mem_enumConstant {constant : EnumConstant} (h : '\n' ∉ constant.name.toList) :
    '\n' ∉ (enumConstant constant).toList := by
  unfold enumConstant
  split
  · simp only [String.toList_append, List.mem_append, not_or]
    exact ⟨⟨h, by decide⟩, break_not_mem_toString _⟩
  · exact h

/-! ### Texts within a line -/

structure Inline (n : Nat) (f : Nat → String) : Prop where
  laid : Laid n f
  smooth : n = 0 → Smooth (f 0)

theorem Inline.word {s : String} (h : '\n' ∉ s.toList) : Inline 0 fun _ => s :=
  ⟨.word h, fun _ => smooth_of_not_mem h⟩

theorem Inline.append (hf : Inline m f) (hg : Inline n g) :
    Inline (m + n) fun depth => f depth ++ g depth where
  laid := hf.laid.append hg.laid
  smooth h := (hf.smooth (Nat.eq_zero_of_add_eq_zero_right h)).append
    (hg.smooth (Nat.eq_zero_of_add_eq_zero_left h))

theorem Inline.of_eq (heq : ∀ depth, g depth = f depth) (h : Inline n f) :
    Inline n g :=
  (funext heq) ▸ h

theorem Inline.cast (hn : m = n) (h : Inline m f) : Inline n f := hn ▸ h

section Lists
variable {α : Type} {N : α → Nat} {F : α → Nat → String} {as : List α}

theorem Inline.join (h : ∀ a ∈ as, Inline (N a) (F a)) :
    Inline (as.map N).sum fun depth => String.join (as.map fun a => F a depth) := by
  induction as with
  | nil => exact .word (by decide)
  | cons a as ih =>
    obtain ⟨ha, has⟩ := List.forall_mem_cons.mp h
    simp only [List.map_cons, String.join_cons, List.sum_cons]
    exact ha.append (ih has)

theorem Inline.intercalate {separator : String} (hs : '\n' ∉ separator.toList)
    (h : ∀ a ∈ as, Inline (N a) (F a)) :
    Inline (as.map N).sum fun depth => separator.intercalate (as.map fun a => F a depth) := by
  induction as with
  | nil => exact .word (by decide)
  | cons a as ih =>
    obtain ⟨ha, has⟩ := List.forall_mem_cons.mp h
    cases as with
    | nil => simpa using ha
    | cons b as =>
      simp only [List.map_cons, String.intercalate_cons_cons, List.sum_cons] at ih ⊢
      exact (Nat.add_zero (N a) ▸ ha.append (.word hs)).append (ih has)

end Lists

theorem inline_names {names : List String} {separator : String} (hs : '\n' ∉ separator.toList)
    (h : ∀ name ∈ names, '\n' ∉ name.toList) : Inline 0 fun _ => separator.intercalate names := by
  have hnames :=
    Inline.intercalate (N := fun _ => 0) (F := fun name _ => name) hs fun name hmem =>
      .word (h name hmem)
  simpa [List.map_const'] using hnames

theorem inline_typeVars {vars : Option (List String)}
    (h : ∀ name ∈ vars.getD [], '\n' ∉ name.toList) :
    Inline 0 fun _ => typeVars vars := by
  cases vars with
  | none => exact .word (by decide)
  | some names =>
    exact ((Inline.word (by decide)).append (inline_names (by decide) h)).append (.word (by decide))

/-! ### Lines below a line -/

/-- Each line ends with its line break. -/
def Beneath (n : Nat) (g : Nat → String) : Prop :=
  ∃ lines, Laid n lines ∧ ∀ depth after, "\n" ++ (g depth ++ after) = lines depth ++ ("\n" ++ after)

theorem Beneath.of_eq (heq : ∀ depth, g depth = f depth) (h : Beneath n f) :
    Beneath n g :=
  (funext heq) ▸ h

theorem Beneath.cast (hn : m = n) (h : Beneath m f) : Beneath n f := hn ▸ h

theorem Beneath.nil : Beneath 0 fun _ => "" :=
  ⟨fun _ => "", .word (by decide), fun _ _ => by simp⟩

theorem Beneath.append (hf : Beneath m f) (hg : Beneath n g) :
    Beneath (m + n) fun depth => f depth ++ g depth := by
  obtain ⟨lines, hlines, hf⟩ := hf
  obtain ⟨more, hmore, hg⟩ := hg
  exact ⟨_, hlines.append hmore,
    fun depth after => by rw [String.append_assoc, hf, hg, String.append_assoc]⟩

theorem Beneath.line (h : Laid n f) :
    Beneath n fun depth => indentation (depth + 1) ++ f (depth + 1) ++ "\n" :=
  ⟨_, h.deeper, fun _ _ => by simp only [String.append_assoc]⟩

theorem Beneath.join {α : Type} {N : α → Nat} {F : α → Nat → String} {as : List α}
    (h : ∀ a ∈ as, Laid (N a) (F a)) : Beneath (as.map N).sum fun depth =>
      String.join (as.map fun a => indentation (depth + 1) ++ F a (depth + 1) ++ "\n") := by
  induction as with
  | nil => exact .nil
  | cons a as ih =>
    obtain ⟨ha, has⟩ := List.forall_mem_cons.mp h
    simp only [List.map_cons, String.join_cons, List.sum_cons]
    exact (Beneath.line ha).append (ih has)

variable {k : Nat} {head body tail : Nat → String}

/-- Lines between a head and a tail. -/
theorem Laid.between (hhead : Laid m head) (hbody : Beneath n body) (htail : Laid k tail) :
    Laid (m + n + k) fun depth => head depth ++ "\n" ++ body depth ++
      indentation depth ++ tail depth := by
  obtain ⟨lines, hlines, hbody⟩ := hbody
  have h := (hhead.append hlines).append (Laid.newLine.append htail)
  rw [Nat.zero_add] at h
  simpa only [hbody, String.append_assoc] using h

/-- The tail is on a line without a margin. -/
theorem Laid.before (hhead : Laid m head) (hbody : Beneath n body) (htail : Laid k tail) :
    Laid (m + n + (1 + k)) fun depth => head depth ++ "\n" ++ body depth ++ tail depth := by
  obtain ⟨lines, hlines, hbody⟩ := hbody
  have h := (hhead.append hlines).append (Laid.flush.append htail)
  simpa only [hbody, String.append_assoc] using h

/-- What opens and closes is smooth, whatever lines there are in it. -/
theorem Inline.between (hhead : Laid m head) (hopens : Opens (head 0)) (hbody : Beneath n body)
    (htail : Laid k tail) (hcloses : Closes (tail 0)) :
    Inline (m + n + k) fun depth => head depth ++ "\n" ++ body depth ++
      indentation depth ++ tail depth where
  laid := .between hhead hbody htail
  smooth _ := ((((hopens.append _).append _).append _).append _).smooth (hcloses.append _)

end TypeFlow.Layout
