import Mathlib.Data.List.TakeWhile
import TypeFlow.Text

/-!
# Lines, margins and the ends of a text

`rows` are the lines of a text. `withMargin` writes a margin at the start of every line but the
first and those marked as flush, so a row is then the row it was with the margin before it or
without (`split_withMargin`). `Smooth` texts lose no line when they are trimmed.
-/

namespace TypeFlow.Text

/-- The lines of a text. After a line break at its end there is one more, which is empty. -/
def rows (s : String) : List String := (split '\n' s.toList).map String.ofList

/-! ### Splitting -/

variable {mark c : Char} {cs : List Char}

theorem split_ne_nil (mark : Char) (cs : List Char) : split mark cs ≠ [] := by
  cases cs with
  | nil => exact List.cons_ne_nil _ _
  | cons c cs =>
    unfold split
    split
    · exact List.cons_ne_nil _ _
    · split <;> exact List.cons_ne_nil _ _

theorem split_cons_self : split mark (mark :: cs) = [] :: split mark cs := by
  obtain ⟨part, parts, heq⟩ := List.exists_cons_of_ne_nil (split_ne_nil mark cs)
  rw [split, heq]
  exact if_pos rfl

theorem split_cons_of_ne (h : c ≠ mark) :
    split mark (c :: cs) = (split mark cs).modifyHead (c :: ·) := by
  obtain ⟨part, parts, heq⟩ := List.exists_cons_of_ne_nil (split_ne_nil mark cs)
  rw [split, heq]
  exact if_neg h

theorem split_append_of_not_mem {before : List Char} (h : mark ∉ before) :
    split mark (before ++ cs) = (split mark cs).modifyHead (before ++ ·) := by
  induction before with
  | nil => exact (List.modifyHead_id ▸ rfl)
  | cons c before ih =>
    obtain ⟨hc, hbefore⟩ := List.ne_and_not_mem_of_not_mem_cons h
    rw [List.cons_append, split_cons_of_ne (Ne.symm hc), ih hbefore, List.modifyHead_modifyHead]
    rfl

theorem split_append_cons (before after : List Char) :
    split mark (before ++ mark :: after) = split mark before ++ split mark after := by
  induction before with
  | nil => rw [List.nil_append, split_cons_self]; rfl
  | cons c before ih =>
    by_cases hc : c = mark
    · rw [hc, List.cons_append, split_cons_self, split_cons_self, ih, List.cons_append]
    · obtain ⟨part, parts, heq⟩ := List.exists_cons_of_ne_nil (split_ne_nil mark before)
      rw [List.cons_append, split_cons_of_ne hc, split_cons_of_ne hc, ih, heq]
      rfl

theorem length_split (cs : List Char) : (split mark cs).length = cs.count mark + 1 := by
  induction cs with
  | nil => rfl
  | cons c cs ih =>
    by_cases hc : c = mark
    · rw [hc, split_cons_self, List.length_cons, ih, List.count_cons_self]
    · rw [split_cons_of_ne hc, List.length_modifyHead, ih, List.count_cons_of_ne hc]

theorem rows_append (before after : String) :
    rows (before ++ "\n" ++ after) = rows before ++ rows after := by
  have hbreak : ((before ++ "\n") ++ after).toList = before.toList ++ '\n' :: after.toList := by
    simp
  rw [rows, hbreak, split_append_cons, List.map_append]
  rfl

/-! ### Texts of one line -/

theorem break_not_mem_copies (count : Nat) {c : Char} (hc : c ≠ '\n') :
    '\n' ∉ (copies count c).toList := by
  rw [copies, String.toList_ofList, List.mem_replicate]
  exact fun h => hc h.2.symm

theorem break_not_mem_beforeLast? {last : Char} {name before : String} (h : '\n' ∉ name.toList)
    (hbefore : beforeLast? last name = some before) : '\n' ∉ before.toList := by
  unfold beforeLast? at hbefore
  split at hbefore
  case h_1 c rest hreverse =>
    split at hbefore
    · cases hbefore
      rw [String.toList_ofList, List.mem_reverse]
      exact fun hmem => h (List.mem_reverse.mp (hreverse ▸ List.mem_cons_of_mem c hmem))
    · cases hbefore
  case h_2 => cases hbefore

/-! ### Margins -/

/-- The text with a margin after every line break but those marked as flush. -/
def withMargin (margin : List Char) : List Bool → List Char → List Char
  | [], cs => cs
  | _, [] => []
  | flush :: breaks, c :: cs =>
    if c = '\n' then c :: ((if flush then [] else margin) ++ withMargin margin breaks cs)
    else c :: withMargin margin (flush :: breaks) cs

variable {margin : List Char} {breaks : List Bool}

@[simp] theorem withMargin_nil (margin : List Char) (breaks : List Bool) :
    withMargin margin breaks [] = [] := by
  cases breaks <;> rfl

theorem withMargin_break (margin : List Char) (flush : Bool) (breaks : List Bool) (cs : List Char) :
    withMargin margin (flush :: breaks) ('\n' :: cs) =
      '\n' :: ((if flush then [] else margin) ++ withMargin margin breaks cs) :=
  if_pos rfl

theorem withMargin_cons (h : c ≠ '\n') :
    withMargin margin breaks (c :: cs) = c :: withMargin margin breaks cs := by
  cases breaks with
  | nil => simp only [withMargin]
  | cons flush breaks => exact if_neg h

theorem withMargin_append_of_not_mem {before : List Char} (h : '\n' ∉ before) :
    withMargin margin breaks (before ++ cs) = before ++ withMargin margin breaks cs := by
  induction before with
  | nil => rfl
  | cons c before ih =>
    obtain ⟨hc, hbefore⟩ := List.ne_and_not_mem_of_not_mem_cons h
    rw [List.cons_append, withMargin_cons (Ne.symm hc), ih hbefore, List.cons_append]

theorem exists_break (h : breaks.length = ('\n' :: cs).count '\n') :
    ∃ flush rest, breaks = flush :: rest ∧ rest.length = cs.count '\n' := by
  cases breaks with
  | nil => simp at h
  | cons flush rest => exact ⟨flush, rest, rfl, by simpa using h⟩

/-- Each part of a text takes as many marks as it has line breaks. -/
theorem withMargin_append {more : List Bool} {cs' : List Char} (h : breaks.length = cs.count '\n') :
    withMargin margin (breaks ++ more) (cs ++ cs') = withMargin margin breaks cs ++
      withMargin margin more cs' := by
  induction cs generalizing breaks with
  | nil =>
    rw [List.length_eq_zero_iff.mp h]
    rfl
  | cons c cs ih =>
    by_cases hc : c = '\n'
    · subst hc
      obtain ⟨flush, rest, rfl, hrest⟩ := exists_break h
      simp only [List.cons_append, withMargin_break, ih hrest, List.append_assoc]
    · rw [List.count_cons_of_ne hc] at h
      rw [List.cons_append, withMargin_cons hc, withMargin_cons hc, ih h, List.cons_append]

theorem count_withMargin (hm : '\n' ∉ margin) (breaks : List Bool) (cs : List Char) :
    (withMargin margin breaks cs).count '\n' = cs.count '\n' := by
  induction cs generalizing breaks with
  | nil => rw [withMargin_nil]
  | cons c cs ih =>
    by_cases hc : c = '\n'
    · subst hc
      cases breaks with
      | nil => rfl
      | cons flush breaks =>
        have hmargin : (if flush then [] else margin).count '\n' = 0 := by
          cases flush
          · exact List.count_eq_zero.mpr hm
          · rfl
        rw [withMargin_break, List.count_cons_self, List.count_append, hmargin, ih,
          List.count_cons_self, Nat.zero_add]
    · rw [withMargin_cons hc, List.count_cons_of_ne hc, List.count_cons_of_ne hc, ih]

/-- A margin within a margin. -/
theorem withMargin_withMargin {inner : List Char} (hm : '\n' ∉ inner) (breaks : List Bool)
    (cs : List Char) :
    withMargin margin breaks (withMargin inner breaks cs) = withMargin
      (margin ++ inner) breaks cs := by
  induction cs generalizing breaks with
  | nil => simp only [withMargin_nil]
  | cons c cs ih =>
    by_cases hc : c = '\n'
    · subst hc
      cases breaks with
      | nil => rfl
      | cons flush breaks =>
        have hmargin : '\n' ∉ (if flush then [] else inner) := by
          cases flush
          · exact hm
          · exact List.not_mem_nil
        rw [withMargin_break, withMargin_break, withMargin_break,
          withMargin_append_of_not_mem hmargin, ih]
        cases flush <;> simp
    · rw [withMargin_cons hc, withMargin_cons hc, withMargin_cons hc, ih]

/-- Each row of the text with the margin before it, but for those that are flush. The first row is
given a mark of its own. -/
theorem split_withMargin (hm : '\n' ∉ margin) (flush : Bool) (h : breaks.length = cs.count '\n') :
    split '\n' ((if flush then [] else margin) ++ withMargin margin breaks cs) =
      List.zipWith (fun flush row => (if flush then [] else margin) ++ row) (flush :: breaks)
        (split '\n' cs) := by
  have hmargin : ∀ flush : Bool, '\n' ∉ (if flush then [] else margin) := by
    rintro (_ | _)
    · exact hm
    · exact List.not_mem_nil
  induction cs generalizing flush breaks with
  | nil =>
    rw [List.length_eq_zero_iff.mp h, withMargin_nil, split_append_of_not_mem (hmargin flush)]
    rfl
  | cons c cs ih =>
    by_cases hc : c = '\n'
    · subst hc
      obtain ⟨next, rest, rfl, hrest⟩ := exists_break h
      rw [withMargin_break, split_append_cons, ih next hrest, split_cons_self]
      rw [← List.append_nil (if flush then [] else margin), split_append_of_not_mem (hmargin flush)]
      rfl
    · rw [List.count_cons_of_ne hc] at h
      have hrest := ih true h
      obtain ⟨row, rows, heq⟩ := List.exists_cons_of_ne_nil (split_ne_nil '\n' cs)
      rw [if_pos rfl, List.nil_append, heq] at hrest
      rw [withMargin_cons hc, split_append_of_not_mem (hmargin flush), split_cons_of_ne hc,
        split_cons_of_ne hc, hrest, heq]
      rfl

/-! ### The ends of a text -/

/-- The text starts with something else than white space. -/
def Opens (s : String) : Prop := ∃ c ∈ s.toList.head?, isBlank c = false

def Closes (s : String) : Prop := ∃ c ∈ s.toList.getLast?, isBlank c = false

instance : DecidablePred Opens := fun s => Option.decidableExistsMem s.toList.head?

instance : DecidablePred Closes := fun s => Option.decidableExistsMem s.toList.getLast?

/-- No line break is among the white space at the ends. -/
structure Smooth (s : String) : Prop where
  start : '\n' ∉ s.toList.takeWhile isBlank
  finish : '\n' ∉ s.toList.reverse.takeWhile isBlank

variable {s t : String}

theorem Opens.append (h : Opens s) (t : String) : Opens (s ++ t) := by
  obtain ⟨c, hhead, hc⟩ := h
  exact ⟨c, by simp [Option.mem_def.mp hhead], hc⟩

theorem Closes.append (s : String) (h : Closes t) : Closes (s ++ t) := by
  obtain ⟨c, hlast, hc⟩ := h
  exact ⟨c, by simp [Option.mem_def.mp hlast], hc⟩

theorem not_mem_takeWhile_append {cs cs' : List Char} (h : mark ∉ cs.takeWhile isBlank)
    (h' : mark ∉ cs'.takeWhile isBlank) : mark ∉ (cs ++ cs').takeWhile isBlank := by
  rw [List.takeWhile_append]
  split
  case isTrue hlength =>
    have hall : cs.takeWhile isBlank = cs := (List.takeWhile_prefix _).eq_of_length hlength
    rw [List.mem_append, not_or]
    exact ⟨hall ▸ h, h'⟩
  case isFalse => exact h

theorem Smooth.append (hs : Smooth s) (ht : Smooth t) : Smooth (s ++ t) where
  start := by
    rw [String.toList_append]
    exact not_mem_takeWhile_append hs.start ht.start
  finish := by
    rw [String.toList_append, List.reverse_append]
    exact not_mem_takeWhile_append ht.finish hs.finish

theorem smooth_of_not_mem (h : '\n' ∉ s.toList) : Smooth s where
  start hmem := h (List.takeWhile_subset _ hmem)
  finish hmem := h (List.mem_reverse.mp (List.takeWhile_subset _ hmem))

theorem takeWhile_of_head? {cs : List Char} (h : cs.head? = some c) (hc : isBlank c = false) :
    cs.takeWhile isBlank = [] := by
  obtain ⟨rest, rfl⟩ := List.head?_eq_some_iff.mp h
  exact List.takeWhile_cons_of_neg (Bool.eq_false_iff.mp hc)

/-- With something else than white space at both ends, it does not matter what is between them. -/
theorem Opens.smooth (hs : Opens s) (ht : Closes s) : Smooth s where
  start := by
    obtain ⟨c, hhead, hc⟩ := hs
    rw [takeWhile_of_head? hhead hc]
    exact List.not_mem_nil
  finish := by
    obtain ⟨c, hlast, hc⟩ := ht
    rw [takeWhile_of_head? (by rwa [List.head?_reverse]) hc]
    exact List.not_mem_nil

/-- What is trimmed is white space of the first line and of the last. -/
theorem Smooth.exists_trim (h : Smooth s) : ∃ before after : String,
    (∀ c ∈ before.toList ++ after.toList, isBlank c = true ∧ c ≠ '\n') ∧
    s = before ++ trim s ++ after := by
  obtain ⟨cs, hcs⟩ : ∃ cs, s.toList = cs := ⟨_, rfl⟩
  obtain ⟨rest, hdrop⟩ : ∃ rest, cs.dropWhile isBlank = rest := ⟨_, rfl⟩
  have hstart : cs = cs.takeWhile isBlank ++ rest := by
    rw [← hdrop, List.takeWhile_append_dropWhile]
  have hrest : rest = (rest.reverse.dropWhile isBlank).reverse ++
      (rest.reverse.takeWhile isBlank).reverse := by
    rw [← List.reverse_append, List.takeWhile_append_dropWhile, List.reverse_reverse]
  have hfinish : '\n' ∉ rest.reverse.takeWhile isBlank := by
    have hreverse : cs.reverse = rest.reverse ++ (cs.takeWhile isBlank).reverse := by
      rw [← List.reverse_append, ← hstart]
    have hfinish := h.finish
    rw [hcs, hreverse, List.takeWhile_append] at hfinish
    split at hfinish
    case isTrue => exact fun hmem => hfinish (List.mem_append_left _ (List.takeWhile_subset _ hmem))
    case isFalse => exact hfinish
  refine ⟨.ofList (cs.takeWhile isBlank),
    .ofList (rest.reverse.takeWhile isBlank).reverse, fun c hc => ?_, ?_⟩
  · rw [String.toList_ofList, String.toList_ofList] at hc
    rcases List.mem_append.mp hc with hc | hc
    · exact ⟨List.mem_takeWhile_imp hc, fun heq => h.start (hcs ▸ heq ▸ hc)⟩
    · rw [List.mem_reverse] at hc
      exact ⟨List.mem_takeWhile_imp hc, fun heq => hfinish (heq ▸ hc)⟩
  · rw [trim, hcs, trimChars, hdrop, ← String.ofList_append, ← String.ofList_append,
      List.append_assoc, ← hrest, ← hstart,
      ← hcs, String.ofList_toList]

/-- Only the end is trimmed of a text that opens, and nothing before a part that opens. -/
theorem trim_append (hs : Opens s) (ht : Opens t) : trim (s ++ t) = s ++ trim t := by
  obtain ⟨first, hfirst, hblank⟩ := hs
  obtain ⟨before, hs⟩ := List.head?_eq_some_iff.mp hfirst
  obtain ⟨last, hlast, hblank'⟩ := ht
  obtain ⟨after, ht⟩ := List.head?_eq_some_iff.mp hlast
  have hkept : ∀ (c : Char) (cs : List Char), isBlank c = false →
      (c :: cs).dropWhile isBlank = c :: cs :=
    fun c cs hc => List.dropWhile_cons_of_neg (Bool.eq_false_iff.mp hc)
  have hne : ((last :: after).reverse.dropWhile isBlank).isEmpty = false := by
    simp [hblank']
  apply String.toList_inj.mp
  simp only [trim, String.toList_append, String.toList_ofList, hs, ht]
  rw [trimChars, List.cons_append, hkept first _ hblank, ← List.cons_append, List.reverse_append,
    List.dropWhile_append,
    hne, if_neg Bool.false_ne_true, List.reverse_append, List.reverse_reverse, trimChars,
      hkept last _ hblank']

end TypeFlow.Text
