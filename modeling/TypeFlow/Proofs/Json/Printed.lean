import TypeFlow.Proofs.Json.Words

/-!
# Printed JSON is read back

A value that is `Legible`, in a scope that lets all of it be read and with room for its arrays and
objects, is read from the front of any text that begins with it as it is printed
(`Legible.value_eq`). A text of it alone gives the value and nothing else (`Legible.parse?_pretty`).
-/

namespace TypeFlow.Json

open Lexeme

variable {scope : Scope} {depth fuel : Nat} {cs rest : List Char}

/-! ### Blanks -/

theorem skipBlank_append {blanks : List Char}
    (h : ∀ c ∈ blanks, isBlank c = true) (cs : List Char) :
    skipBlank (blanks ++ cs) = skipBlank cs :=
  List.dropWhile_append_of_pos h

theorem skipBlank_cons {c : Char} (hc : isBlank c = false) (cs : List Char) :
    skipBlank (c :: cs) = c :: cs :=
  List.dropWhile_cons_of_neg (by simp [hc])

theorem isBlank_newline (k : Nat) : ∀ c ∈ (newline k).toList, isBlank c = true := by
  intro c hc
  rw [newline, String.toList_ofList] at hc
  rcases List.mem_cons.mp hc with rfl | hc
  · rfl
  · rw [(List.mem_replicate.mp hc).2]; rfl

/-- What may follow a number. -/
def Ends (rest : List Char) : Prop := ∀ c ∈ rest.head?, isNumberChar c = false

theorem ends_cons {c : Char} (hc : isNumberChar c = false) (rest : List Char) :
    Ends (c :: rest) := fun d hd => by
  cases hd; exact hc

theorem ends_newline (k : Nat) (rest : List Char) : Ends ((newline k).toList ++ rest) := by
  rw [newline, String.toList_ofList]
  exact ends_cons rfl _

/-! ### Steps of the parser -/

theorem toList_quote (s : String) :
    (quote s).toList = '"' :: (s.toList.flatMap escapeChar ++ ['"']) :=
  String.toList_ofList

theorem length_le_flatMap_escapeChar (cs : List Char) :
    cs.length ≤ (cs.flatMap escapeChar).length := by
  have hpos : ∀ c, 0 < (escapeChar c).length := fun c => by
    unfold escapeChar
    repeat' split
    all_goals exact Nat.succ_pos _
  induction cs with
  | nil => exact Nat.le_refl _
  | cons c cs ih =>
    have := hpos c
    rw [List.flatMap_cons, List.length_append, List.length_cons]
    omega

theorem whole_ne_form : Scope.whole ≠ .form := nofun

namespace Parser

/-- What is read of a value that is not passed over depends on how it begins. -/
theorem value_succ (hs : scope ≠ .form) : value (fuel + 1) scope depth cs =
    match skipBlank cs with
    | 'n' :: 'u' :: 'l' :: 'l' :: rest => some (.null, rest)
    | 't' :: 'r' :: 'u' :: 'e' :: rest => some (.bool true, rest)
    | 'f' :: 'a' :: 'l' :: 's' :: 'e' :: rest => some (.bool false, rest)
    | '"' :: rest => (stringBody fuel [] rest).map fun (s, rest) => (.string s, rest)
    | '[' :: rest =>
      match depth with
      | 0 => none
      | depth + 1 =>
        match skipBlank rest with
        | ']' :: rest => some (.array [], rest)
        | rest => (items fuel depth rest).map fun (xs, rest) => (.array xs, rest)
    | '\x7b' :: rest =>
      match depth with
      | 0 => none
      | depth + 1 =>
        match skipBlank rest with
        | '\x7d' :: rest => some (.object [], rest)
        | rest => (fields fuel scope depth rest).map fun (fs, rest) => (.object fs, rest)
    | rest => number rest := by
  cases scope with
  | form => exact absurd rfl hs
  | whole | members => rfl

theorem value_blanks (hs : scope ≠ .form) {blanks : List Char} (h : ∀ c ∈ blanks, isBlank c = true)
    (cs : List Char) :
    value fuel scope depth (blanks ++ cs) = value fuel scope depth cs := by
  cases fuel with
  | zero => rfl
  | succ fuel => rw [value_succ hs, value_succ hs, skipBlank_append h]

theorem items_blanks {blanks : List Char} (h : ∀ c ∈ blanks, isBlank c = true) (cs : List Char) :
    items fuel depth (blanks ++ cs) = items fuel depth cs := by
  cases fuel with
  | zero => rfl
  | succ fuel => rw [items, items, value_blanks whole_ne_form h]

theorem fields_blanks {blanks : List Char} (h : ∀ c ∈ blanks, isBlank c = true) (cs : List Char) :
    fields fuel scope depth (blanks ++ cs) = fields fuel scope depth cs := by
  cases fuel with
  | zero => rfl
  | succ fuel => rw [fields, fields, skipBlank_append h]

theorem value_null (hs : scope ≠ .form) :
    value (fuel + 1) scope depth ("null".toList ++ rest) = some (.null, rest) := by
  rw [value_succ hs]; rfl

theorem value_bool (hs : scope ≠ .form) (b : Bool) :
    value (fuel + 1) scope depth ((if b then "true" else "false").toList ++ rest) = some
      (.bool b, rest) := by
  rw [value_succ hs]
  cases b <;> rfl

theorem stringBody_quoted (s : String) (hfuel : s.toList.length < fuel) :
    stringBody fuel [] (s.toList.flatMap escapeChar ++ '"' :: rest) = some (s, rest) := by
  rw [stringBody_flatMap _ hfuel, List.reverse_nil, List.nil_append, String.ofList_toList]

theorem value_string (hs : scope ≠ .form) (s : String)
    (hfuel : ((quote s).toList ++ rest).length ≤ fuel) :
    value (fuel + 1) scope depth ((quote s).toList ++ rest) = some (.string s, rest) := by
  have hlength := length_le_flatMap_escapeChar s.toList
  rw [toList_quote] at hfuel ⊢
  simp only [List.cons_append, List.append_assoc, List.nil_append, List.length_cons,
    List.length_append] at hfuel ⊢
  rw [value_succ hs, skipBlank_cons rfl]
  simp only [stringBody_quoted s (show s.toList.length < fuel by omega), Option.map_some]

theorem value_number (hs : scope ≠ .form) {text : String} (h : IsNumeral text) (hrest : Ends rest) :
    value (fuel + 1) scope depth (text.toList ++ rest) = some (.number text, rest) := by
  obtain ⟨c, cs, heq, hc, hblank⟩ := h.exists_cons
  have hnumber := number_eq h hrest
  rw [heq, List.cons_append] at hnumber ⊢
  rw [value_succ hs, skipBlank_cons hblank]
  split
  iterate 6
    rename_i heq
    obtain ⟨rfl, -⟩ := List.cons.inj heq
    exact absurd hc (by decide)
  exact hnumber

theorem value_emptyArray (hs : scope ≠ .form) :
    value (fuel + 1) scope (depth + 1) ('[' :: ']' :: rest) = some (.array [], rest) := by
  rw [value_succ hs]; rfl

theorem value_emptyObject (hs : scope ≠ .form) :
    value (fuel + 1) scope (depth + 1) ('\x7b' :: '\x7d' :: rest) = some (.object [], rest) := by
  rw [value_succ hs]; rfl

theorem value_array (hs : scope ≠ .form) {c : Char} (hskip : skipBlank cs = c :: rest)
    (hc : c ≠ ']') :
    value (fuel + 1) scope (depth + 1) ('[' :: cs) =
      (items fuel depth (c :: rest)).map fun (xs, rest) => (.array xs, rest) := by
  rw [value_succ hs, skipBlank_cons rfl]
  simp only [hskip]
  split
  · exact absurd (List.cons.inj ‹_›).1 hc
  · rfl

theorem value_object (hs : scope ≠ .form) (hskip : skipBlank cs = '"' :: rest) :
    value (fuel + 1) scope (depth + 1) ('\x7b' :: cs) =
      (fields fuel scope depth ('"' :: rest)).map fun (fs, rest) => (.object fs, rest) := by
  rw [value_succ hs, skipBlank_cons rfl]
  simp only [hskip]
  rfl

theorem items_last {item : Json} {tail : List Char}
    (h : value fuel .whole depth cs = some (item, tail)) (hskip : skipBlank tail = ']' :: rest) :
    items (fuel + 1) depth cs = some ([item], rest) := by
  rw [items, h]
  simp only [hskip]

theorem items_more {item : Json} {others : List Json} {tail more : List Char}
    (h : value fuel .whole depth cs = some (item, tail)) (hskip : skipBlank tail = ',' :: more)
    (hmore : items fuel depth more = some (others, rest)) :
    items (fuel + 1) depth cs = some (item :: others, rest) := by
  rw [items, h]
  simp only [hskip, hmore, Option.map_some]

/-- A key and its value, before the end of the object or another field. -/
theorem fields_key {key : String} {item : Json} {tail : List Char}
    (hkey : ((quote key).toList ++ ':' :: cs).length ≤ fuel)
    (h : value fuel (scope.member key) depth cs = some (item, tail)) :
    fields (fuel + 1) scope depth ((quote key).toList ++ ':' :: cs) =
      match skipBlank tail with
      | '\x7d' :: rest => some ([(key, item)], rest)
      | ',' :: rest =>
        (fields fuel scope depth rest).map fun (fs, rest) => ((key, item) :: fs, rest)
      | _ => none := by
  have hlength := length_le_flatMap_escapeChar key.toList
  rw [toList_quote] at hkey ⊢
  simp only [List.cons_append, List.append_assoc, List.nil_append, List.length_cons,
    List.length_append] at hkey ⊢
  rw [fields, skipBlank_cons rfl]
  have hcolon : skipBlank (':' :: cs) = ':' :: cs := skipBlank_cons rfl cs
  simp only [stringBody_quoted key (show key.toList.length < fuel by omega), hcolon]
  generalize value fuel (scope.member key) depth cs = answer at h ⊢
  subst h
  rfl

theorem fields_last {key : String} {item : Json} {tail : List Char}
    (hkey : ((quote key).toList ++ ':' :: cs).length ≤ fuel)
    (h : value fuel (scope.member key) depth cs = some (item, tail))
    (hskip : skipBlank tail = '\x7d' :: rest) :
    fields (fuel + 1) scope depth ((quote key).toList ++ ':' :: cs) = some
      ([(key, item)], rest) := by
  simp only [fields_key hkey h, hskip]

theorem fields_more {key : String} {item : Json} {others : List (String × Json)}
    {tail more : List Char} (hkey : ((quote key).toList ++ ':' :: cs).length ≤ fuel)
    (h : value fuel (scope.member key) depth cs = some (item, tail))
    (hskip : skipBlank tail = ',' :: more)
    (hmore : fields fuel scope depth more = some (others, rest)) :
    fields (fuel + 1) scope depth ((quote key).toList ++ ':' :: cs) = some
      ((key, item) :: others, rest) := by
  simp only [fields_key hkey h, hskip, hmore, Option.map_some]

end Parser

/-! ### Legible values -/

/-- The value is read in full in this scope, with room for so many open arrays and objects. -/
inductive Legible : Scope → Nat → Json → Prop where
  | null {scope : Scope} {depth : Nat} : scope ≠ .form → Legible scope depth .null
  | bool {scope : Scope} {depth : Nat} (b : Bool) : scope ≠ .form → Legible scope depth (.bool b)
  | number {scope : Scope} {depth : Nat} {text : String} : scope ≠ .form → IsNumeral text →
      Legible scope depth (.number text)
  | string {scope : Scope} {depth : Nat} (s : String) : scope ≠ .form →
      Legible scope depth (.string s)
  | array {scope : Scope} {depth : Nat} {items : List Json} : scope ≠ .form →
      (∀ item ∈ items, Legible .whole depth item) → Legible scope (depth + 1) (.array items)
  | object {scope : Scope} {depth : Nat} {fields : List (String × Json)} : scope ≠ .form →
      (∀ field ∈ fields, Legible (scope.member field.1) depth field.2) →
        Legible scope (depth + 1) (.object fields)

variable {j : Json}

theorem Legible.ne_form (h : Legible scope depth j) : scope ≠ .form := by
  cases h <;> assumption

/-- Neither a blank nor a closing bracket comes first. -/
theorem Legible.exists_cons (h : Legible scope depth j) (k : Nat) :
    ∃ c cs, (j.prettyAt k).toList = c :: cs ∧ isBlank c = false ∧ c ≠ ']' := by
  cases h with
  | null => exact ⟨'n', ['u', 'l', 'l'], by simp [prettyAt], rfl, by decide⟩
  | bool b =>
    cases b with
    | true => exact ⟨'t', ['r', 'u', 'e'], by simp [prettyAt], rfl, by decide⟩
    | false => exact ⟨'f', ['a', 'l', 's', 'e'], by simp [prettyAt], rfl, by decide⟩
  | number _ hn =>
    obtain ⟨c, cs, heq, hc, hblank⟩ := hn.exists_cons
    refine ⟨c, cs, by rw [prettyAt]; exact heq, hblank, ?_⟩
    rintro rfl
    cases hc
  | string s => exact ⟨'"', _, by rw [prettyAt]; exact toList_quote s, rfl, by decide⟩
  | @array _ _ items =>
    refine ⟨'[', ((Json.array items).prettyAt k).toList.tail, ?_, rfl, by decide⟩
    cases items <;> simp [prettyAt]
  | @object _ _ fields =>
    refine ⟨'\x7b', ((Json.object fields).prettyAt k).toList.tail, ?_, rfl, by decide⟩
    cases fields <;> simp [prettyAt]

/-! ### Items and fields -/

/-- The items of an array as they are printed, with the end of the array and what follows it. -/
def itemsText (k m : Nat) (item : Json) (items : List Json) (rest : List Char) : List Char :=
  (item.prettyAt k).toList ++ ((prettyItems k items).toList ++ ((newline m).toList ++ ']' :: rest))

/-- The same for the fields of an object. -/
def fieldsText (k m : Nat) (key : String) (value : Json) (fields : List (String × Json))
    (rest : List Char) : List Char :=
  (quote key).toList ++ (':' :: ' ' :: ((value.prettyAt k).toList ++
    ((prettyFields k fields).toList ++ ((newline m).toList ++ '\x7d' :: rest))))

theorem toList_array (k : Nat) (item : Json) (items : List Json) (rest : List Char) :
    ((Json.array (item :: items)).prettyAt k).toList ++ rest =
      '[' :: ((newline (k + 1)).toList ++ itemsText (k + 1) k item items rest) := by
  simp [prettyAt, itemsText]

theorem toList_object (k : Nat) (key : String) (value : Json) (fields : List (String × Json))
    (rest : List Char) : ((Json.object ((key, value) :: fields)).prettyAt k).toList ++ rest =
      '\x7b' :: ((newline (k + 1)).toList ++ fieldsText (k + 1) k key value fields rest) := by
  simp [prettyAt, fieldsText]

theorem prettyItems_cons (k m : Nat) (item : Json) (items : List Json) (rest : List Char) :
    (prettyItems k (item :: items)).toList ++ ((newline m).toList ++ ']' :: rest) =
      ',' :: ((newline k).toList ++ itemsText k m item items rest) := by
  simp [prettyItems, itemsText]

theorem prettyFields_cons (k m : Nat) (key : String) (value : Json) (fields : List (String × Json))
    (rest : List Char) :
    (prettyFields k ((key, value) :: fields)).toList ++ ((newline m).toList ++ '\x7d' :: rest) =
      ',' :: ((newline k).toList ++ fieldsText k m key value fields rest) := by
  simp [prettyFields, fieldsText]

/-- The value is read from the front of any text, if there is fuel for all of the text. -/
def ReadsBack (scope : Scope) (depth : Nat) (j : Json) : Prop :=
  ∀ (k fuel : Nat) (rest : List Char), Ends rest →
    2 * ((j.prettyAt k).toList ++ rest).length ≤ fuel →
    Parser.value (fuel + 1) scope depth ((j.prettyAt k).toList ++ rest) = some (j, rest)

theorem ReadsBack.value_space {j : Json} (h : ReadsBack scope depth j) (hs : scope ≠ .form)
    (k : Nat) (hrest : Ends rest) (hfuel : 2 * ((j.prettyAt k).toList ++ rest).length ≤ fuel) :
    Parser.value (fuel + 1) scope depth (' ' :: ((j.prettyAt k).toList ++ rest)) =
      some (j, rest) := by
  have hspace : ∀ c ∈ [' '], isBlank c = true := fun c hc => List.mem_singleton.mp hc ▸ rfl
  rw [← h k fuel rest hrest hfuel]
  exact Parser.value_blanks hs hspace _

/-- By induction on the items after the first. -/
theorem items_eq {item : Json} {items : List Json}
    (hitems : ∀ i ∈ item :: items, ReadsBack .whole depth i) (k m : Nat)
    (hfuel : 2 * (itemsText k m item items rest).length ≤ fuel) :
    Parser.items (fuel + 2) depth (itemsText k m item items rest) = some (item :: items, rest) := by
  induction items generalizing item fuel with
  | nil =>
    have htext : itemsText k m item [] rest = (item.prettyAt k).toList ++
        ((newline m).toList ++ ']' :: rest) := by
      simp [itemsText, prettyItems]
    rw [htext] at hfuel ⊢
    have hitem := hitems item List.mem_cons_self k fuel _ (ends_newline m (']' :: rest)) hfuel
    exact Parser.items_last hitem (skipBlank_append (isBlank_newline m) _)
  | cons next items ih =>
    have htext : itemsText k m item (next :: items) rest =
        (item.prettyAt k).toList ++ ',' ::
          ((newline k).toList ++ itemsText k m next items rest) := by
      rw [itemsText, prettyItems_cons]
    rw [htext] at hfuel ⊢
    have hends : Ends (',' :: ((newline k).toList ++ itemsText k m next items rest)) :=
      ends_cons rfl _
    have hitem := hitems item List.mem_cons_self k fuel _ hends hfuel
    simp only [List.length_append, List.length_cons] at hfuel
    obtain ⟨fuel, rfl⟩ := Nat.exists_eq_add_of_le' (show 1 ≤ fuel by omega)
    refine Parser.items_more hitem (skipBlank_cons rfl _) ?_
    rw [Parser.items_blanks (isBlank_newline k)]
    exact ih (fun i hi => hitems i (List.mem_cons_of_mem _ hi)) (by omega)

/-- By induction on the fields after the first. -/
theorem fields_eq {key : String} {value : Json} {fields : List (String × Json)}
    (hs : ∀ f ∈ (key, value) :: fields, scope.member f.1 ≠ .form)
    (hfields : ∀ f ∈ (key, value) :: fields, ReadsBack (scope.member f.1) depth f.2) (k m : Nat)
    (hfuel : 2 * (fieldsText k m key value fields rest).length ≤ fuel) :
    Parser.fields (fuel + 2) scope depth (fieldsText k m key value fields rest) = some
      ((key, value) :: fields, rest) := by
  induction fields generalizing key value fuel with
  | nil =>
    have htext : fieldsText k m key value [] rest = (quote key).toList ++ ':' :: ' ' ::
        ((value.prettyAt k).toList ++ ((newline m).toList ++ '\x7d' :: rest)) := by
      simp [fieldsText, prettyFields]
    rw [htext] at hfuel ⊢
    have hle : 2 * ((value.prettyAt k).toList ++ ((newline m).toList ++ '\x7d' :: rest)).length ≤
        fuel := by
      simp only [List.length_append, List.length_cons] at hfuel ⊢
      omega
    have hvalue :=
      (hfields _ List.mem_cons_self).value_space (hs _ List.mem_cons_self) k (ends_newline m _) hle
    exact Parser.fields_last (by omega) hvalue (skipBlank_append (isBlank_newline m) _)
  | cons next fields ih =>
    obtain ⟨nextKey, next⟩ := next
    have htext : fieldsText k m key value ((nextKey, next) :: fields) rest =
        (quote key).toList ++ ':' :: ' ' ::
        ((value.prettyAt k).toList ++ ',' ::
          ((newline k).toList ++ fieldsText k m nextKey next fields rest)) := by
      rw [fieldsText, prettyFields_cons]
    rw [htext] at hfuel ⊢
    have hends : Ends (',' :: ((newline k).toList ++ fieldsText k m nextKey next fields rest)) :=
      ends_cons rfl _
    have hle : 2 * ((value.prettyAt k).toList ++
        ',' :: ((newline k).toList ++ fieldsText k m nextKey next fields rest)).length ≤ fuel := by
      simp only [List.length_append, List.length_cons] at hfuel ⊢
      omega
    have hvalue := (hfields _ List.mem_cons_self).value_space (hs _ List.mem_cons_self) k hends hle
    refine Parser.fields_more (by omega) hvalue (skipBlank_cons rfl _) ?_
    simp only [List.length_append, List.length_cons] at hfuel
    obtain ⟨fuel, rfl⟩ := Nat.exists_eq_add_of_le' (show 1 ≤ fuel by omega)
    rw [Parser.fields_blanks (isBlank_newline k)]
    exact ih (fun f hf => hs f (List.mem_cons_of_mem _ hf))
      (fun f hf => hfields f (List.mem_cons_of_mem _ hf)) (by omega)

/-! ### Reading back -/

theorem Legible.readsBack (h : Legible scope depth j) : ReadsBack scope depth j := by
  induction h with
  | null hs =>
    intro k fuel rest _ _
    rw [prettyAt]
    exact Parser.value_null hs
  | bool b hs =>
    intro k fuel rest _ _
    rw [prettyAt]
    exact Parser.value_bool hs b
  | number hs hn =>
    intro k fuel rest hrest _
    rw [prettyAt]
    exact Parser.value_number hs hn hrest
  | string s hs =>
    intro k fuel rest _ hfuel
    rw [prettyAt] at hfuel ⊢
    exact Parser.value_string hs s (by omega)
  | @array scope depth items hs hitems ih =>
    intro k fuel rest _ hfuel
    cases items with
    | nil =>
      rw [prettyAt]
      exact Parser.value_emptyArray hs
    | cons item items =>
      rw [toList_array] at hfuel ⊢
      obtain ⟨c, cs, heq, hblank, hc⟩ := (hitems item List.mem_cons_self).exists_cons (k + 1)
      have htext : itemsText (k + 1) k item items rest = c ::
          (cs ++ ((prettyItems (k + 1) items).toList ++
          ((newline k).toList ++ ']' :: rest))) := by
        rw [itemsText, heq]
        rfl
      have hskip := skipBlank_append (isBlank_newline (k + 1)) (itemsText (k + 1) k item items rest)
      rw [htext, skipBlank_cons hblank, ← htext] at hskip
      simp only [List.length_append, List.length_cons] at hfuel
      obtain ⟨fuel, rfl⟩ := Nat.exists_eq_add_of_le' (show 2 ≤ fuel by omega)
      rw [Parser.value_array hs (hskip.trans htext) hc, ← htext, items_eq ih (k + 1) k
        (by omega), Option.map_some]
  | @object scope depth fields hs hfields ih =>
    intro k fuel rest _ hfuel
    cases fields with
    | nil =>
      rw [prettyAt]
      exact Parser.value_emptyObject hs
    | cons field fields =>
      obtain ⟨key, value⟩ := field
      rw [toList_object] at hfuel ⊢
      have htext : fieldsText (k + 1) k key value fields rest = '"' ::
          (key.toList.flatMap escapeChar ++ ['"'] ++
          ':' :: ' ' :: ((value.prettyAt (k + 1)).toList ++ ((prettyFields (k + 1) fields).toList ++
            ((newline k).toList ++ '\x7d' :: rest)))) := by
        rw [fieldsText, toList_quote]
        rfl
      have hskip :=
        skipBlank_append (isBlank_newline (k + 1)) (fieldsText (k + 1) k key value fields rest)
      rw [htext, skipBlank_cons rfl, ← htext] at hskip
      simp only [List.length_append, List.length_cons] at hfuel
      obtain ⟨fuel, rfl⟩ := Nat.exists_eq_add_of_le' (show 2 ≤ fuel by omega)
      have hforms : ∀ f ∈ (key, value) :: fields, scope.member f.1 ≠ .form :=
        fun f hf => (hfields f hf).ne_form
      rw [Parser.value_object hs (hskip.trans htext), ← htext, fields_eq hforms ih (k + 1) k
        (by omega), Option.map_some]

/-- The printed text alone holds the value and nothing else. -/
theorem Legible.parse?_pretty (h : Legible scope depth j) :
    parse? scope depth j.pretty = some j := by
  have hread := h.readsBack 0 (2 * j.pretty.toList.length + 1) [] nofun
    (by rw [List.append_nil]; exact Nat.le_succ _)
  rw [List.append_nil] at hread
  rw [parse?]
  simp only [pretty] at hread ⊢
  rw [hread]
  rfl

end TypeFlow.Json
