import TypeFlow.Proofs.Json.Printed
import TypeFlow.Proofs.Tree.Parts
import TypeFlow.Tree.Decode

/-!
# Encoded trees

The JSON of a tree has numbers for lines, columns, pointers and the values of enum constants. Where
these fit their words (`Tree.Fits`), every number is one that JSON can hold, so that all of the JSON
is legible (`Tree.Fits.legible`). What a tree consists of is nested less deeply than the tree
itself.
-/

namespace TypeFlow

/-! ### Trees that fit -/

def Location.Fits (l : Location) : Prop := l.line < 2 ^ 32 ∧ l.column < 2 ^ 32

/-- An enum constant holds an integer of 64 bits with a sign. -/
def EnumConstant.Fits (c : EnumConstant) : Prop :=
  ∀ value ∈ c.value, -2 ^ 63 ≤ value ∧ value < 2 ^ 63

/-- The numbers of pointers and the values of constants fit. -/
def Construct.Fits {α : Type} : Construct α → Prop
  | .funDef _ _ args _ pointers _ => (∀ field ∈ args, field.pointers < 2 ^ 32) ∧ pointers < 2 ^ 32
  | .aliasDef _ _ pointers => pointers < 2 ^ 32
  | .structDef _ fields | .unionDef _ fields => ∀ field ∈ fields, field.pointers < 2 ^ 32
  | .enumDef _ constants => ∀ c ∈ constants, c.Fits
  | _ => True

/-- The parts of a construct that abbreviates others, in order. -/
def Sugar.children {α : Type} : Sugar α → List α
  | .and left right | .or left right => [left, right]
  | .require string => [string]
  | .rangeLiteral first last _ => [first, last]
  | .case subject clauses otherwise => subject :: (clauses ++ otherwise.toList)
  | .when conds body => conds ++ body.toList
  | .regexpLiteral _ => []
  | .arrayLiteral elements elementType => elements ++ elementType.toList
  | .hashLiteral keys values keyType valueType =>
    keys ++ (values ++ (keyType.toList ++ valueType.toList))
  | .unless cond onTrue onFalse => cond :: (onTrue.toList ++ onFalse.toList)
  | .stringInterpolation parts => parts

/-- Every number in the tree is one of the machine's. -/
inductive Tree.Fits : Tree → Prop where
  | plain {c : Construct Tree} {location : Option Location} : c.Fits → (∀ l ∈ location, l.Fits) →
      (∀ part ∈ c.children, Fits part) → Fits (.plain c location)
  | sugar {abbreviation : Sugar Tree} {location : Option Location} : (∀ l ∈ location, l.Fits) →
      (∀ part ∈ abbreviation.children, Fits part) → Fits (.sugar abbreviation location)

/-! ### Numbers -/

namespace Json

/-- All numbers are ones that are read. -/
inductive Numbered : Json → Prop where
  | null : Numbered .null
  | bool (b : Bool) : Numbered (.bool b)
  | number {text : String} : IsNumeral text → Numbered (.number text)
  | string (s : String) : Numbered (.string s)
  | array {items : List Json} : (∀ item ∈ items, Numbered item) → Numbered (.array items)
  | object {fields : List (String × Json)} : (∀ field ∈ fields, Numbered field.2) →
      Numbered (.object fields)

theorem depth_le_depthOfItems {items : List Json} {item : Json} (h : item ∈ items) :
    item.depth ≤ depthOfItems items := by
  induction items with
  | nil => cases h
  | cons other items ih =>
    rw [depthOfItems]
    rcases List.mem_cons.mp h with rfl | h
    · exact Nat.le_max_left ..
    · exact Nat.le_trans (ih h) (Nat.le_max_right ..)

theorem depth_le_depthOfFields {fields : List (String × Json)} {field : String × Json}
    (h : field ∈ fields) : field.2.depth ≤ depthOfFields fields := by
  induction fields with
  | nil => cases h
  | cons other fields ih =>
    rw [depthOfFields]
    rcases List.mem_cons.mp h with rfl | h
    · exact Nat.le_max_left ..
    · exact Nat.le_trans (ih h) (Nat.le_max_right ..)

theorem Numbered.legible {j : Json} (h : j.Numbered) {depth : Nat} (hd : j.depth ≤ depth) :
    Legible .whole depth j := by
  induction h generalizing depth with
  | null => exact .null whole_ne_form
  | bool b => exact .bool b whole_ne_form
  | number hn => exact .number whole_ne_form hn
  | string s => exact .string s whole_ne_form
  | array _ ih =>
    obtain ⟨depth, rfl⟩ := Nat.exists_eq_add_of_le' (Nat.le_trans (Nat.le_add_left 1 _) hd)
    exact .array whole_ne_form fun item hi =>
      ih item hi (Nat.le_trans (depth_le_depthOfItems hi) (Nat.le_of_succ_le_succ hd))
  | object _ ih =>
    obtain ⟨depth, rfl⟩ := Nat.exists_eq_add_of_le' (Nat.le_trans (Nat.le_add_left 1 _) hd)
    exact .object whole_ne_form fun field hf =>
      ih field hf (Nat.le_trans (depth_le_depthOfFields hf) (Nat.le_of_succ_le_succ hd))

theorem Numbered.legible_object {scope : Scope} {fields : List (String × Json)} (hs : scope ≠ .form)
    (hscope : ∀ field ∈ fields, scope.member field.1 = .whole) (h : (Json.object fields).Numbered)
    {depth : Nat} (hd : (Json.object fields).depth ≤ depth) :
    Legible scope depth (Json.object fields) := by
  cases h with
  | object h =>
    obtain ⟨depth, rfl⟩ := Nat.exists_eq_add_of_le' (Nat.le_trans (Nat.le_add_left 1 _) hd)
    refine .object hs fun field hf => ?_
    rw [hscope field hf]
    exact (h field hf).legible
      (Nat.le_trans (depth_le_depthOfFields hf) (Nat.le_of_succ_le_succ hd))

theorem numbered_ofNat {n : Nat} (hn : n < 2 ^ 32) : (ofNat n).Numbered :=
  .number (isNumeral_ofNat (Nat.lt_trans hn (by decide)))

theorem numbered_map {α : Type} {f : α → Json} {as : List α} (h : ∀ a ∈ as, (f a).Numbered) :
    (Json.array (as.map f)).Numbered := by
  refine .array fun item hi => ?_
  obtain ⟨a, ha, rfl⟩ := List.mem_map.mp hi
  exact h a ha

theorem numbered_strings (names : List String) : (strings names).Numbered :=
  numbered_map fun name _ => .string name

theorem numbered_orNull {α : Type} {f : α → Json} {o : Option α}
    (h : ∀ a, o = some a → (f a).Numbered) : (orNull f o).Numbered := by
  cases o with
  | none => exact .null
  | some a => exact h a rfl

end Json

open Json

theorem Location.numbered_encode {l : Location} (h : l.Fits) : l.encode.Numbered := by
  refine .object fun field hf => ?_
  rcases List.mem_append.mp hf with hf | hf
  · cases hfile : l.file with
    | none => rw [hfile] at hf; cases hf
    | some file =>
      rw [hfile] at hf
      rw [List.mem_singleton.mp hf]
      exact .string file
  · simp only [List.mem_cons, List.not_mem_nil, or_false] at hf
    rcases hf with rfl | rfl
    · exact numbered_ofNat h.1
    · exact numbered_ofNat h.2

theorem EnumConstant.numbered_encode {c : EnumConstant} (h : c.Fits) : c.encode.Numbered := by
  refine .object fun field hf => ?_
  rcases List.mem_cons.mp hf with rfl | hf
  · exact .string _
  · cases hvalue : c.value with
    | none => rw [hvalue] at hf; cases hf
    | some value =>
      rw [hvalue] at hf
      obtain ⟨hge, hlt⟩ := h value hvalue
      rw [List.mem_singleton.mp hf]
      exact .number (isNumeral_ofInt (by omega))

namespace Tree

/-! ### The encoding of parts -/

/-- The fields of the tree without its location. -/
def content : Tree → List (String × Json)
  | .plain construct _ => ("node", .string construct.kind.tag) :: encodeFields construct
  | .sugar abbreviation _ =>
    ("node", .string "sugar") :: ("sugar", .string abbreviation.kind.tag) ::
      encodeSugar abbreviation

theorem encode_eq (t : Tree) : t.encode = .object (t.content ++ encodeLocation t.location) := by
  cases t <;> rw [encode] <;> rfl

theorem encodeList_eq (trees : List Tree) : encodeList trees = trees.map encode := by
  induction trees with
  | nil => rfl
  | cons tree trees ih => rw [encodeList, ih, List.map_cons]

theorem encodeOption_eq (tree : Option Tree) : encodeOption tree = orNull encode tree := by
  cases tree <;> rw [encodeOption, orNull]

theorem encodeFieldList_eq (fields : List (Field Tree)) :
    encodeFieldList fields = fields.map encodeField := by
  induction fields with
  | nil => rfl
  | cons field fields ih => rw [encodeFieldList, ih, List.map_cons]

theorem encodeBlockOption_eq (blockParam : Option (BlockParam Tree)) :
    encodeBlockOption blockParam = orNull encodeBlockParam blockParam := by
  cases blockParam <;> rw [encodeBlockOption, orNull]

/-! ### The numbers of a tree -/

theorem numbered_encodeField {field : Field Tree} (hfits : field.pointers < 2 ^ 32)
    (h : field.type.encode.Numbered) : (encodeField field).Numbered := by
  rw [encodeField]
  refine .object fun f hf => ?_
  simp only [List.mem_cons, List.not_mem_nil, or_false] at hf
  rcases hf with rfl | rfl | rfl
  · exact .string _
  · exact h
  · exact numbered_ofNat hfits

theorem numbered_encodeFieldList {fields : List (Field Tree)}
    (hfits : ∀ field ∈ fields, field.pointers < 2 ^ 32)
    (h : ∀ t ∈ fields.map Field.type, t.encode.Numbered) :
    (Json.array (fields.map encodeField)).Numbered :=
  numbered_map fun field hf => numbered_encodeField (hfits field hf) (h _ (List.mem_map_of_mem hf))

theorem numbered_encodeBlockParam {p : BlockParam Tree} (h : ∀ t ∈ p.inputs, t.encode.Numbered) :
    (encodeBlockParam p).Numbered := by
  rw [encodeBlockParam, encodeList_eq]
  refine .object fun f hf => ?_
  simp only [List.mem_cons, List.not_mem_nil, or_false] at hf
  rcases hf with rfl | rfl
  · exact .string _
  · exact numbered_map h

theorem numbered_encodeFields {c : Construct Tree} (hc : c.Fits)
    (hp : ∀ part ∈ c.children, part.encode.Numbered) :
    ∀ field ∈ encodeFields c, field.2.Numbered := by
  cases c with
  | methodDef receiver name params body returnType blockParam =>
    have hblock : (orNull encodeBlockParam blockParam).Numbered := by
      refine numbered_orNull fun p hb => numbered_encodeBlockParam fun t ht => hp t ?_
      cases hb
      simp [Construct.children, ht]
    simp only [encodeFields, Construct.children, encodeOption_eq, encodeBlockOption_eq,
      List.mem_append, List.mem_cons,
      List.not_mem_nil, Option.mem_toList, or_false, or_imp, forall_and, forall_eq] at hp ⊢
    grind [Numbered, numbered_orNull, numbered_strings]
  | enumDef name constants =>
    have hconstants :=
      numbered_map fun constant hmem => EnumConstant.numbered_encode (hc constant hmem)
    simp only [encodeFields, List.mem_cons, List.not_mem_nil, or_false, forall_eq_or_imp, forall_eq]
    exact ⟨.string name, hconstants⟩
  | _ =>
    simp only [encodeFields, Construct.children, Construct.Fits, encodeList_eq,
      encodeOption_eq, encodeFieldList_eq,
      List.mem_append, List.mem_cons, List.not_mem_nil, Option.mem_toList,
        or_false, or_imp, forall_and,
      forall_eq] at hc hp ⊢
    grind [Numbered, numbered_orNull, numbered_map, numbered_encodeFieldList,
      numbered_ofNat, numbered_strings]

theorem numbered_encodeSugar {abbreviation : Sugar Tree}
    (hp : ∀ part ∈ abbreviation.children, part.encode.Numbered) :
    ∀ field ∈ encodeSugar abbreviation, field.2.Numbered := by
  cases abbreviation <;>
  · simp only [encodeSugar, Sugar.children, encodeList_eq, encodeOption_eq,
      List.mem_append, List.mem_cons,
      List.not_mem_nil, Option.mem_toList, or_false, or_imp, forall_and, forall_eq] at hp ⊢
    grind [Numbered, numbered_orNull, numbered_map]

theorem numbered_encodeLocation {location : Option Location} (h : ∀ l ∈ location, l.Fits) :
    ∀ field ∈ encodeLocation location, field.2.Numbered := by
  cases location with
  | none => nofun
  | some l =>
    intro field hf
    rw [List.mem_singleton.mp hf]
    exact Location.numbered_encode (h l rfl)

theorem numbered_object {fields : List (String × Json)} {location : Option Location}
    (h : ∀ field ∈ fields, field.2.Numbered) (hl : ∀ l ∈ location, l.Fits) :
    (Json.object (fields ++ encodeLocation location)).Numbered := by
  refine .object fun field hf => ?_
  rcases List.mem_append.mp hf with hf | hf
  · exact h field hf
  · exact numbered_encodeLocation hl field hf

theorem Fits.numbered {t : Tree} (h : t.Fits) : t.encode.Numbered := by
  induction h with
  | plain hc hl _ ih =>
    rw [encode_eq]
    refine numbered_object (List.forall_mem_cons.mpr ⟨?_, numbered_encodeFields hc ih⟩) hl
    exact .string _
  | sugar hl _ ih =>
    rw [encode_eq]
    refine numbered_object
      (List.forall_mem_cons.mpr ⟨?_, List.forall_mem_cons.mpr ⟨?_, numbered_encodeSugar ih⟩⟩) hl <;>
      exact .string _

/-! ### The nesting of parts -/

theorem depth_le_depth_map {α : Type} {f : α → Json} {as : List α} {a : α} (h : a ∈ as) :
    (f a).depth ≤ (Json.array (as.map f)).depth :=
  Nat.le_succ_of_le (depth_le_depthOfItems (List.mem_map_of_mem h))

theorem depth_le_depth_encodeFieldList {fields : List (Field Tree)} {part : Tree}
    (h : part ∈ fields.map Field.type) :
    part.encode.depth ≤ (Json.array (fields.map encodeField)).depth := by
  obtain ⟨field, hf, rfl⟩ := List.mem_map.mp h
  refine Nat.le_trans ?_ (depth_le_depth_map hf)
  rw [encodeField, depth]
  exact Nat.le_succ_of_le (depth_le_depthOfFields (show ("type", field.type.encode) ∈ _ by simp))

theorem depth_le_depth_encodeBlockParam {p : BlockParam Tree} {part : Tree} (h : part ∈ p.inputs) :
    part.encode.depth ≤ (encodeBlockParam p).depth := by
  refine Nat.le_trans (depth_le_depth_map h) ?_
  rw [encodeBlockParam, encodeList_eq, depth]
  exact Nat.le_succ_of_le
    (depth_le_depthOfFields (show ("inputs", Json.array (p.inputs.map encode)) ∈ _ by simp))

theorem depth_le_depthOfFields_encodeFields {c : Construct Tree} {part : Tree}
    (h : part ∈ c.children) : part.encode.depth ≤ depthOfFields (encodeFields c) := by
  have hlist : ∀ trees : List Tree, part ∈ trees →
      part.encode.depth ≤ (Json.array (trees.map encode)).depth :=
    fun _ => depth_le_depth_map
  have hfields : ∀ fields : List (Field Tree), part ∈ fields.map Field.type →
      part.encode.depth ≤ (Json.array (fields.map encodeField)).depth :=
        fun _ => depth_le_depth_encodeFieldList
  cases c with
  | methodDef receiver name params body returnType blockParam =>
    have hblock : ∀ p : BlockParam Tree, part ∈ p.inputs →
        part.encode.depth ≤ (encodeBlockParam p).depth :=
      fun _ => depth_le_depth_encodeBlockParam
    cases blockParam <;>
    · simp only [encodeFields, Construct.children, encodeOption_eq,
        encodeBlockOption_eq, depthOfFields,
        List.mem_append, List.not_mem_nil, Option.mem_toList, or_false] at h ⊢
      grind [orNull]
  | _ =>
    simp only [encodeFields, Construct.children, encodeList_eq, encodeOption_eq,
      encodeFieldList_eq, depthOfFields,
      List.mem_append, List.mem_cons, List.not_mem_nil, Option.mem_toList, or_false] at h ⊢ <;>
    grind [orNull]

theorem depth_le_depthOfFields_encodeSugar {abbreviation : Sugar Tree} {part : Tree}
    (h : part ∈ abbreviation.children) :
    part.encode.depth ≤ depthOfFields (encodeSugar abbreviation) := by
  have hlist : ∀ trees : List Tree, part ∈ trees →
      part.encode.depth ≤ (Json.array (trees.map encode)).depth :=
    fun _ => depth_le_depth_map
  cases abbreviation <;>
    simp only [encodeSugar, Sugar.children, encodeList_eq, encodeOption_eq, depthOfFields,
      List.mem_append, List.mem_cons, List.not_mem_nil, Option.mem_toList, or_false] at h ⊢ <;>
    grind [orNull]

theorem depthOfFields_append (before after : List (String × Json)) :
    depthOfFields (before ++ after) = max (depthOfFields before) (depthOfFields after) := by
  induction before with
  | nil => exact (Nat.zero_max _).symm
  | cons field before ih => rw [List.cons_append, depthOfFields, depthOfFields, ih, Nat.max_assoc]

/-- The parts of a tree are nested less deeply than the tree. -/
theorem depth_lt_depth_plain {c : Construct Tree} {part : Tree} (h : part ∈ c.children)
    (location : Option Location) : part.encode.depth < (plain c location).encode.depth := by
  have hle := depth_le_depthOfFields_encodeFields h
  simp only [encode, depth, depthOfFields, depthOfFields_append]
  omega

theorem depth_lt_depth_sugar {abbreviation : Sugar Tree} {part : Tree}
    (h : part ∈ abbreviation.children) (location : Option Location) :
    part.encode.depth < (sugar abbreviation location).encode.depth := by
  have hle := depth_le_depthOfFields_encodeSugar h
  simp only [encode, depth, depthOfFields, depthOfFields_append]
  omega

/-! ### What is read of a tree -/

theorem map_fst_encodeFields (c : Construct Tree) :
    (encodeFields c).map Prod.fst = c.kind.fieldNames := by
  cases c <;> rfl

theorem map_fst_encodeSugar (abbreviation : Sugar Tree) :
    (encodeSugar abbreviation).map Prod.fst = abbreviation.kind.fieldNames := by
  cases abbreviation <;> rfl

theorem Fits.location {t : Tree} (h : t.Fits) : ∀ l ∈ t.location, l.Fits := by
  cases h <;> assumption

/-- No two fields of a tree have the same key. -/
theorem nodup_keys (t : Tree) : (t.content.map Prod.fst ++ ["location"]).Nodup := by
  cases t with
  | plain c _ =>
    rw [content, List.map_cons, map_fst_encodeFields]
    cases c.kind <;> decide
  | sugar abbreviation _ =>
    rw [content, List.map_cons, List.map_cons, map_fst_encodeSugar]
    cases abbreviation.kind <;> decide

theorem key_ne_location {t : Tree} {field : String × Json} (h : field ∈ t.content) :
    field.1 ≠ "location" :=
  (List.nodup_append.mp t.nodup_keys).2.2 field.1 (List.mem_map_of_mem h) _
    (List.mem_singleton.mpr rfl)

theorem scope_member_of_ne {key : String} (h : key ≠ "location") :
    scope.member key = .whole :=
  if_neg h

theorem legible_location {l : Location} (h : l.Fits) {depth : Nat} (hd : l.encode.depth ≤ depth) :
    Legible (scope.member "location") depth l.encode := by
  have hs : scope.member "location" ≠ .form := nofun
  refine Numbered.legible_object hs (fun field hf => if_pos ?_) (Location.numbered_encode h) hd
  cases hfile : l.file <;>
  · simp only [hfile, List.nil_append, List.cons_append, List.mem_cons,
      List.not_mem_nil, or_false] at hf
    rcases hf with rfl | rfl | rfl <;> simp [Location.fieldNames]

/-- All of the JSON of a tree is read. -/
theorem Fits.legible {t : Tree} (h : t.Fits) {depth : Nat} (hd : t.encode.depth ≤ depth) :
    Legible scope depth t.encode := by
  have hn := h.numbered
  rw [encode_eq] at hn hd ⊢
  obtain ⟨depth, rfl⟩ := Nat.exists_eq_add_of_le' (Nat.le_trans (Nat.le_add_left 1 _) hd)
  cases hn with
  | object hn =>
    refine .object nofun fun field hf => ?_
    have hdepth := Nat.le_trans (depth_le_depthOfFields hf) (Nat.le_of_succ_le_succ hd)
    rcases List.mem_append.mp hf with hcontent | hlocation
    · rw [scope_member_of_ne (key_ne_location hcontent)]
      exact (hn field hf).legible hdepth
    · cases hl : t.location with
      | none => rw [hl] at hlocation; cases hlocation
      | some l =>
        rw [hl] at hlocation
        rw [List.mem_singleton.mp hlocation] at hdepth ⊢
        exact legible_location (h.location l hl) hdepth

end Tree

end TypeFlow
