import Mathlib.Data.List.Nodup
import TypeFlow.Proofs.Tree.Encoded

/-!
# Trees that are read back

Decoding undoes encoding: each field is found under its key and read as what was written there
(`decode?_encode`). Together with what is read of the printed JSON this is the round trip of a whole
tree (`ofJson?_toJson`).
-/

namespace TypeFlow

variable {α : Type}

namespace Json

/-- A part that may be `null`. -/
def optionally (read : Json → Option α) : Json → Option (Option α)
  | .null => some none
  | j => (read j).map some

theorem optionally_orNull {read : Json → Option α} {f : α → Json} (hnull : ∀ a, f a ≠ .null)
    {o : Option α} (h : ∀ a, o = some a → read (f a) = some a) :
    optionally read (orNull f o) = some o := by
  cases o with
  | none => rfl
  | some a =>
    rw [orNull, optionally, h a rfl]
    · rfl
    · exact hnull a

theorem mapM_map {read : Json → Option α} {f : α → Json} {as : List α}
    (h : ∀ a ∈ as, read (f a) = some a) : (as.map f).mapM read = some as := by
  induction as with
  | nil => rfl
  | cons a as ih =>
    rw [List.map_cons, List.mapM_cons, h a (by simp), ih fun b hb =>
      h b (List.mem_cons_of_mem _ hb)]
    rfl

theorem list?_map {read : Json → Option α} {f : α → Json} {as : List α}
    (h : ∀ a ∈ as, read (f a) = some a) : list? read (.array (as.map f)) = some as :=
  mapM_map h

theorem strings?_strings (names : List String) : strings? (strings names) = some names :=
  list?_map fun _ _ => rfl

theorem char?_singleton (c : Char) : char? (.string (String.singleton c)) = some c := by
  simp [char?]

end Json

open Json

namespace Fields
variable {fields : Fields} {key : String} {read : Json → Option α}

theorem required_eq : fields.required key read = (fields.lookup key).bind read := by
  rw [required]
  cases fields.lookup key <;> rfl

theorem optional_eq :
    fields.optional key read = (fields.lookup key).elim (some none) (optionally read) := by
  rw [optional]
  cases fields.lookup key with
  | none => rfl
  | some j => cases j <;> rfl

theorem orElse_eq {default : α} :
    fields.orElse key default read = (fields.lookup key).elim (some default) read := by
  rw [orElse]
  cases fields.lookup key <;> rfl

/-- Where all keys are different, so are those of a list. -/
theorem areSingle_of_nodup {keys : List String} (h : (fields.map Prod.fst).Nodup) :
    areSingle keys fields = true := by
  refine List.all_eq_true.mpr fun key _ => decide_eq_true ?_
  have hcount := List.nodup_iff_count_le_one.mp h key
  rw [List.count_eq_length_filter, List.filter_map, List.length_map] at hcount
  exact hcount

end Fields

/-! ### Numbers and names -/

theorem NumberKind.decode?_suffix (kind : NumberKind) :
    NumberKind.decode? (.string kind.suffix) = some kind := by
  cases kind <;> decide

theorem ShortCircuit.decode?_tag (operator : ShortCircuit) :
    ShortCircuit.decode? (.string operator.tag) = some operator := by
  cases operator <;> decide

theorem SugarKind.ofTag?_tag (kind : SugarKind) : SugarKind.ofTag? kind.tag = some kind := by
  cases kind <;> decide

/-! ### Records -/

theorem Json.record?_object {names : List String} {fields : Fields}
    (h : (fields.map Prod.fst).Nodup) :
    record? names (.object fields) = some fields :=
  if_pos (Fields.areSingle_of_nodup h)

theorem Json.nat32?_ofNat {n : Nat} (h : n < 2 ^ 32) : nat32? (.ofNat n) = some n :=
  natUpTo?_ofNat (Nat.le_pred_of_lt h)

theorem Json.int64?_ofInt {i : Int} (h : -2 ^ 63 ≤ i ∧ i < 2 ^ 63) :
    int64? (.ofInt i) = some i := by
  rw [int64?, show (ofInt i).int? = some i from intOfText_ofInt i]
  exact if_pos h

theorem Location.decode?_encode {l : Location} (h : l.Fits) :
    Location.decode? l.encode = some l := by
  obtain ⟨file, line, column⟩ := l
  have hline := nat32?_ofNat h.1
  have hcolumn := nat32?_ofNat h.2
  rw [decode?, encode, record?_object (by cases file <;> simp)]
  cases file <;>
    simp [Fields.required_eq, Fields.optional_eq, List.lookup_cons, optionally,
      string?, hline, hcolumn]

theorem EnumConstant.decode?_encode {c : EnumConstant} (h : c.Fits) :
    EnumConstant.decode? c.encode = some c := by
  obtain ⟨name, value⟩ := c
  rw [decode?, encode, record?_object (by cases value <;> simp)]
  cases value with
  | none => simp [Fields.required_eq, Fields.optional_eq, List.lookup_cons, string?]
  | some value =>
    have hvalue : optionally int64? (.ofInt value) = some (some value) :=
      congrArg (Option.map some) (int64?_ofInt (h value rfl))
    simp [Fields.required_eq, Fields.optional_eq, List.lookup_cons, string?, hvalue]

section Parts
variable {part : Json → Option Tree}

theorem Field.decode?_encodeField {field : Field Tree} (hfits : field.pointers < 2 ^ 32)
    (h : part field.type.encode = some field.type) :
    Field.decode? part (Tree.encodeField field) = some field := by
  obtain ⟨name, type, pointers⟩ := field
  rw [decode?, Tree.encodeField, record?_object (by simp)]
  simp [Fields.required_eq, Fields.orElse_eq, List.lookup_cons, string?, h, nat32?_ofNat hfits]

theorem BlockParam.decode?_encodeBlockParam {p : BlockParam Tree}
    (h : ∀ t ∈ p.inputs, part t.encode = some t) :
    BlockParam.decode? part (Tree.encodeBlockParam p) = some p := by
  obtain ⟨name, inputs⟩ := p
  rw [decode?, Tree.encodeBlockParam, record?_object (by simp), Tree.encodeList_eq]
  simp [Fields.required_eq, Fields.orElse_eq, List.lookup_cons, string?, list?_map h]

theorem Tree.encode_ne_null (t : Tree) : t.encode ≠ .null := by
  simp [Tree.encode_eq]

theorem Tree.encodeBlockParam_ne_null (p : BlockParam Tree) : encodeBlockParam p ≠ .null := by
  rw [encodeBlockParam]
  exact Json.noConfusion

theorem optionally_encode {o : Option Tree} (h : ∀ t, o = some t → part t.encode = some t) :
    optionally part (orNull Tree.encode o) = some o :=
  optionally_orNull Tree.encode_ne_null h

theorem list?_encodeField {fields : List (Field Tree)}
    (hfits : ∀ field ∈ fields, field.pointers < 2 ^ 32)
    (h : ∀ t ∈ fields.map Field.type, part t.encode = some t) :
    list? (Field.decode? part) (.array (fields.map Tree.encodeField)) = some fields :=
  list?_map fun field hf => Field.decode?_encodeField (hfits field hf)
    (h _ (List.mem_map_of_mem hf))

/-- The fields of a construct are read as what was written there. -/
theorem Construct.decodeFields?_encodeFields {c : Construct Tree} (hc : c.Fits)
    (h : ∀ a ∈ c.children, part a.encode = some a) (node : Json) (others : Fields) :
    decodeFields? part (("node", node) :: (Tree.encodeFields c ++ others)) c.kind = some c := by
  have hname : ∀ name : Option String, optionally string? (orNull Json.string name) = some name :=
    fun name => optionally_orNull nofun fun _ _ => rfl
  have hnames : ∀ names : Option (List String), optionally strings?
      (orNull strings names) = some names :=
    fun names => optionally_orNull nofun fun _ _ => strings?_strings _
  have hop : ∀ op : Option ShortCircuit,
      optionally ShortCircuit.decode? (orNull (fun op => Json.string op.tag) op) = some op :=
    fun op => optionally_orNull nofun fun _ _ => ShortCircuit.decode?_tag _
  cases c with
  | methodDef receiver name params body returnType blockParam =>
    have hblock : optionally (BlockParam.decode? part) (orNull Tree.encodeBlockParam blockParam) =
        some blockParam := by
      refine optionally_orNull Tree.encodeBlockParam_ne_null fun p hb =>
        BlockParam.decode?_encodeBlockParam fun t ht =>
        h t ?_
      cases hb
      simp [children, ht]
    simp only [children, List.mem_append, Option.mem_toList, or_imp, forall_and] at h
    simp (disch := simp_all) [kind, decodeFields?, Tree.encodeFields, Tree.encodeOption_eq,
      Tree.encodeBlockOption_eq,
      Fields.required_eq, Fields.optional_eq, Fields.orElse_eq, List.lookup_cons,
        string?, optionally_encode,
      strings?_strings, hblock]
  | funDef name realName args returnType pointers varargs =>
    simp only [children, List.mem_append, Option.mem_toList, or_imp, forall_and] at h
    simp [kind, decodeFields?, Tree.encodeFields, Tree.encodeFieldList_eq, Tree.encodeOption_eq,
      Fields.required_eq, Fields.optional_eq, Fields.orElse_eq, List.lookup_cons, string?, bool?,
      list?_encodeField hc.1 h.1, optionally_encode h.2, nat32?_ofNat hc.2]
  | structDef name fields =>
    simp [kind, decodeFields?, Tree.encodeFields, Tree.encodeFieldList_eq,
      Fields.required_eq, Fields.orElse_eq, List.lookup_cons, string?, list?_encodeField hc h]
  | unionDef name fields =>
    simp [kind, decodeFields?, Tree.encodeFields, Tree.encodeFieldList_eq,
      Fields.required_eq, Fields.orElse_eq, List.lookup_cons, string?, list?_encodeField hc h]
  | enumDef name constants =>
    have hconstants := list?_map fun constant hmem => EnumConstant.decode?_encode (hc constant hmem)
    simp [kind, decodeFields?, Tree.encodeFields, Fields.required_eq, List.lookup_cons,
      string?, hconstants]
  | aliasDef name type pointers =>
    simp only [children, List.mem_singleton, forall_eq] at h
    simp [kind, decodeFields?, Tree.encodeFields, Fields.required_eq, Fields.orElse_eq,
      List.lookup_cons, string?, h, nat32?_ofNat hc]
  | _ =>
    simp only [children, List.mem_append, List.mem_cons, List.not_mem_nil,
      Option.mem_toList, or_false, or_imp, forall_and, forall_eq] at h
    simp (disch := simp_all) [kind, decodeFields?, Tree.encodeFields, Tree.encodeList_eq,
      Tree.encodeOption_eq,
      Fields.required_eq, Fields.optional_eq, Fields.orElse_eq, List.lookup_cons, hname, hnames,
        hop, string?, bool?, h,
      list?_map, optionally_encode, NumberKind.decode?_suffix, char?_singleton, strings?_strings]

theorem Sugar.decodeFields?_encodeSugar {abbreviation : Sugar Tree}
    (h : ∀ a ∈ abbreviation.children, part a.encode = some a) (node tag : Json) (others : Fields) :
    decodeFields? part
        (("node", node) :: ("sugar", tag) :: (Tree.encodeSugar abbreviation ++ others))
      abbreviation.kind = some abbreviation := by
  cases abbreviation <;>
  · simp only [children, List.mem_append, List.mem_cons, List.not_mem_nil,
      Option.mem_toList, or_false, or_imp, forall_and, forall_eq] at h
    simp (disch := simp_all) [kind, decodeFields?, Tree.encodeSugar, Tree.encodeList_eq,
      Tree.encodeOption_eq,
      Fields.required_eq, Fields.optional_eq, Fields.orElse_eq, List.lookup_cons, string?,
        bool?, h, list?_map,
      optionally_encode]

end Parts

/-! ### Trees -/

namespace Tree

theorem nodup_fields (t : Tree) :
    ((t.content ++ encodeLocation t.location).map Prod.fst).Nodup := by
  refine t.nodup_keys.sublist ?_
  rw [List.map_append]
  refine (List.Sublist.refl _).append ?_
  cases t.location with
  | none => exact List.nil_sublist _
  | some l => exact List.Sublist.refl _

/-- The location is the field of that name. -/
theorem optional_location {t : Tree} (h : t.Fits) :
    Fields.optional (t.content ++ encodeLocation t.location) "location" Location.decode? =
      some t.location := by
  have hcontent : t.content.lookup "location" = none := by
    rw [List.lookup_eq_none_iff]
    exact fun field hf => bne_iff_ne.mpr (key_ne_location hf).symm
  rw [Fields.optional_eq, List.lookup_append, hcontent, Option.none_or]
  cases hl : t.location with
  | none => rfl
  | some l =>
    exact congrArg (Option.map some) (Location.decode?_encode (h.location l hl))

theorem areSingle_fields (t : Tree) (keys : List String) :
    Fields.areSingle keys (t.content ++ encodeLocation t.location) = true :=
  Fields.areSingle_of_nodup t.nodup_fields

theorem decode?_tag (kind : Kind) : TreeTag.decode? (.string kind.tag) = some (.plain kind) := by
  cases kind <;> rfl

/-- A construct is read back as soon as its parts are. -/
theorem decodeLayer?_plain {part : Json → Option Tree} {c : Construct Tree}
    {location : Option Location} (hfits : (plain c location).Fits)
    (h : ∀ a ∈ c.children, part a.encode = some a) :
    decodeLayer? part (plain c location).encode = some (plain c location) := by
  have hc : c.Fits := by cases hfits; assumption
  have hnode : Fields.required ((plain c location).content ++ encodeLocation location)
      "node" TreeTag.decode? =
      some (.plain c.kind) := by
    rw [Fields.required_eq, content, List.cons_append, List.lookup_cons_self]
    exact decode?_tag c.kind
  have hparts : Construct.decodeFields? part
      ((plain c location).content ++ encodeLocation location) c.kind = some c :=
    Construct.decodeFields?_encodeFields hc h _ _
  have hlocation := optional_location hfits
  have hsingle := areSingle_fields (plain c location)
  rw [encode_eq, decodeLayer?]
  simp only [Tree.location] at hlocation hsingle ⊢
  simp [hsingle, hlocation, hnode, hparts]

theorem decodeLayer?_sugar {part : Json → Option Tree} {abbreviation : Sugar Tree}
    {location : Option Location} (hfits : (sugar abbreviation location).Fits)
    (h : ∀ a ∈ abbreviation.children, part a.encode = some a) :
    decodeLayer? part (sugar abbreviation location).encode = some
      (sugar abbreviation location) := by
  have hnode :
      Fields.required ((sugar abbreviation location).content ++ encodeLocation location) "node"
      TreeTag.decode? = some .sugar := by
    rw [Fields.required_eq, content, List.cons_append, List.lookup_cons_self]
    rfl
  have hsugar :
      Fields.required ((sugar abbreviation location).content ++ encodeLocation location) "sugar"
      SugarKind.decode? = some abbreviation.kind := by
    rw [Fields.required_eq]
    exact SugarKind.ofTag?_tag abbreviation.kind
  have hparts :
      Sugar.decodeFields? part ((sugar abbreviation location).content ++ encodeLocation location)
      abbreviation.kind = some abbreviation := Sugar.decodeFields?_encodeSugar h _ _ _
  have hlocation := optional_location hfits
  have hsingle := areSingle_fields (sugar abbreviation location)
  rw [encode_eq, decodeLayer?]
  simp only [Tree.location] at hlocation hsingle ⊢
  simp [hsingle, hlocation, hnode, hsugar, hparts]

theorem decodeWithin?_encode {t : Tree} (h : t.Fits) {fuel : Nat} (hfuel : t.encode.depth < fuel) :
    decodeWithin? fuel t.encode = some t := by
  induction h generalizing fuel with
  | plain hc hl hparts ih =>
    obtain ⟨fuel, rfl⟩ := Nat.exists_eq_add_of_le' (Nat.zero_lt_of_lt hfuel)
    exact decodeLayer?_plain (.plain hc hl hparts) fun part hp =>
      ih part hp (Nat.lt_of_lt_of_le (depth_lt_depth_plain hp _) (Nat.le_of_lt_succ hfuel))
  | sugar hl hparts ih =>
    obtain ⟨fuel, rfl⟩ := Nat.exists_eq_add_of_le' (Nat.zero_lt_of_lt hfuel)
    exact decodeLayer?_sugar (.sugar hl hparts) fun part hp =>
      ih part hp (Nat.lt_of_lt_of_le (depth_lt_depth_sugar hp _) (Nat.le_of_lt_succ hfuel))

/-- Decoding undoes encoding, however deeply the tree is nested. -/
theorem decode?_encode {t : Tree} (h : t.Fits) : decode? t.encode = some t :=
  decodeWithin?_encode h (Nat.lt_succ_self _)

/-- A tree is read back from its JSON text, given that so many arrays and objects may be open at
once. Deeper trees are written all the same: with room for them, so are they read back. -/
theorem ofJson?_toJson {t : Tree} (h : t.Fits) :
    (t.encode.depth ≤ nestingLimit → ofJson? t.toJson = some t) ∧
      ∀ limit, t.encode.depth ≤ limit → (parse? scope limit t.toJson).bind decode? = some t := by
  have hread : ∀ limit, t.encode.depth ≤ limit →
      (parse? scope limit t.toJson).bind decode? = some t := by
    intro limit hd
    rw [toJson, (h.legible hd).parse?_pretty]
    exact decode?_encode h
  exact ⟨hread nestingLimit, hread⟩

/-- Quotes, escapes, characters of any plane, sugar, a location, an enum's values and an absent
part. -/
def escapes : Tree :=
  sugar (.stringInterpolation
    [plain (.stringLiteral "\"\\/\n\x01é😀") (some ⟨some "a\tb", 1, 4⟩),
     plain (.enumDef "E" [⟨"A", some (-1)⟩, ⟨"B", none⟩]) none,
     plain (.call none "f" [plain .nop none] none) none]) none

/-- Five arrays and objects are open at once. -/
theorem ofJson?_toJson_escapes : escapes.Fits ∧ escapes.encode.depth = 5 ∧
    ofJson? escapes.toJson = some escapes ∧
    (parse? scope 5 escapes.toJson).bind decode? = some escapes := by
  have hdepth : escapes.encode.depth = 5 := by decide
  have hfits : escapes.Fits := by
    refine .sugar (by simp) fun part hp => ?_
    simp only [Sugar.children, List.mem_cons, List.not_mem_nil, or_false] at hp
    rcases hp with rfl | rfl | rfl
    · refine .plain trivial (fun l hl => ?_) (by simp [Construct.children])
      rw [← Option.some.inj hl]
      exact ⟨by decide, by decide⟩
    · refine .plain (fun c hc => ?_) (by simp) (by simp [Construct.children])
      simp only [List.mem_cons, List.not_mem_nil, or_false] at hc
      rcases hc with rfl | rfl
      · intro value hv
        rw [← Option.some.inj hv]
        decide
      · simp [EnumConstant.Fits]
    · refine .plain trivial (by simp) fun part hp => ?_
      rw [List.mem_singleton.mp hp]
      exact .plain trivial (by simp) (by simp [Construct.children])
  obtain ⟨hread, hdeep⟩ := ofJson?_toJson hfits
  exact ⟨hfits, hdepth, hread (by rw [hdepth]; decide), hdeep 5 (Nat.le_of_eq hdepth)⟩

end Tree

end TypeFlow
