import TypeFlow.Proofs.Tree.Operations

/-!
# Operators, read back

A reader of printed operations: `scan` finds the tokens of a text, and `step` puts them together
with a stack of what is still open. Read back, an operation has its chains of binary operators
grouped to the left (`reread_text`). So the texts of two operations are equal just if they are the
same up to this grouping, and an operation that is grouped like that is the only one of its text
(`text_eq_iff`).
-/

namespace TypeFlow

def Name.cons {c : Char} (h : isLetter c = true) (n : Name) : Name where
  chars := c :: n.chars
  nonempty h := nomatch h
  letters := List.forall_mem_cons.mpr ⟨h, n.letters⟩

def Literal.cons {c : Char} (h : c.isDigit = true) (l : Literal) : Literal where
  negative := l.negative
  digits := c :: l.digits
  nonempty h := nomatch h
  decimal := List.forall_mem_cons.mpr ⟨h, l.decimal⟩

namespace Operation

/-! ### Tokens of a text -/

def spellLetter {c : Char} (h : isLetter c = true) : List Token → List Token
  | .word name :: rest => .word (name.cons h) :: rest
  | ts => .word ⟨[c], (nomatch ·), List.forall_mem_singleton.mpr h⟩ :: ts

def spellDigit {c : Char} (h : c.isDigit = true) : List Token → List Token
  | .numeral literal :: rest => .numeral (literal.cons h) :: rest
  | ts => .numeral ⟨false, [c], (nomatch ·), List.forall_mem_singleton.mpr h⟩ :: ts

def spellSign : List Token → List Token
  | .numeral literal :: rest => .numeral { literal with negative := true } :: rest
  | ts => ts

/-- A character before the tokens of what follows it; a character that starts no token is passed
over. -/
def spell (c : Char) (ts : List Token) : List Token :=
  if hletter : isLetter c = true then spellLetter hletter ts
  else if hdigit : c.isDigit = true then spellDigit hdigit ts
  else if c = '-' then spellSign ts
  else ts

def scan : List Char → List Token
  | [] => []
  | ' ' :: '+' :: ' ' :: cs => .operator .add :: scan cs
  | ' ' :: '-' :: ' ' :: cs => .operator .subtract :: scan cs
  | ' ' :: '*' :: ' ' :: cs => .operator .multiply :: scan cs
  | ' ' :: '/' :: ' ' :: cs => .operator .divide :: scan cs
  | ' ' :: '<' :: ' ' :: cs => .operator .less :: scan cs
  | ' ' :: '=' :: '=' :: ' ' :: cs => .operator .equal :: scan cs
  | '-' :: '(' :: cs => .minus :: scan cs
  | ',' :: ' ' :: cs => .comma :: scan cs
  | '.' :: cs => .dot :: scan cs
  | '(' :: cs => .leftParen :: scan cs
  | ')' :: cs => .rightParen :: scan cs
  | '[' :: cs => .leftBracket :: scan cs
  | ']' :: cs => .rightBracket :: scan cs
  | c :: cs => spell c (scan cs)

def Token.isSpelled : Token → Bool
  | word _ | numeral _ => true
  | _ => false

variable {c : Char} {cs : List Char}

theorem scan_letter (h : isLetter c = true) (cs : List Char) :
    scan (c :: cs) = spellLetter h (scan cs) := by
  rw [scan, spell, dif_pos h]
  all_goals
    intros
    subst_vars
    exact absurd h (by decide)

theorem not_isLetter_of_isDigit (h : c.isDigit = true) : isLetter c = false := by
  simp [isLetter, h]

theorem scan_digit (h : c.isDigit = true) (cs : List Char) :
    scan (c :: cs) = spellDigit h (scan cs) := by
  rw [scan, spell, dif_neg (Bool.eq_false_iff.mp (not_isLetter_of_isDigit h)), dif_pos h]
  all_goals
    intros
    subst_vars
    exact absurd h (by decide)

theorem scan_sign (h : c ≠ '(') (cs : List Char) :
    scan ('-' :: c :: cs) = spellSign (scan (c :: cs)) := by
  rw [scan, spell, dif_neg (by decide), dif_neg (by decide), if_pos rfl]
  all_goals
    intros
    simp_all

/-- The induction goes from the last letter of the word to its first. -/
theorem scan_letters {chars : List Char} (hchars : chars ≠ [])
    (hletters : ∀ c ∈ chars, isLetter c = true) (h : ∀ t ∈ (scan cs).head?, t.isSpelled = false) :
    scan (chars ++ cs) = .word ⟨chars, hchars, hletters⟩ :: scan cs := by
  induction chars with
  | nil => exact absurd rfl hchars
  | cons c rest ih =>
    obtain ⟨hc, hrest⟩ := List.forall_mem_cons.mp hletters
    rw [List.cons_append, scan_letter hc]
    cases rest with
    | nil =>
      rw [List.nil_append]
      unfold spellLetter
      split
      · rename_i hscan
        rw [hscan] at h
        exact nomatch h _ rfl
      · rfl
    | cons d rest =>
      rw [ih (nomatch ·) hrest]
      rfl

theorem scan_digits {digits : List Char} (hdigits : digits ≠ [])
    (hdecimal : ∀ c ∈ digits, c.isDigit = true) (h : ∀ t ∈ (scan cs).head?, t.isSpelled = false) :
    scan (digits ++ cs) = .numeral ⟨false, digits, hdigits, hdecimal⟩ :: scan cs := by
  induction digits with
  | nil => exact absurd rfl hdigits
  | cons c rest ih =>
    obtain ⟨hc, hrest⟩ := List.forall_mem_cons.mp hdecimal
    rw [List.cons_append, scan_digit hc]
    cases rest with
    | nil =>
      rw [List.nil_append]
      unfold spellDigit
      split
      · rename_i hscan
        rw [hscan] at h
        exact nomatch h _ rfl
      · rfl
    | cons d rest =>
      rw [ih (nomatch ·) hrest]
      rfl

theorem scan_literal (literal : Literal) (h : ∀ t ∈ (scan cs).head?, t.isSpelled = false) :
    scan (literal.chars ++ cs) = .numeral literal :: scan cs := by
  obtain ⟨_ | _, digits, hdigits, hdecimal⟩ := literal
  · exact scan_digits hdigits hdecimal h
  · obtain ⟨d, rest, rfl⟩ := List.exists_cons_of_ne_nil hdigits
    have hd : d ≠ '(' := fun heq => absurd (hdecimal d List.mem_cons_self) (by rw [heq]; decide)
    show scan ('-' :: (d :: (rest ++ cs))) = _
    rw [scan_sign hd, ← List.cons_append, scan_digits hdigits hdecimal h]
    rfl

theorem scan_token (t : Token)
    (h : t.isSpelled = true → ∀ t ∈ (scan cs).head?, t.isSpelled = false) :
    scan (t.chars ++ cs) = t :: scan cs := by
  cases t with
  | word name => exact scan_letters name.nonempty name.letters (h rfl)
  | numeral literal => exact scan_literal literal (h rfl)
  | operator o => cases o <;> rfl
  | _ => rfl

/-- Between words and numerals there is always something else. -/
def Spaced (ts : List Token) : Prop :=
  ts.IsChain fun t t' => t.isSpelled = true → t'.isSpelled = false

theorem scan_chars {ts : List Token} (h : Spaced ts) : scan (ts.flatMap Token.chars) = ts := by
  induction ts with
  | nil => rfl
  | cons t ts ih =>
    obtain ⟨hfirst, hrest⟩ := List.isChain_cons.mp h
    have hscan := ih hrest
    rw [List.flatMap_cons, scan_token t fun ht => ?_, hscan]
    rw [hscan]
    exact fun t' ht' => hfirst t' ht' ht

variable {t : Token} {ts ts' : List Token}

theorem spaced_cons (ht : t.isSpelled = false) (hts : Spaced ts) : Spaced (t :: ts) :=
  List.isChain_cons.mpr ⟨fun _ _ h => (nomatch ht.symm.trans h), hts⟩

theorem spaced_append (hts : Spaced ts) (hts' : Spaced ts')
    (h : ∀ t ∈ ts'.head?, t.isSpelled = false) : Spaced (ts ++ ts') :=
  List.isChain_append.mpr ⟨hts, hts', fun _ _ t ht _ => h t ht⟩

/-- What is between two parts is neither a word nor a numeral. -/
theorem spaced_between (hts : Spaced ts) (ht : t.isSpelled = false) (hts' : Spaced ts') :
    Spaced (ts ++ t :: ts') :=
  spaced_append hts (spaced_cons ht hts') fun _ h => Option.some.inj h ▸ ht

theorem spaced_moreTokens {args : List Operation} (h : ∀ a ∈ args, Spaced a.tokens) :
    Spaced (moreTokens args) := by
  induction args with
  | nil => exact List.isChain_singleton _
  | cons a args ih =>
    obtain ⟨ha, hargs⟩ := List.forall_mem_cons.mp h
    refine spaced_append (spaced_cons rfl ha) (ih hargs) fun t ht => ?_
    cases args <;> cases ht <;> rfl

theorem spaced_argTokens {args : List Operation} (h : ∀ a ∈ args, Spaced a.tokens) :
    Spaced (argTokens args) := by
  cases args with
  | nil => exact List.isChain_nil
  | cons a args =>
    obtain ⟨ha, hargs⟩ := List.forall_mem_cons.mp h
    refine spaced_append (spaced_cons rfl ha) (spaced_moreTokens hargs) fun t ht => ?_
    cases args <;> cases ht <;> rfl

theorem spaced_tokens (t : Operation) : Spaced t.tokens := by
  induction t using induction with
  | var | number => exact List.isChain_singleton _
  | binary l operator r ihl ihr => exact spaced_between ihl rfl ihr
  | negation t ih => exact spaced_between (spaced_cons rfl ih) rfl List.isChain_nil
  | index t i iht ihi => exact spaced_between (spaced_between iht rfl ihi) rfl List.isChain_nil
  | method t name word args iht ihargs =>
    have hreceiver :
        Spaced (if t.isCall then .leftParen :: t.tokens ++ [.rightParen] else t.tokens) := by
      split
      · exact spaced_between (spaced_cons rfl iht) rfl List.isChain_nil
      · exact iht
    have hname : Spaced ([.word name] ++ argTokens args) := by
      refine spaced_append (List.isChain_singleton _) (spaced_argTokens ihargs) fun t ht => ?_
      cases args <;> cases ht
      rfl
    exact spaced_between hreceiver rfl hname

/-! ### The text has no white space at its ends -/

/-- The tokens that are written with white space around them. -/
def Token.isOpen : Token → Bool
  | operator _ | comma => true
  | _ => false

theorem isBlank_of_isDigit {c : Char} (h : c.isDigit = true) : Text.isBlank c = false := by
  have hrange : 48 ≤ c.toNat ∧ c.toNat ≤ 57 := by
    simpa [Char.isDigit, UInt32.le_iff_toNat_le] using h
  simp only [Text.isBlank, Text.blankRanges, List.any_eq_false, Bool.and_eq_true, decide_eq_true_eq]
  generalize c.toNat = n at hrange
  simp
  omega

theorem Token.chars_of_not_isOpen (h : t.isOpen = false) :
    t.chars ≠ [] ∧ ∀ c ∈ t.chars, Text.isBlank c = false := by
  cases t with
  | word name =>
    refine ⟨name.nonempty, fun c hc => ?_⟩
    have hletter := name.letters c hc
    simp only [isLetter, Bool.and_eq_true, Bool.not_eq_true'] at hletter
    exact hletter.1.1
  | numeral literal =>
    refine ⟨List.append_ne_nil_of_right_ne_nil _ literal.nonempty, fun c hc => ?_⟩
    rcases List.mem_append.mp hc with hsign | hdigit
    · split at hsign
      · cases List.mem_singleton.mp hsign
        decide
      · cases hsign
    · exact isBlank_of_isDigit (literal.decimal c hdigit)
  | operator | comma => cases h
  | minus =>
    exact ⟨List.cons_ne_nil _ _, List.forall_mem_cons.mpr ⟨rfl, List.forall_mem_singleton.mpr rfl⟩⟩
  | _ => exact ⟨List.cons_ne_nil _ _, List.forall_mem_singleton.mpr rfl⟩

theorem exists_first (t : Operation) :
    ∃ first rest, t.tokens = first :: rest ∧ first.isOpen = false := by
  induction t using induction with
  | var name => exact ⟨.word name, [], rfl, rfl⟩
  | number literal => exact ⟨.numeral literal, [], rfl, rfl⟩
  | binary l operator r ihl _ =>
    obtain ⟨first, rest, heq, hfirst⟩ := ihl
    exact ⟨first, _, by rw [tokens, heq]; rfl, hfirst⟩
  | negation t _ => exact ⟨.minus, _, rfl, rfl⟩
  | index t i iht _ =>
    obtain ⟨first, rest, heq, hfirst⟩ := iht
    exact ⟨first, _, by rw [tokens, heq]; rfl, hfirst⟩
  | method t name word args iht _ =>
    obtain ⟨first, rest, heq, hfirst⟩ := iht
    rw [tokens]
    split
    · exact ⟨.leftParen, _, rfl, rfl⟩
    · exact ⟨first, _, by rw [heq]; rfl, hfirst⟩

theorem exists_last (t : Operation) :
    ∃ before last, t.tokens = before ++ [last] ∧ last.isOpen = false := by
  have hmore : ∀ args : List Operation, ∃ before, moreTokens args = before ++ [.rightParen] := by
    intro args
    induction args with
    | nil => exact ⟨[], rfl⟩
    | cons a args ih =>
      obtain ⟨before, heq⟩ := ih
      exact ⟨.comma :: a.tokens ++ before, by rw [moreTokens, heq, List.append_assoc]⟩
  induction t using induction with
  | var name => exact ⟨[], .word name, rfl, rfl⟩
  | number literal => exact ⟨[], .numeral literal, rfl, rfl⟩
  | binary l operator r _ ihr =>
    obtain ⟨before, last, heq, hlast⟩ := ihr
    exact ⟨l.tokens ++ .operator operator :: before, last, by rw [tokens, heq]; simp, hlast⟩
  | negation t _ => exact ⟨.minus :: t.tokens, .rightParen, rfl, rfl⟩
  | index t i _ _ => exact ⟨t.tokens ++ .leftBracket :: i.tokens, .rightBracket, rfl, rfl⟩
  | method t name word args _ _ =>
    rw [tokens]
    generalize (if t.isCall = true then _ else _) = receiver
    cases args with
    | nil => exact ⟨receiver ++ [.dot], .word name, by simp [argTokens], rfl⟩
    | cons a args =>
      obtain ⟨before, heq⟩ := hmore args
      exact ⟨receiver ++ .dot :: .word name :: .leftParen :: a.tokens ++ before, .rightParen,
        by simp [argTokens, heq], rfl⟩

theorem trimChars_eq {cs : List Char} (hfirst : ∀ c ∈ cs.head?, Text.isBlank c = false)
    (hlast : ∀ c ∈ cs.getLast?, Text.isBlank c = false) : Text.trimChars cs = cs := by
  have hkeeps : ∀ cs : List Char, (∀ c ∈ cs.head?, Text.isBlank c = false) →
      cs.dropWhile Text.isBlank = cs := by
    rintro (_ | ⟨c, cs⟩) h
    · rfl
    · exact List.dropWhile_cons_of_neg (Bool.eq_false_iff.mp (h c rfl))
  rw [Text.trimChars, hkeeps cs hfirst, hkeeps cs.reverse (by rwa [List.head?_reverse]),
    List.reverse_reverse]

theorem toList_text (t : Operation) : t.tree.text.toList = t.tokens.flatMap Token.chars := by
  rw [Tree.text, Text.trim, String.toList_ofList, toList_textAt]
  apply trimChars_eq
  · obtain ⟨first, rest, heq, hfirst⟩ := t.exists_first
    obtain ⟨hne, hblank⟩ := Token.chars_of_not_isOpen hfirst
    intro c hc
    rw [heq, List.flatMap_cons, List.head?_append_of_ne_nil _ hne] at hc
    exact hblank c (List.mem_of_mem_head? hc)
  · obtain ⟨before, last, heq, hlast⟩ := t.exists_last
    obtain ⟨hne, hblank⟩ := Token.chars_of_not_isOpen hlast
    intro c hc
    rw [heq, List.flatMap_append, List.flatMap_singleton,
      List.getLast?_append_of_ne_nil _ hne] at hc
    exact hblank c (List.mem_of_getLast? hc)

/-! ### Putting the tokens together -/

/-- What is still open, from the inside to the outside. Each has its own left side, where it
belongs. -/
inductive Opening where
  | negation (left : Left)
  /-- A receiver in parentheses. -/
  | group (left : Left)
  | index (left : Left) (receiver : Operation)
  | args (left : Left) (receiver : Operation) (name : Name) (word : Layout.isWord name.text = true)
      (before : List Operation)

inductive Reading where
  /-- An operand is to come. -/
  | wants (left : Left) (stack : List Opening)
  | has (left : Left) (operand : Operation) (stack : List Opening)
  /-- A receiver in parentheses has been read, whose method is to come. -/
  | grouped (left : Left) (receiver : Operation) (stack : List Opening)
  /-- The name of a method is to come. -/
  | names (left : Left) (receiver : Operation) (stack : List Opening)
  | stuck

def step : Reading → Token → Reading
  | .wants left stack, .word name => .has left (.var name) stack
  | .wants left stack, .numeral literal => .has left (.number literal) stack
  | .wants left stack, .minus => .wants none (.negation left :: stack)
  | .wants left stack, .leftParen => .wants none (.group left :: stack)
  | .has left t stack, .operator o => .wants (some (join (left, t), o)) stack
  | .has left t stack, .leftBracket => .wants none (.index left t :: stack)
  | .has left t stack, .dot => .names left t stack
  | .grouped left t stack, .dot => .names left t stack
  | .names left t stack, .word name =>
    if word : Layout.isWord name.text = true then .has left
      (.method t name word []) stack else .stuck
  | .has left (.method t name word _) stack, .leftParen =>
    .wants none (.args left t name word [] :: stack)
  | .has left t (.args outer r name word before :: stack), .comma =>
    .wants none (.args outer r name word (before ++ [join (left, t)]) :: stack)
  | .has left t (.negation outer :: stack), .rightParen =>
    .has outer (.negation (join (left, t))) stack
  | .has left t (.group outer :: stack), .rightParen => .grouped outer (join (left, t)) stack
  | .has left t (.args outer r name word before :: stack), .rightParen =>
    .has outer (.method r name word (before ++ [join (left, t)])) stack
  | .has left t (.index outer r :: stack), .rightBracket =>
    .has outer (.index r (join (left, t))) stack
  | _, _ => .stuck

/-- What is read from the tokens of an operation, wherever they are. -/
def ReadsBack (t : Operation) : Prop := ∀ (left : Left) (stack : List Opening),
  t.tokens.foldl step (.wants left stack) = .has (t.place left).1 (t.place left).2 stack

section
variable {name : Name} {word : Layout.isWord name.text = true} {args : List Operation}

theorem foldl_moreTokens {r : Operation} {outer : Left} (h : ∀ a ∈ args, a.ReadsBack) (left : Left)
    (t : Operation) (before : List Operation) (stack : List Opening) :
    (moreTokens args).foldl step (.has left t (.args outer r name word before :: stack)) =
      .has outer (.method r name word (before ++ join (left, t) :: args.map regroup)) stack := by
  induction args generalizing left t before with
  | nil => rfl
  | cons a args ih =>
    obtain ⟨ha, hargs⟩ := List.forall_mem_cons.mp h
    rw [moreTokens, List.foldl_append, List.foldl_cons]
    show List.foldl step
      (List.foldl step (.wants none (.args outer r name word (before ++ [join (left, t)]) :: stack))
      a.tokens) (moreTokens args) = _
    rw [ha, ih hargs]
    simp [regroup]

theorem foldl_argTokens {r : Operation} (h : ∀ a ∈ args, a.ReadsBack) (left : Left)
    (stack : List Opening) :
    (argTokens args).foldl step (.has left (.method r name word []) stack) =
      .has left (.method r name word (args.map regroup)) stack := by
  cases args with
  | nil => rfl
  | cons a args =>
    obtain ⟨ha, hargs⟩ := List.forall_mem_cons.mp h
    rw [argTokens, List.foldl_append, List.foldl_cons]
    show List.foldl step
      (List.foldl step (.wants none (.args left r name word [] :: stack)) a.tokens)
      (moreTokens args) = _
    rw [ha, foldl_moreTokens hargs]
    rfl

/-- Whether the receiver of a method has parentheses around it makes no difference. -/
theorem step_receiver {t : Operation} (h : t.ReadsBack) (left : Left) (stack : List Opening) :
    step (List.foldl step (.wants left stack)
      (if t.isCall then .leftParen :: t.tokens ++ [.rightParen] else t.tokens)) .dot =
        .names left t.regroup stack := by
  by_cases hcall : t.isCall = true
  · rw [if_pos hcall, List.foldl_append, List.foldl_cons]
    show step (List.foldl step (List.foldl step (.wants none (.group left :: stack)) t.tokens)
      [.rightParen]) .dot = _
    rw [h]
    rfl
  · rw [if_neg hcall]
    cases t with
    | var | number => rfl
    | _ => exact absurd rfl hcall

end

theorem readsBack (t : Operation) : t.ReadsBack := by
  induction t using induction with
  | var | number => exact fun _ _ => rfl
  | binary l operator r ihl ihr =>
    intro left stack
    rw [tokens, List.foldl_append, ihl, List.foldl_cons]
    exact ihr _ stack
  | negation t ih =>
    intro left stack
    rw [tokens, List.foldl_append, List.foldl_cons]
    show List.foldl step (List.foldl step (.wants none (.negation left :: stack)) t.tokens)
      [.rightParen] = _
    rw [ih]
    rfl
  | index t i iht ihi =>
    intro left stack
    rw [tokens, List.foldl_append, List.foldl_append, iht, List.foldl_cons]
    show List.foldl step (List.foldl step (.wants none (.index _ _ :: stack)) i.tokens)
      [.rightBracket] = _
    rw [ihi]
    rfl
  | method t name word args iht ihargs =>
    intro left stack
    rw [tokens, List.foldl_append, List.foldl_cons, step_receiver iht,
      List.foldl_cons, place_method]
    show List.foldl step
      (if word : _ then .has left (.method t.regroup name word []) stack else .stuck) _ = _
    rw [dif_pos word]
    exact foldl_argTokens ihargs left stack

/-- The operation that a text is read as, if it is one. -/
def reread (text : String) : Option Operation :=
  match (scan text.toList).foldl step (.wants none []) with
  | .has left t [] => some (join (left, t))
  | _ => none

theorem reread_text (t : Operation) : reread t.tree.text = some t.regroup := by
  rw [reread, toList_text, scan_chars t.spaced_tokens, t.readsBack]
  rfl

theorem text_regroup (t : Operation) : t.regroup.tree.text = t.tree.text :=
  String.toList_inj.mp (by rw [toList_text, toList_text, tokens_regroup])

/-- The text of an operation says which names, numbers and calls it consists of, and how they are
put together but for the chains of binary operators: operations have the same text just if they are
the same grouped to the left. So among those whose right operands, and receivers of index reads, are
no binary operators, each text has only one. -/
theorem text_eq_iff (t t' : Operation) :
    (t.tree.text = t'.tree.text ↔ t.regroup = t'.regroup) ∧
    (t.regroup.Clear ∧ t.regroup.tree.text = t.tree.text) ∧
    (t.Clear → t.regroup = t) ∧
    (t.Clear → t'.Clear → t.tree.text = t'.tree.text → t = t') := by
  have hiff : t.tree.text = t'.tree.text ↔ t.regroup = t'.regroup := by
    constructor
    · intro htext
      have hread := t.reread_text
      rw [htext, t'.reread_text] at hread
      exact (Option.some.inj hread).symm
    · intro hregroup
      rw [← t.text_regroup, ← t'.text_regroup, hregroup]
  refine ⟨hiff, ⟨t.clear_regroup, t.text_regroup⟩, fun h => (place_of_clear h).2,
    fun h h' htext => ?_⟩
  calc t = t.regroup := (place_of_clear h).2.symm
    _ = t'.regroup := hiff.mp htext
    _ = t' := (place_of_clear h').2

/-- A variable of one letter. -/
def letter (c : Char) (h : isLetter c = true) : Operation :=
  .var ⟨[c], (nomatch ·), List.forall_mem_singleton.mpr h⟩

/-- `a - (b - c)` -/
def rightGrouped : Operation :=
  .binary (letter 'a' (by decide)) .subtract
    (.binary (letter 'b' (by decide)) .subtract (letter 'c' (by decide)))

/-- `(a - b) - c` -/
def leftGrouped : Operation :=
  .binary (.binary (letter 'a' (by decide)) .subtract (letter 'b' (by decide))) .subtract
    (letter 'c' (by decide))

/-- `(a + b)[c]` -/
def readFromSum : Operation :=
  .index (.binary (letter 'a' (by decide)) .add (letter 'b' (by decide))) (letter 'c' (by decide))

/-- `a + b[c]` -/
def readFromLast : Operation :=
  .binary (letter 'a' (by decide)) .add (.index (letter 'b' (by decide)) (letter 'c' (by decide)))

/-- Neither parentheses around the right operand of an operator nor around a sum that is read from
are printed. -/
theorem same_text_ungrouped :
    rightGrouped.tree.text = "a - b - c" ∧ leftGrouped.tree.text = "a - b - c" ∧
    rightGrouped.tree ≠ leftGrouped.tree ∧
    readFromSum.tree.text = "a + b[c]" ∧ readFromLast.tree.text = "a + b[c]" ∧
    readFromSum.tree ≠ readFromLast.tree := by
  refine ⟨by decide +kernel, by decide +kernel, fun h => ?_,
    by decide +kernel, by decide +kernel, fun h => ?_⟩
  · simp [rightGrouped, leftGrouped, letter, tree, Tree.call, Tree.var, Tree.bare] at h
  · simp [readFromSum, readFromLast, letter, tree, Tree.call, Tree.var, Tree.bare,
      Operator.symbol] at h

end Operation
end TypeFlow
