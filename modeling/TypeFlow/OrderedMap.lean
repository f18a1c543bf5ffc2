/-!
# Maps that keep insertion order

A finite map as its list of entries. `insert` replaces the value of a key in place and puts a new
key last, so `keys` is the order in which the keys first came.
-/

namespace TypeFlow

structure OrderedMap (κ ν : Type) where
  entries : List (κ × ν)
  deriving DecidableEq, Repr

namespace OrderedMap

variable {κ ν : Type}

def empty : OrderedMap κ ν := ⟨[]⟩

instance : EmptyCollection (OrderedMap κ ν) := ⟨empty⟩

instance : Inhabited (OrderedMap κ ν) := ⟨empty⟩

def isEmpty (m : OrderedMap κ ν) : Bool := m.entries.isEmpty

def size (m : OrderedMap κ ν) : Nat := m.entries.length

def keys (m : OrderedMap κ ν) : List κ := m.entries.map Prod.fst

def singleton (k : κ) (v : ν) : OrderedMap κ ν := ⟨[(k, v)]⟩

variable [DecidableEq κ]

/-- The value of the first entry with the key. -/
def lookupIn (k : κ) : List (κ × ν) → Option ν
  | [] => none
  | (l, v) :: rest => if k = l then some v else lookupIn k rest

def get? (m : OrderedMap κ ν) (k : κ) : Option ν := lookupIn k m.entries

def contains (m : OrderedMap κ ν) (k : κ) : Bool := (m.get? k).isSome

def insertIn (k : κ) (v : ν) : List (κ × ν) → List (κ × ν)
  | [] => [(k, v)]
  | (l, w) :: rest => if k = l then (k, v) :: rest else (l, w) :: insertIn k v rest

def insert (m : OrderedMap κ ν) (k : κ) (v : ν) : OrderedMap κ ν := ⟨insertIn k v m.entries⟩

def erase (m : OrderedMap κ ν) (k : κ) : OrderedMap κ ν := ⟨m.entries.filter fun e => e.1 ≠ k⟩

def ofList (entries : List (κ × ν)) : OrderedMap κ ν :=
  entries.foldl (fun m e => m.insert e.1 e.2) empty

@[simp] theorem get?_empty (k : κ) : (empty : OrderedMap κ ν).get? k = none := rfl

theorem lookupIn_insertIn (k l : κ) (v : ν) (es : List (κ × ν)) :
    lookupIn l (insertIn k v es) = if l = k then some v else lookupIn l es := by
  induction es with
  | nil => rfl
  | cons e es ih =>
    obtain ⟨j, w⟩ := e
    by_cases h : k = j
    · subst h
      by_cases hl : l = k <;> simp [insertIn, lookupIn, hl]
    · by_cases hl : l = j
      · subst hl
        simp [insertIn, lookupIn, h, Ne.symm h]
      · simp [insertIn, lookupIn, h, hl, ih]

theorem get?_insert (m : OrderedMap κ ν) (k l : κ) (v : ν) :
    (m.insert k v).get? l = if l = k then some v else m.get? l :=
  lookupIn_insertIn k l v m.entries

@[simp] theorem get?_insert_self (m : OrderedMap κ ν) (k : κ) (v : ν) :
    (m.insert k v).get? k = some v := by
  simp [get?_insert]

theorem get?_insert_of_ne (m : OrderedMap κ ν) {k l : κ} (v : ν) (h : l ≠ k) :
    (m.insert k v).get? l = m.get? l := by
  simp [get?_insert, h]

/-- A value for a new key leaves the others. -/
theorem get?_insert_of_new {m : OrderedMap κ ν} {k l : κ} {v w : ν} (hnew : m.get? k = none)
    (hl : m.get? l = some w) : (m.insert k v).get? l = some w := by
  refine (get?_insert_of_ne m v ?_).trans hl
  rintro rfl
  rw [hnew] at hl; cases hl

theorem mem_keys {m : OrderedMap κ ν} {k : κ} : k ∈ m.keys ↔ m.get? k ≠ none := by
  obtain ⟨es⟩ := m
  show k ∈ es.map Prod.fst ↔ lookupIn k es ≠ none
  induction es with
  | nil => simp [lookupIn]
  | cons e es ih =>
    obtain ⟨l, w⟩ := e
    by_cases h : k = l
    · simp [lookupIn, h]
    · simp [lookupIn, h, ih]

end OrderedMap

/-- Adds a value to a list of distinct values, last if it is new. -/
def insertLast {α : Type} [DecidableEq α] (xs : List α) (x : α) : List α :=
  if x ∈ xs then xs else xs ++ [x]

end TypeFlow
