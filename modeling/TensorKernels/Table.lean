/-!
# Finite maps in order of insertion

A `Table` keeps one value per key, in the order in which the keys were first inserted. What an
operation does is said through `find?`: `find?_insert`, `find?_erase`.
-/

set_option autoImplicit false

namespace TensorKernels

/-- A finite map from `κ` to `β`. -/
structure Table (κ β : Type) where
  /-- Keys with their values, the oldest key first. -/
  entries : List (κ × β)
  deriving Repr

namespace Table

variable {κ β : Type} [DecidableEq κ]

/-- The empty map. -/
def empty : Table κ β := ⟨[]⟩

/-- The value of a key in a list of entries. -/
def lookup (key : κ) : List (κ × β) → Option β
  | [] => none
  | (k, v) :: rest => if k = key then some v else lookup key rest

/-- The entries with the value of `key` replaced, or with a new entry at the end. -/
def put (key : κ) (value : β) : List (κ × β) → List (κ × β)
  | [] => [(key, value)]
  | (k, v) :: rest => if k = key then (k, value) :: rest else (k, v) :: put key value rest

/-- The entries with `f` applied to the value of `key`. -/
def adjust (key : κ) (f : β → β) : List (κ × β) → List (κ × β)
  | [] => []
  | (k, v) :: rest => if k = key then (k, f v) :: rest else (k, v) :: adjust key f rest

/-- The value of a key. -/
def find? (t : Table κ β) (key : κ) : Option β := lookup key t.entries

/-- Whether the key has a value. -/
def contains (t : Table κ β) (key : κ) : Bool := (t.find? key).isSome

/-- Gives a key its value, replacing an earlier one. -/
def insert (t : Table κ β) (key : κ) (value : β) : Table κ β := ⟨put key value t.entries⟩

/-- Changes the value of a key that has one. -/
def modify (t : Table κ β) (key : κ) (f : β → β) : Table κ β := ⟨adjust key f t.entries⟩

/-- Forgets a key. -/
def erase (t : Table κ β) (key : κ) : Table κ β := ⟨t.entries.filter fun e => e.1 ≠ key⟩

/-- Inserts every entry of `u`, in order. -/
def union (t u : Table κ β) : Table κ β := u.entries.foldl (fun t e => t.insert e.1 e.2) t

/-- Inserts every pair of a list, in order. -/
def ofList (l : List (κ × β)) : Table κ β := l.foldl (fun t e => t.insert e.1 e.2) empty

/-- Nothing is found in the empty map. -/
@[simp] theorem find?_empty (key : κ) : (empty : Table κ β).find? key = none := rfl

/-- An insertion is found under its key, and changes no other key. -/
theorem find?_insert (t : Table κ β) (key key' : κ) (value : β) :
    (t.insert key value).find? key' = if key = key' then some value else t.find? key' := by
  obtain ⟨l⟩ := t
  induction l with
  | nil => rfl
  | cons e l ih =>
    obtain ⟨k, v⟩ := e
    simp only [insert, find?] at ih ⊢
    grind [put, lookup]

/-- A change is found under its key if the key has a value, and changes no other key. -/
theorem find?_modify (t : Table κ β) (key key' : κ) (f : β → β) :
    (t.modify key f).find? key' =
      if key = key' then (t.find? key').map f else t.find? key' := by
  obtain ⟨l⟩ := t
  induction l with
  | nil => simp [modify, find?, adjust, lookup]
  | cons e l ih =>
    obtain ⟨k, v⟩ := e
    simp only [modify, find?] at ih ⊢
    grind [adjust, lookup]

/-- A forgotten key is not found, and all others are as before. -/
theorem find?_erase (t : Table κ β) (key key' : κ) :
    (t.erase key).find? key' = if key = key' then none else t.find? key' := by
  obtain ⟨l⟩ := t
  induction l with
  | nil => simp [erase, find?, lookup]
  | cons e l ih =>
    obtain ⟨k, v⟩ := e
    simp only [erase, find?] at ih ⊢
    grind [lookup]

end Table

end TensorKernels
