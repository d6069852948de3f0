/-!
# Bindings

What names are bound to: in a frame, in an instance, in a class, in a scope. A name is bound at most
once, and binding it again replaces what it was bound to and keeps its place.

* `Bindings.get?` looks a name up, `Bindings.insert` binds it;
* `get?_insert`: looking up after binding;
* `contains_insert`: no name is lost by binding another.
-/

namespace Lox

/-- Names and what they are bound to, in the order in which they were first bound. -/
structure Bindings (α : Type) where
  /-- The names, each with what it is bound to. -/
  entries : List (String × α)
  deriving Repr

namespace Bindings

variable {α : Type}

/-- No names. -/
def empty : Bindings α := ⟨[]⟩

instance : EmptyCollection (Bindings α) := ⟨empty⟩

/-- What `name` is bound to among some entries. -/
def findEntry (name : String) : List (String × α) → Option α
  | [] => none
  | (x, v) :: rest => if name = x then some v else findEntry name rest

/-- What `name` is bound to. -/
def get? (name : String) (b : Bindings α) : Option α := findEntry name b.entries

/-- Whether `name` is bound. -/
def contains (name : String) (b : Bindings α) : Bool := (b.get? name).isSome

/-- The names that are bound. -/
def names (b : Bindings α) : List String := b.entries.map Prod.fst

/-- Binds `name` to `value` among some entries. -/
def insertEntry (name : String) (value : α) : List (String × α) → List (String × α)
  | [] => [(name, value)]
  | (x, v) :: rest => if name = x then (name, value) :: rest else (x, v) ::
      insertEntry name value rest

/-- Binds `name` to `value`, whatever it was bound to before. -/
def insert (name : String) (value : α) (b : Bindings α) : Bindings α :=
  ⟨insertEntry name value b.entries⟩

@[simp]
theorem get?_empty (name : String) : (∅ : Bindings α).get? name = none := rfl

/-- Looking up `y` after binding `x`. -/
theorem get?_insert (x y : String) (value : α) (b : Bindings α) :
    (b.insert x value).get? y = if y = x then some value else b.get? y := by
  obtain ⟨entries⟩ := b
  change findEntry y (insertEntry x value entries) = if y = x then some value
    else findEntry y entries
  induction entries with
  | nil => rfl
  | cons entry rest ih =>
    obtain ⟨z, v⟩ := entry
    by_cases hz : x = z
    · subst hz
      by_cases hy : y = x <;> simp [insertEntry, findEntry, hy]
    · by_cases hy : y = z
      · subst hy
        simp [insertEntry, findEntry, hz, Ne.symm hz]
      · simp [insertEntry, findEntry, hz, hy, ih]

@[simp]
theorem get?_insert_self (x : String) (value : α) (b : Bindings α) :
    (b.insert x value).get? x = some value := by
  rw [get?_insert, if_pos rfl]

theorem get?_insert_of_ne {x y : String} (h : y ≠ x) (value : α) (b : Bindings α) :
    (b.insert x value).get? y = b.get? y := by
  rw [get?_insert, if_neg h]

/-- Looking up a name where only `x` is bound. -/
theorem get?_insert_empty {x y : String} {value v : α}
    (h : (insert x value (∅ : Bindings α)).get? y = some v) : y = x ∧ v = value := by
  rw [get?_insert] at h
  split at h
  · next hy => exact ⟨hy, (Option.some.inj h).symm⟩
  · cases h

/-- A name is bound if it can be looked up. -/
theorem contains_insert (x y : String) (value : α) (b : Bindings α) :
    (b.insert x value).contains y = (y == x || b.contains y) := by
  by_cases h : y = x <;> simp [contains, get?_insert, h]

end Bindings

end Lox
