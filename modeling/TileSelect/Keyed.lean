/-!
Lists of entries kept in the order of their names.

A match binds names to nodes and names to alternatives, and both are read back in the order of
the names: the order decides in which sequence combinations are tried. The entries are a plain
list of pairs, because a record that holds entries of records has to spell that list out in its
own declaration; this module gives the two operations on such lists. Storing replaces an entry
of the same name, in one pass, so that what is read back needs no assumption on the list.
-/

set_option autoImplicit false

namespace TileSelect

namespace Keyed

variable {α : Type}

/-- Stores `a` under `name`, replacing what was there. -/
def insert (name : String) (a : α) : List (String × α) → List (String × α)
  | [] => [(name, a)]
  | (key, b) :: rest =>
    if name < key then (name, a) :: (key, b) :: rest
    else if name = key then (name, a) :: rest
    else (key, b) :: insert name a rest

/-- What is stored under `name`. -/
def get? (name : String) : List (String × α) → Option α
  | [] => none
  | (key, b) :: rest => if key = name then some b else get? name rest

/-- Whether something is stored under `name`. -/
def has (name : String) (entries : List (String × α)) : Bool := (get? name entries).isSome

/-- What was stored last under a name is what is found there. -/
@[simp] theorem get?_insert_self (name : String) (a : α) (entries : List (String × α)) :
    get? name (insert name a entries) = some a := by
  induction entries with
  | nil => simp [insert, get?]
  | cons entry rest ih => grind [insert, get?]

/-- Storing something under one name leaves all others as they were. -/
@[simp] theorem get?_insert_of_ne {name other : String} (h : other ≠ name) (a : α)
    (entries : List (String × α)) : get? other (insert name a entries) = get? other entries := by
  induction entries with
  | nil => simp [insert, get?, Ne.symm h]
  | cons entry rest ih => grind [insert, get?]

end Keyed

end TileSelect
