/-!
# Dictionaries in key order

A dictionary is a list of pairs whose keys rise strictly. Strings are compared
by code point, which is also the order of their UTF-8 bytes. Every operation
keeps a rising list rising, so two dictionaries with the same bindings are the
same list.
-/

set_option autoImplicit false

namespace WorkflowGraph

/-- A finite map from names to values, written as a list with rising keys. -/
abbrev Dict (α : Type) : Type := List (String × α)

namespace Dict

variable {α β : Type}

/-- The empty dictionary. -/
def empty : Dict α := []

/-- The value bound to a name, if there is one. -/
def get? (d : Dict α) (key : String) : Option α :=
  match d with
  | [] => none
  | (k, v) :: rest => if k = key then some v else get? rest key

/-- Whether a name is bound. -/
def has (d : Dict α) (key : String) : Bool := (d.get? key).isSome

/-- Bind a name, replacing what it was bound to before. -/
def put (d : Dict α) (key : String) (value : α) : Dict α :=
  match d with
  | [] => [(key, value)]
  | (k, v) :: rest =>
    if k = key then (key, value) :: rest
    else if key < k then (key, value) :: (k, v) :: rest
    else (k, v) :: put rest key value

/-- Remove a name. -/
def drop (d : Dict α) (key : String) : Dict α :=
  match d with
  | [] => []
  | (k, v) :: rest => if k = key then rest else (k, v) :: drop rest key

/-- The dictionary of a list of pairs; of two pairs with one name the later counts. -/
def ofPairs (pairs : List (String × α)) : Dict α :=
  pairs.foldl (fun d p => d.put p.1 p.2) empty

/-- The bound names in rising order. -/
def names (d : Dict α) : List String := d.map Prod.fst

/-- The bound values, in the order of their names. -/
def values (d : Dict α) : List α := d.map Prod.snd

/-- Apply a function to every value. -/
def mapValues (f : α → β) (d : Dict α) : Dict β := d.map fun p => (p.1, f p.2)

/-- Bind every pair of the second dictionary over the first one. -/
def merge (d e : Dict α) : Dict α := e.foldl (fun acc p => acc.put p.1 p.2) d

/-- The keys of the list rise strictly. -/
def Rising (d : Dict α) : Prop := d.Pairwise fun p q => p.1 < q.1

@[simp] theorem get?_nil (key : String) : get? ([] : Dict α) key = none := rfl

theorem get?_cons (k : String) (v : α) (rest : Dict α) (key : String) :
    get? ((k, v) :: rest) key = if k = key then some v else get? rest key := rfl

/-- Reading a name right after binding it gives the value just bound. -/
theorem get?_put_self (d : Dict α) (key : String) (value : α) :
    (d.put key value).get? key = some value := by
  induction d with
  | nil => simp [put, get?]
  | cons p rest ih =>
    obtain ⟨k, v⟩ := p
    unfold put
    split
    · simp [get?]
    · split
      · simp [get?]
      · next hne _ => simp [get?, hne, ih]

/-- Binding one name leaves every other name as it was. -/
theorem get?_put_of_ne (d : Dict α) {key other : String} (value : α) (h : key ≠ other) :
    (d.put key value).get? other = d.get? other := by
  induction d with
  | nil => simp [put, get?, h]
  | cons p rest ih =>
    obtain ⟨k, v⟩ := p
    unfold put
    split
    · next hk => subst hk; simp [get?, h]
    · split
      · simp [get?, h]
      · simp only [get?_cons, ih]

theorem get?_put (d : Dict α) (key other : String) (value : α) :
    (d.put key value).get? other = if key = other then some value else d.get? other := by
  split
  · next h => subst h; exact get?_put_self d key value
  · next h => exact get?_put_of_ne d value h

end Dict

end WorkflowGraph
