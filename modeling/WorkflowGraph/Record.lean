import WorkflowGraph.Value

/-!
# Records as values

A record with named fields is written as an object. It is read from an object,
whose further fields are ignored, or from a list that gives the fields in their
order and may stop early. What has been written as a value is read from
it again: a number (`Record.nat?_ofNat`), and a list or an object with values of one kind
(`Record.all?_map`, `Record.allFields?_mapValues`).
-/

set_option autoImplicit false

namespace WorkflowGraph.Record

/-- The value of a named field among values that stand in the order of the names. -/
def positional? : List String → List Value → String → Option Value
  | n :: names, v :: values, name => if n = name then some v else positional? names values name
  | _, _, _ => none

/-- How the fields of a record are looked up in a value, if the value can be a record. -/
def lookup? (names : List String) : Value → Option (String → Option Value)
  | .object fields => some fun name => Dict.get? fields name
  | .list items => if items.length ≤ names.length then some (positional? names items) else none
  | _ => none

/-- Read every value of a list. -/
def all? {α : Type} (read : Value → Option α) : List Value → Option (List α)
  | [] => some []
  | v :: rest =>
    match read v, all? read rest with
    | some a, some as => some (a :: as)
    | _, _ => none

/-- Read every value of an object. -/
def allFields? {α : Type} (read : Value → Option α) : Fields → Option (Dict α)
  | [] => some []
  | (k, v) :: rest =>
    match read v, allFields? read rest with
    | some a, some as => some ((k, a) :: as)
    | _, _ => none

/-- A text. -/
def text? : Value → Option String
  | .text s => some s
  | _ => none

/-- A boolean. -/
def bool? : Value → Option Bool
  | .bool b => some b
  | _ => none

/-- A natural number that fits in a word. -/
def nat? : Value → Option Nat
  | .int n => if 0 ≤ n then some n.toNat else none
  | _ => none

/-- A list whose items can be read. -/
def list? {α : Type} (read : Value → Option α) : Value → Option (List α)
  | .list items => all? read items
  | _ => none

/-- An object whose fields can be read. -/
def dict? {α : Type} (read : Value → Option α) : Value → Option (Dict α)
  | .object fields => allFields? read fields
  | _ => none

/-- The fields of an object. -/
def fields? : Value → Option Fields
  | .object fields => some fields
  | _ => none

/-- Null, or something that can be read. -/
def optional? {α : Type} (read : Value → Option α) : Value → Option (Option α)
  | .null => some none
  | v => (read v).map some

/-- A field that may be missing. -/
def orDefault? {α : Type} (read : Value → Option α) (default : α) : Option Value → Option α
  | none => some default
  | some v => read v

/-- The name of a choice without content: a text, or an object with that one field. -/
def choice? : Value → Option String
  | .text s => some s
  | .object [(name, .null)] => some name
  | _ => none

/-! ## What is read back -/

section ReadBack

variable {α : Type} {read : Value → Option α} {write : α → Value}

theorem nat?_ofNat (n : Nat) : nat? (.ofNat n) = some n := by
  rw [Value.ofNat, nat?, if_pos (Int.natCast_nonneg n), Int.toNat_natCast]

theorem orDefault?_some (default : α) (v : Value) :
    orDefault? read default (some v) = read v := rfl

/-- Items that are read back are read back from a list of them. By induction on the list. -/
theorem all?_map (h : ∀ a, read (write a) = some a) (as : List α) :
    all? read (as.map write) = some as := by
  induction as with
  | nil => rfl
  | cons a rest ih => simp only [List.map_cons, all?, h, ih]

/-- Entries that are read back are read back from an object of them. By induction on the entries. -/
theorem allFields?_mapValues (h : ∀ a, read (write a) = some a) (d : Dict α) :
    allFields? read (d.mapValues write) = some d := by
  induction d with
  | nil => rfl
  | cons p rest ih =>
    change allFields? read ((p.1, write p.2) :: Dict.mapValues write rest) = _
    simp only [allFields?, h, ih]

/-- Something that is read back is not mistaken for null, unless it is written so. -/
theorem optional?_of_ne_null {v : Value} {a : α} (h : read v = some a) (hv : v ≠ .null) :
    optional? read v = some (some a) := by
  cases v with
  | null => exact absurd rfl hv
  | _ => rw [optional?, h, Option.map_some]; intro h; cases h

end ReadBack

end WorkflowGraph.Record
