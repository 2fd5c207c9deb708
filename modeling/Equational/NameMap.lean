/-!
# Maps from names

A map from names is a list of pairs in ascending order of their names.  Names
are ordered by code points, which is also the order of their UTF-8 bytes.
Inserting makes a new map and leaves the old one as it was.
-/

namespace Equational

/-- A finite map whose keys are names. -/
structure NameMap (α : Type) where
  entries : List (String × α)

namespace NameMap

variable {α : Type}

def empty : NameMap α := ⟨[]⟩

instance : EmptyCollection (NameMap α) := ⟨empty⟩

def size (m : NameMap α) : Nat := m.entries.length

def isEmpty (m : NameMap α) : Bool := m.entries.isEmpty

def find? (m : NameMap α) (name : String) : Option α := m.entries.lookup name

def contains (m : NameMap α) (name : String) : Bool := (m.find? name).isSome

/-- Puts a pair at its place in a sorted list, over an older pair of that name. -/
def insertEntry (name : String) (value : α) : List (String × α) → List (String × α)
  | [] => [(name, value)]
  | entry :: rest =>
    if name < entry.1 then (name, value) :: entry :: rest
    else if name = entry.1 then (name, value) :: rest
    else entry :: insertEntry name value rest

def insert (m : NameMap α) (name : String) (value : α) : NameMap α :=
  ⟨insertEntry name value m.entries⟩

/-- The map of a list of pairs; of two pairs of one name the later one stays. -/
def ofList (pairs : List (String × α)) : NameMap α :=
  pairs.foldl (fun m pair => m.insert pair.1 pair.2) empty

/-! ## Lookup after insertion -/

@[simp] theorem find?_empty (name : String) : (empty : NameMap α).find? name = none := rfl

theorem lookup_insertEntry_self (name : String) (value : α) (entries : List (String × α)) :
    (insertEntry name value entries).lookup name = some value := by
  induction entries with
  | nil => simp [insertEntry]
  | cons entry rest ih =>
    unfold insertEntry
    split
    · simp
    · split
      · simp
      · rename_i hne
        have h : (name == entry.1) = false := by simpa using hne
        rw [List.lookup_cons, h]
        exact ih

@[simp] theorem find?_insert_self (m : NameMap α) (name : String) (value : α) :
    (m.insert name value).find? name = some value :=
  lookup_insertEntry_self name value m.entries

theorem lookup_insertEntry_of_ne {name other : String} (value : α) (hne : other ≠ name)
    (entries : List (String × α)) :
    (insertEntry name value entries).lookup other = entries.lookup other := by
  have hname : (other == name) = false := by simpa using hne
  induction entries with
  | nil =>
      rw [insertEntry, List.lookup_cons, hname]
  | cons entry rest ih =>
    unfold insertEntry
    split
    · rw [List.lookup_cons, hname]
    · split
      · rename_i heq
        subst heq
        rw [List.lookup_cons, hname, List.lookup_cons, hname]
      · rw [List.lookup_cons, List.lookup_cons, ih]

theorem find?_insert_of_ne (m : NameMap α) {name other : String} (value : α)
    (hne : other ≠ name) : (m.insert name value).find? other = m.find? other :=
  lookup_insertEntry_of_ne value hne m.entries

end NameMap

end Equational
