import QueryFilter.Json.Reader

/-!
# Records in JSON

A record may be written in two ways: as an object, whose keys name the fields,
or as an array, whose values are the fields in their declared order.  A field
that is not given keeps its value in the blank record, unless it must be given.

In the object form a key that names no field is skipped with its value, and a
second key for a field is a fault, whichever of its spellings is used.  In the
array form the fields left out are the last ones, and no value may follow the
last field.
-/

namespace QueryFilter.Json

/-- A field of a record of type `α`: its keys, and the reader of the change that
its value makes to the record. -/
structure Slot (α : Type) where
  name : String
  other? : Option String := none
  required : Bool := false
  read : Reader (α → α)

/-- Whether a key names the field. -/
def Slot.answers {α : Type} (slot : Slot α) (key : String) : Bool :=
  key == slot.name || slot.other? == some key

/-- A field of type `β`, stored by `store`. -/
def Reader.slot {α β : Type} (rd : Reader β) (name : String) (store : β → α → α) : Slot α :=
  { name, read := rd.map store }

/-- The field with a second spelling of its key. -/
def Slot.orKey {α : Type} (slot : Slot α) (key : String) : Slot α :=
  { slot with other? := some key }

/-- The field as one that must be given. -/
def Slot.demanded {α : Type} (slot : Slot α) : Slot α := { slot with required := true }

/-- A record in the course of reading: the names of the fields given so far, and
the values. -/
structure Filling (α : Type) where
  given : List String
  value : α

/-- How to read the value behind a key of a record. -/
def Filling.choose {α : Type} (slots : List (Slot α)) (f : Filling α) (key : String) :
    Except Fault (Reader (Filling α)) :=
  match slots.find? fun slot => slot.answers key with
  | none => .ok (.skipped f)
  | some slot =>
      if slot.name ∈ f.given then .error (.misfit (.duplicateField slot.name))
      else .ok (slot.read.map fun change => ⟨slot.name :: f.given, change f.value⟩)

/-- The record at the end of an object. -/
def Filling.finish {α : Type} (slots : List (Slot α)) (f : Filling α) : Except Fault α :=
  match slots.find? fun slot => slot.required && slot.name ∉ f.given with
  | some slot => .error (.misfit (.missingField slot.name))
  | none => .ok f.value

/-- The rest of a record in the object form. -/
def Tail.members {α : Type} (slots : List (Slot α)) (blank : α) : Tail α :=
  (Tail.entries '\x7d' (fun f => .keyed (Filling.choose slots f)) ⟨[], blank⟩).check
    (Filling.finish slots)

/-- The place of the element `index` of an array or object. -/
def placeAt (index : Nat) (close : Char) (s : List Char) : Except Fault Place :=
  if index = 0 then firstPlace close s else nextPlace close s

/-- The place of a field in an array leaves no more than there was. -/
theorem length_of_placeAt {index : Nat} {close : Char} {s : List Char} {p : Place}
    (h : placeAt index close s = .ok p) : p.rest.length ≤ s.length := by
  unfold placeAt at h
  split at h
  · exact length_of_firstPlace h
  · exact Nat.le_of_lt (length_of_nextPlace h)

/-- Reads the fields of a record in the array form, from the first one left and
up to the end of the array.  The array may end before a field, but only if none
of the fields left must be given. -/
def positional {α : Type} (title : String) (size : Nat) :
    List (Slot α) → α → List Char → Except Fault (α × List Char)
  | [], a, s => do
      let r ← expectChar ']' s
      return (a, r)
  | slot :: slots, a, s => do
      let index := size - (slots.length + 1)
      match ← placeAt index ']' s with
      | .closed r =>
          match (slot :: slots).findIdx? Slot.required with
          | some i => .error (.misfit (.tooShort (index + i) title size))
          | none => return (a, r)
      | .entry r =>
          let (change, r) ← slot.read.run r
          positional title size slots (change a) r

/-- The array form of a record leaves no more than there was. -/
theorem length_of_positional {α : Type} {title : String} {size : Nat}
    {slots : List (Slot α)} {a b : α} {s r : List Char}
    (h : positional title size slots a s = .ok (b, r)) : r.length ≤ s.length := by
  induction slots generalizing a s with
  | nil =>
      rw [positional] at h
      obtain ⟨t, hclose, h⟩ := bind_eq_ok.mp h
      cases h
      exact Nat.le_of_lt (length_of_expectChar hclose)
  | cons slot slots ih =>
      rw [positional] at h
      obtain ⟨p, hplace, h⟩ := bind_eq_ok.mp h
      have hle := length_of_placeAt hplace
      cases p with
      | closed t =>
          dsimp only at h
          split at h
          · cases h
          · cases h
            exact hle
      | entry t =>
          obtain ⟨⟨change, u⟩, hread, h⟩ := bind_eq_ok.mp h
          exact Nat.le_trans (ih h)
            (Nat.le_trans (Nat.le_of_lt (slot.read.consumes hread)) hle)

/-- The rest of a record in the array form. -/
def Tail.positional {α : Type} (title : String) (slots : List (Slot α)) (blank : α) : Tail α where
  run := Json.positional title slots.length slots blank
  consumes := length_of_positional

namespace Reader

/-- Reads a record called `title`. -/
def record {α : Type} (title : String) (slots : List (Slot α)) (blank : α) : Reader α :=
  byFirst ("struct " ++ title) fun c =>
    if c = '\x7b' then some (.members slots blank)
    else if c = '[' then some (.positional title slots blank)
    else none

/-- The reader of a record that may not be opened here.  Where as many brackets are open
as may be, one more is malformed: it is the limit that is met, not an error in the text. -/
def closedRecord {α : Type} (title : String) : Reader α :=
  byFirst ("struct " ++ title) fun c =>
    if c = '\x7b' ∨ c = '[' then some (.fail .malformed) else none

/-- The reader of an array that may not be opened here, one bracket more being malformed. -/
def closedList {α : Type} : Reader α :=
  byFirst "a sequence" fun c => if c = '[' then some (.fail .malformed) else none

end Reader

end QueryFilter.Json
