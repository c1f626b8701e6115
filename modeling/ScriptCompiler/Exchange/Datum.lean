import ScriptCompiler.Binary64

/-!
# Plain data

Trees and scripts are exchanged as plain data: nested lists and records of
integers, numbers, truth values and texts. Reading is strict about ranges and
variant names. An absent field reads as null, so it is refused exactly where
null is; fields that nobody asks for are ignored. A structure may also be given
as the list of all its fields in declared order.
-/

namespace ScriptCompiler

/-- Plain data. -/
inductive Datum where
  | null
  | bool (value : Bool)
  | integer (value : Int)
  /-- A number that is not kept as an integer. -/
  | number (value : Binary64)
  | text (value : String)
  | list (items : List Datum)
  | record (fields : List (String × Datum))
  deriving Inhabited, Repr

namespace Datum

/-- Read a truth value. -/
def toBool? : Datum → Option Bool
  | bool value => some value
  | _ => none

/-- Read an integer. -/
def toInt? : Datum → Option Int
  | integer value => some value
  | _ => none

/-- Read a natural number below `bound`. -/
def toNat? (bound : Nat) : Datum → Option Nat
  | integer value => if 0 ≤ value ∧ value < bound then some value.toNat else none
  | _ => none

/-- Read a line number. -/
def toLine? (d : Datum) : Option UInt32 := (d.toNat? 4294967296).map UInt32.ofNat

/-- Read a number; an integer is rounded to one. -/
def toNumber? : Datum → Option Binary64
  | integer value => some (Binary64.ofInt value)
  | number value => some value
  | _ => none

/-- Read a text. -/
def toText? : Datum → Option String
  | text value => some value
  | _ => none

/-- Read a list. -/
def items? : Datum → Option (List Datum)
  | list items => some items
  | _ => none

/-- Read a list item by item. -/
def toList? {α : Type} (read : Datum → Option α) (d : Datum) : Option (List α) :=
  d.items?.bind (·.mapM read)

/-- Read something that may be null. -/
def toOption? {α : Type} (read : Datum → Option α) : Datum → Option (Option α)
  | null => some none
  | d => (read d).map some

/-- The fields of a record by name, null where one is absent. -/
def fields? (names : List String) : Datum → Option (List Datum)
  | record fields => some (names.map fun name => (fields.lookup name).getD null)
  | _ => none

/-- The fields of a structure, given as a record or as the list of all of them. -/
def components? (names : List String) : Datum → Option (List Datum)
  | list items => if items.length = names.length then some items else none
  | d => d.fields? names

/-- A variant with its content: a bare name has none, and so has a name with null. -/
def variant? : Datum → Option (String × Datum)
  | text name => some (name, null)
  | record [(name, content)] => some (name, content)
  | _ => none

/-- Read a variant without content by its name. -/
def toVariant? {α : Type} (variants : List (String × α)) (d : Datum) : Option α :=
  match d.variant? with
  | some (name, null) => variants.lookup name
  | _ => none

theorem sizeOf_lookup_lt {fields : List (String × Datum)} {name : String} {d : Datum}
    (h : fields.lookup name = some d) : sizeOf d < sizeOf fields := by
  induction fields with
  | nil => simp at h
  | cons field rest ih =>
    obtain ⟨key, value⟩ := field
    rw [List.lookup_cons] at h
    split at h
    · cases h
      simp
      omega
    · have := ih h
      simp
      omega

theorem sizeOf_fields?_lt {d : Datum} {names : List String} {values : List Datum}
    (h : d.fields? names = some values) {x : Datum} (hx : x ∈ values) : sizeOf x < sizeOf d := by
  cases d with
  | record fields =>
    cases h
    obtain ⟨name, -, rfl⟩ := List.mem_map.1 hx
    cases hl : fields.lookup name with
    | none =>
      have hpos : 0 < sizeOf fields := by
        cases fields with
        | nil => exact Nat.one_pos
        | cons first rest =>
          rw [List.cons.sizeOf_spec]
          omega
      rw [Option.getD_none, null.sizeOf_spec, record.sizeOf_spec]
      omega
    | some value =>
      have := sizeOf_lookup_lt hl
      simp
      omega
  | _ => simp [fields?] at h

/-- A field is smaller than the structure it belongs to. -/
theorem sizeOf_components?_lt {d : Datum} {names : List String} {values : List Datum}
    (h : d.components? names = some values) {x : Datum} (hx : x ∈ values) :
    sizeOf x < sizeOf d := by
  cases d with
  | list items =>
    simp only [components?] at h
    split at h
    · cases h
      have := List.sizeOf_lt_of_mem hx
      simp
      omega
    · cases h
  | _ => exact sizeOf_fields?_lt (by simpa only [components?] using h) hx

/-- An item is smaller than its list. -/
theorem sizeOf_items?_lt {d : Datum} {items : List Datum} (h : d.items? = some items) {x : Datum}
    (hx : x ∈ items) : sizeOf x < sizeOf d := by
  cases d with
  | list items =>
    cases h
    have := List.sizeOf_lt_of_mem hx
    simp
    omega
  | _ => simp [items?] at h

end Datum

end ScriptCompiler
