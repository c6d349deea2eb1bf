/-!
The values of a TOML document and the tables that its lines build. A table remembers how it
came about, because that decides which later lines may still add to it. The main notions are
`Table.alterAt`, which goes down a path of keys and makes the tables that are missing, and
`Table.insert`, which adds one key with its value.
-/

namespace Codemod.Toml

/-- How a table came about: by a header of its own, as a step on the way to another table's
header, by a dotted key, or between braces. -/
inductive Origin where
  | header
  | implied
  | dotted
  | inline
deriving DecidableEq, Repr

/-- A value. Of fractions and points in time only the fact is kept. The items of `tables` come
from headers in double brackets, those of `array` stand in the text as one value. -/
inductive Value where
  | text (value : String)
  | integer (value : Int)
  | flag (value : Bool)
  | other
  | array (items : List Value)
  | table (origin : Origin) (entries : List (String × Value))
  | tables (items : List (List (String × Value)))

instance : Inhabited Value := ⟨.other⟩

/-- The keys of a table with their values. No key stands twice. -/
abbrev Table := List (String × Value)

/-- A key of a line: the keys that lead to its table, and the last one. -/
structure Key where
  path : List String
  last : String
deriving DecidableEq, Repr

namespace Table

/-- The table with a value in place of the one at a key. -/
def put (key : String) (value : Value) (table : Table) : Table :=
  table.map fun entry => if entry.1 = key then (key, value) else entry

/-- The table with a value at a new key; none if the key is taken. -/
def add? (key : String) (value : Value) (table : Table) : Option Table :=
  if (table.lookup key).isSome then none else some (table ++ [(key, value)])

theorem lookup_put_self {key : String} {table : Table} (value : Value)
    (h : (table.lookup key).isSome = true) : (table.put key value).lookup key = some value := by
  induction table with
  | nil => simp at h
  | cons entry table ih =>
      obtain ⟨k, v⟩ := entry
      by_cases hk : key = k
      · subst hk
        simp [put]
      · have hne : (key == k) = false := by simpa using hk
        rw [List.lookup_cons, hne] at h
        simpa [put, Ne.symm hk, List.lookup_cons, hne] using ih h

theorem lookup_put_of_ne {key other : String} (table : Table) (value : Value)
    (h : other ≠ key) : (table.put key value).lookup other = table.lookup other := by
  induction table with
  | nil => rfl
  | cons entry table ih =>
      obtain ⟨k, v⟩ := entry
      by_cases hk : k = key
      · have hne : (other == k) = false := by simpa [hk] using h
        have hne' : (other == key) = false := by simpa using h
        simpa [put, hk, List.lookup_cons, hne, hne'] using ih
      · by_cases ho : other = k
        · simp [put, ho, hk]
        · have hne : (other == k) = false := by simpa using ho
          simpa [put, hk, List.lookup_cons, hne] using ih

/-- The table with another one at the end of a path. Missing tables on the way are made. A path
leads into the last one of several tables under a header, but not into a table between braces,
and by dots not into a table that has a header. -/
def alterAt (dotted : Bool) (alter : Origin → Table → Option Table) :
    List String → Origin → Table → Option Table
  | [], origin, table => alter origin table
  | key :: path, _, table =>
      match table.lookup key with
      | none => do
          let origin := if dotted then Origin.dotted else Origin.implied
          let inner ← alterAt dotted alter path origin []
          some (table ++ [(key, .table origin inner)])
      | some (.table origin inner) =>
          if origin = .inline || dotted && origin = .header then none
          else do
            let inner ← alterAt dotted alter path origin inner
            some (put key (.table origin inner) table)
      | some (.tables items) => do
          let inner ← alterAt dotted alter path .header (← items.getLast?)
          some (put key (.tables (items.dropLast ++ [inner])) table)
      | some _ => none

/-- The table with a value at a key. Behind dots the table that gets it must come from dots. -/
def insert? (origin : Origin) (table : Table) (key : Key) (value : Value) : Option Table :=
  alterAt true
    (fun origin inner =>
      if key.path.isEmpty || origin = .dotted then add? key.last value inner else none)
    key.path origin table

/-- The table with several keys one after another. -/
def insertAll? (origin : Origin) (table : Table) (pairs : List (Key × Value)) : Option Table :=
  pairs.foldlM (fun table pair => insert? origin table pair.1 pair.2) table

end Table

end Codemod.Toml
