import SeriesStore.Datum

/-!
# TOML documents

A document is a list of statements that fill a tree of tables. A table can be named by one
header, by dotted keys of one table, or only as a part of longer names; which of these it was
decides what may be added to it later.
-/

namespace SeriesStore.Toml

/-- A node of the tree that is being filled. -/
inductive Item
  /-- A finished value. -/
  | value (d : Datum)
  /-- A table. It is `implicit` until a header names it, and `dotted` if a dotted key made it. -/
  | table (implicit dotted : Bool) (fields : List (String × Item))
  /-- A list of tables, the last of which is open. -/
  | tables (items : List (List (String × Item)))
  deriving Inhabited

/-- Fields of a table in the order of their first mention. -/
abbrev Fields := List (String × Item)

/-- One line of a document. -/
inductive Statement
  /-- The start of the table with the given name. -/
  | table (path : List String)
  /-- The start of the next table in a list with the given name. -/
  | element (path : List String)
  /-- A value for a key of the current table. -/
  | assign (path : List String) (d : Datum)

namespace Fields

/-- Puts an item in the place of the field with its name, or behind all fields. -/
def put (fs : Fields) (name : String) (item : Item) : Fields :=
  if fs.any (·.1 == name) then fs.map fun f => if f.1 == name then (name, item) else f
  else fs ++ [(name, item)]

/-- Removes a field. -/
def remove (fs : Fields) (name : String) : Fields := fs.filter (·.1 != name)

/-- Replaces all but the last element of a list of tables. -/
def replaceLast (items : List Fields) (last : Fields) : List Fields := items.dropLast ++ [last]

/-- Changes the table that a path of header names leads to. Tables that do not exist yet are
made. -/
def within (f : Fields → Option Fields) : List String → Fields → Option Fields
  | [], fs => f fs
  | name :: path, fs =>
    match fs.lookup name with
    | none => do return fs.put name (.table true false (← within f path []))
    | some (.table i d inner) => do return fs.put name (.table i d (← within f path inner))
    | some (.tables items) => do
      let last ← items.getLast?
      return fs.put name (.tables (replaceLast items (← within f path last)))
    | some (.value _) => none

/-- Assigns a value to a dotted key. No header may have named a table on the way, unless it is the
last of a list, and the table with the value itself must have been made by dotted keys. -/
def assign : List String → Datum → Fields → Option Fields
  | [], _, _ => none
  | [name], d, fs =>
    if (fs.lookup name).isSome then none else some (fs.put name (.value d))
  | name :: path, d, fs =>
    match fs.lookup name with
    | none => do return fs.put name (.table true true (← assign path d []))
    | some (.table true dotted inner) => do
      if path.length = 1 ∧ !dotted then none
      return fs.put name (.table true dotted (← assign path d inner))
    | some (.tables items) => do
      if path.length = 1 then none
      return fs.put name (.tables (replaceLast items (← assign path d (← items.getLast?))))
    | some _ => none

mutual

/-- The finished value of an item. -/
def itemDatum : Item → Datum
  | .value d => d
  | .table _ _ fields => .record (fieldsDatum fields)
  | .tables items => .list (tablesDatum items)

/-- The finished values of the fields of a table. -/
def fieldsDatum : List (String × Item) → List (String × Datum)
  | [] => []
  | (name, item) :: fs => (name, itemDatum item) :: fieldsDatum fs

/-- The finished values of a list of tables. -/
def tablesDatum : List (List (String × Item)) → List Datum
  | [] => []
  | fields :: rest => .record (fieldsDatum fields) :: tablesDatum rest

end

end Fields

/-- Where the current table goes when the next header or the end is reached. -/
inductive Position
  | root
  | table (path : List String)
  | element (path : List String)

/-- A document that has been read up to some line. -/
structure Draft where
  root : Fields := []
  current : Fields := []
  position : Position := .root

namespace Draft

/-- Splits a path into the part before its last name and that name. -/
def split? (path : List String) : Option (List String × String) :=
  path.getLast?.map (path.dropLast, ·)

/-- Puts the current table in its place. -/
def close (d : Draft) : Option Fields :=
  match d.position with
  | .root => some d.current
  | .table path => do
    let (parent, name) ← split? path
    Fields.within (fun fs =>
      match fs.lookup name with
      | none => some (fs.put name (.table false false d.current))
      | some (.table true _ _) => some (fs.put name (.table false false d.current))
      | some _ => none) parent d.root
  | .element path => do
    let (parent, name) ← split? path
    Fields.within (fun fs =>
      match fs.lookup name with
      | none => some (fs.put name (.tables [d.current]))
      | some (.tables items) => some (fs.put name (.tables (items ++ [d.current])))
      | some _ => none) parent d.root

/-- The table at the end of a path of header names, if it exists. -/
def find? : List String → Fields → Option Item
  | [], _ => none
  | [name], fs => fs.lookup name
  | name :: path, fs =>
    match fs.lookup name with
    | some (.table _ _ inner) => find? path inner
    | some (.tables items) => items.getLast?.bind (find? path)
    | _ => none

/-- Carries out one statement. -/
def step (d : Draft) : Statement → Option Draft
  | .assign path v => do return { d with current := ← Fields.assign path v d.current }
  | .table path => do
    let root ← d.close
    let (parent, name) ← split? path
    match find? path root with
    | none =>
      let root ← Fields.within some parent root
      return ⟨root, [], .table path⟩
    | some (.table true false fields) =>
      let root ← Fields.within (fun fs => some (fs.remove name)) parent root
      return ⟨root, fields, .table path⟩
    | some _ => none
  | .element path => do
    let root ← d.close
    let (parent, name) ← split? path
    match find? path root with
    | none => return ⟨← Fields.within (fun fs => some (fs.put name (.tables []))) parent root, [],
        .element path⟩
    | some (.tables _) => return ⟨root, [], .element path⟩
    | some _ => none

end Draft

/-- The record that the statements of a document describe. -/
def Statement.document? (statements : List Statement) : Option Datum := do
  let d ← statements.foldlM Draft.step {}
  return .record (Fields.fieldsDatum (← d.close))

/-- The record that the assignments inside the braces of a table describe. -/
def Statement.inlineTable? (assignments : List (List String × Datum)) : Option Datum := do
  let fs ← assignments.foldlM (fun fs a => Fields.assign a.1 a.2 fs) []
  return .record (Fields.fieldsDatum fs)

end SeriesStore.Toml
