/-!
# Tags

Observations are sent to a meter together with tags, which are names with values. Tags are kept
and shown in the order of their names.
-/

namespace SeriesStore

/-- Names with values, in the order of the names. -/
structure Tags where
  items : List (String × String) := []
  deriving DecidableEq

namespace Tags

/-- Puts a tag into a list in the order of names. A tag of that name is replaced. -/
def insertInto (name value : String) : List (String × String) → List (String × String)
  | [] => [(name, value)]
  | (n, v) :: rest =>
    if name = n then (name, value) :: rest
    else if name < n then (name, value) :: (n, v) :: rest
    else (n, v) :: insertInto name value rest

/-- The tags with one more, or with another value for a name. -/
def insert (t : Tags) (name value : String) : Tags := ⟨insertInto name value t.items⟩

/-- The value of a tag. -/
def get? (t : Tags) (name : String) : Option String := t.items.lookup name

/-- Whether there are no tags. -/
def isEmpty (t : Tags) : Bool := t.items.isEmpty

/-- The tags in one line. -/
def toText (t : Tags) : String := ",".intercalate (t.items.map fun i => i.1 ++ "=" ++ i.2)

end Tags

end SeriesStore
