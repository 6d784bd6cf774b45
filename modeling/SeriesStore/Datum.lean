/-!
# Data trees

The values that configuration files and manifests are made of, whatever text format they are
written in. Records keep their fields in the order of the text.
-/

namespace SeriesStore

/-- A tree of named and listed values. -/
inductive Datum
  | null
  | bool (b : Bool)
  /-- A number that is written without point and exponent. -/
  | int (n : Int)
  /-- Any other number, as it is written. -/
  | real (literal : String)
  | text (s : String)
  | list (items : List Datum)
  | record (fields : List (String × Datum))
  /-- A text in which half of a character stands alone, or a record with such a name. Nothing can
  be read from it, but it can be passed over. -/
  | broken
  deriving Inhabited

namespace Datum

/-- The values of fields with given names. A record may name each of them once; a list has the
values in the order of the names, and may be shorter. -/
def fields? (names : List String) (d : Datum) : Option (List (Option Datum)) :=
  match d with
  | record fields =>
    if names.all fun name => (fields.filter (·.1 == name)).length ≤ 1 then
      some (names.map fun name => fields.lookup name)
    else none
  | list items =>
    if items.length ≤ names.length then
      some ((List.range names.length).map fun i => items[i]?)
    else none
  | _ => none

/-- The text in a value. -/
def text? : Datum → Option String
  | text s => some s
  | _ => none

/-- The integer in a value. -/
def int? : Datum → Option Int
  | int n => some n
  | _ => none

/-- The timestamp in a value. -/
def int64? (d : Datum) : Option Int64 :=
  match d with
  | int n => if -0x8000000000000000 ≤ n ∧ n < 0x8000000000000000 then some (Int64.ofInt n) else none
  | _ => none

/-- The unsigned word in a value. -/
def uint64? (d : Datum) : Option UInt64 :=
  match d with
  | int n => if 0 ≤ n ∧ n < 0x10000000000000000 then some (UInt64.ofNat n.toNat) else none
  | _ => none

/-- The texts in a list. -/
def texts? : Datum → Option (List String)
  | list items => items.mapM text?
  | _ => none

/-- One of several names: a text, or a record with the name alone and nothing in it. -/
def choice? : Datum → Option String
  | text s => some s
  | record [(name, null)] => some name
  | _ => none

end Datum

end SeriesStore
