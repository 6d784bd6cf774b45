import SeriesStore.Bytes
import SeriesStore.Disk.Path

/-!
# Directory trees

A tree says for each place below the root whether there is a file or a directory. A place is the
list of names on the way to it.
-/

namespace SeriesStore

/-- The names on the way from the root. -/
abbrev Place := List String

/-- What stands at a place. -/
inductive Node
  | file (content : Bytes)
  | dir
  deriving DecidableEq

/-- The occupied places below the root. -/
abbrev Tree := List (Place × Node)

namespace Tree

/-- What stands at a place. The root is a directory. -/
def node? (t : Tree) (p : Place) : Option Node :=
  if p = [] then some .dir else t.lookup p

/-- The tree without a place. -/
def erase (t : Tree) (p : Place) : Tree := t.filter fun e => e.1 != p

/-- The tree without a place and all below it. -/
def eraseAll (t : Tree) (p : Place) : Tree := t.filter fun e => !p.isPrefixOf e.1

/-- The tree without what is below a place. -/
def clear (t : Tree) (p : Place) : Tree := t.filter fun e => e.1 == p || !p.isPrefixOf e.1

/-- The tree with a node at a place. -/
def put (t : Tree) (p : Place) (n : Node) : Tree := (p, n) :: t.erase p

/-- Names in a directory. -/
def names (t : Tree) (p : Place) : List String :=
  t.filterMap fun e => if e.1.dropLast = p then e.1.getLast? else none

theorem node?_put_self {t : Tree} {p : Place} {n : Node} (h : p ≠ []) :
    (t.put p n).node? p = some n := by
  simp [node?, put, h]

theorem lookup_erase_of_ne {t : Tree} {p q : Place} (h : q ≠ p) :
    (t.erase p).lookup q = t.lookup q := by
  induction t with
  | nil => rfl
  | cons e t ih =>
    obtain ⟨r, n⟩ := e
    unfold erase at ih ⊢
    by_cases hr : r = p
    · subst hr
      have hq : (q == r) = false := by simpa using h
      simp [List.lookup_cons, hq, ih]
    · simp only [List.filter_cons, bne_iff_ne, ne_eq, hr, not_false_eq_true, ↓reduceIte,
        List.lookup_cons, ih]

theorem node?_put_of_ne {t : Tree} {p q : Place} {n : Node} (h : q ≠ p) :
    (t.put p n).node? q = t.node? q := by
  have hq : (q == p) = false := by simpa using h
  simp [node?, put, List.lookup_cons, hq, lookup_erase_of_ne h]

theorem lookup_erase_self (t : Tree) (p : Place) : (t.erase p).lookup p = none := by
  induction t with
  | nil => rfl
  | cons e t ih =>
    obtain ⟨r, n⟩ := e
    unfold erase at ih ⊢
    by_cases hr : r = p
    · subst hr
      simpa [List.lookup_cons] using ih
    · have hp : (p == r) = false := by simpa using Ne.symm hr
      simp [hr, List.lookup_cons, hp, ih]

theorem node?_erase_of_ne {t : Tree} {p q : Place} (h : q ≠ p) :
    (t.erase p).node? q = t.node? q := by
  simp [node?, lookup_erase_of_ne h]

theorem node?_clear_self (t : Tree) (p : Place) : (t.clear p).node? p = t.node? p := by
  have h : (t.clear p).lookup p = t.lookup p := by
    induction t with
    | nil => rfl
    | cons e t ih =>
      obtain ⟨r, n⟩ := e
      unfold clear at ih ⊢
      by_cases hr : p = r
      · subst hr
        simp
      · have hp : (p == r) = false := by simpa using hr
        by_cases hk : (r == p || !p.isPrefixOf r) = true
        · simp only [List.filter_cons, hk, ↓reduceIte, List.lookup_cons, hp, ih]
        · simp only [List.filter_cons, hk, Bool.false_eq_true, ↓reduceIte, List.lookup_cons, hp,
            ih]
  simp [node?, h]

end Tree

end SeriesStore
