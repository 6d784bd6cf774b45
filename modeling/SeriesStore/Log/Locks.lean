/-!
# Locks on the log

A generation of the log can be locked several times, and stays locked until each of its locks is
released. For each locked generation the number of its locks is kept, in ascending order of the
generations.
-/

namespace SeriesStore

namespace Locks

/-- Counts one more lock on a generation. -/
def increment (generation : UInt64) : List (UInt64 × Nat) → List (UInt64 × Nat)
  | [] => [(generation, 1)]
  | (g, n) :: rest =>
    if generation < g then (generation, 1) :: (g, n) :: rest
    else if g < generation then (g, n) :: increment generation rest
    else (g, n + 1) :: rest

/-- Counts one lock less on a generation, which goes with its last lock. -/
def decrement (generation : UInt64) : List (UInt64 × Nat) → List (UInt64 × Nat)
  | [] => []
  | (g, n) :: rest =>
    if g = generation then if n - 1 = 0 then rest else (g, n - 1) :: rest
    else (g, n) :: decrement generation rest

/-- The generations are in ascending order. -/
def Ascending (entries : List (UInt64 × Nat)) : Prop :=
  entries.Pairwise fun a b => a.1 < b.1

theorem mem_increment {generation : UInt64} {entries : List (UInt64 × Nat)} {e : UInt64 × Nat}
    (h : e ∈ increment generation entries) :
    (e.1 = generation ∧ 0 < e.2) ∨ e ∈ entries := by
  induction entries with
  | nil => simp_all [increment]
  | cons entry rest ih =>
    rw [increment] at h
    split at h
    · rcases List.mem_cons.mp h with rfl | h
      · exact .inl ⟨rfl, Nat.one_pos⟩
      · exact .inr h
    split at h
    · rcases List.mem_cons.mp h with rfl | h
      · exact .inr List.mem_cons_self
      · exact (ih h).imp_right (List.mem_cons_of_mem _)
    · rcases List.mem_cons.mp h with rfl | h
      · rename_i habove hbelow
        exact .inl ⟨UInt64.le_antisymm (UInt64.not_lt.mp habove) (UInt64.not_lt.mp hbelow),
          Nat.succ_pos _⟩
      · exact .inr (List.mem_cons_of_mem _ h)

theorem mem_decrement {generation : UInt64} {entries : List (UInt64 × Nat)} {e : UInt64 × Nat}
    (h : e ∈ decrement generation entries) :
    0 < e.2 ∧ (∃ n, (e.1, n) ∈ entries) ∨ e ∈ entries := by
  induction entries with
  | nil => simp [decrement] at h
  | cons entry rest ih =>
    rw [decrement] at h
    split at h
    · split at h
      · exact .inr (List.mem_cons_of_mem _ h)
      · rcases List.mem_cons.mp h with rfl | h
        · exact .inl ⟨Nat.pos_of_ne_zero ‹_›, _, List.mem_cons_self⟩
        · exact .inr (List.mem_cons_of_mem _ h)
    · rcases List.mem_cons.mp h with rfl | h
      · exact .inr List.mem_cons_self
      · rcases ih h with ⟨hpos, n, hmem⟩ | h
        · exact .inl ⟨hpos, n, List.mem_cons_of_mem _ hmem⟩
        · exact .inr (List.mem_cons_of_mem _ h)

theorem Ascending.increment {entries : List (UInt64 × Nat)} (hascending : Ascending entries)
    (generation : UInt64) : Ascending (increment generation entries) := by
  induction entries with
  | nil => exact List.pairwise_singleton _ _
  | cons entry rest ih =>
    obtain ⟨hlowest, hrest⟩ := List.pairwise_cons.mp hascending
    rw [Locks.increment]
    split
    · rename_i hbelow
      refine List.pairwise_cons.mpr ⟨fun e hmem => ?_, hascending⟩
      rcases List.mem_cons.mp hmem with rfl | hmem
      · exact hbelow
      · exact UInt64.lt_trans hbelow (hlowest e hmem)
    split
    · rename_i habove
      refine List.pairwise_cons.mpr ⟨fun e hmem => ?_, ih hrest⟩
      rcases mem_increment hmem with ⟨rfl, -⟩ | hmem
      · exact habove
      · exact hlowest e hmem
    · exact List.pairwise_cons.mpr ⟨hlowest, hrest⟩

theorem Ascending.decrement {entries : List (UInt64 × Nat)} (hascending : Ascending entries)
    (generation : UInt64) : Ascending (decrement generation entries) := by
  induction entries with
  | nil => exact List.Pairwise.nil
  | cons entry rest ih =>
    obtain ⟨hlowest, hrest⟩ := List.pairwise_cons.mp hascending
    rw [Locks.decrement]
    split
    · split
      · exact hrest
      · exact List.pairwise_cons.mpr ⟨hlowest, hrest⟩
    · refine List.pairwise_cons.mpr ⟨fun e hmem => ?_, ih hrest⟩
      rcases mem_decrement hmem with ⟨-, n, hmem⟩ | hmem
      · exact hlowest (e.1, n) hmem
      · exact hlowest e hmem

end Locks

/-- How often each generation of the log is locked. -/
structure Locks where
  /-- The locked generations, each with the number of its locks. -/
  entries : List (UInt64 × Nat)
  ascending : Locks.Ascending entries
  positive : ∀ e ∈ entries, 0 < e.2

namespace Locks

/-- No generation is locked. -/
def empty : Locks where
  entries := []
  ascending := List.Pairwise.nil
  positive := List.forall_mem_nil _

/-- One more lock on a generation. -/
def acquire (locks : Locks) (generation : UInt64) : Locks where
  entries := increment generation locks.entries
  ascending := locks.ascending.increment generation
  positive := fun e hmem =>
    (mem_increment hmem).elim (·.2) (locks.positive e)

/-- One lock less on a generation. -/
def release (locks : Locks) (generation : UInt64) : Locks where
  entries := decrement generation locks.entries
  ascending := locks.ascending.decrement generation
  positive := fun e hmem =>
    (mem_decrement hmem).elim (·.1) (locks.positive e)

/-- The lowest locked generation. -/
def lowest? (locks : Locks) : Option UInt64 := locks.entries.head?.map (·.1)

end Locks

end SeriesStore
