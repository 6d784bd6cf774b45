import Mathlib.Tactic.Lemma
import SeriesStore.Log.Locks

/-!
# Counted locks

The table of locks stands for a number of locks on each generation. To acquire and to release a lock
change that number for one generation, and the lowest entry of the table is the lowest generation
with a lock.
-/

namespace SeriesStore.Locks

/-! ### The number that a table gives for a generation -/

/-- The number that stands at a generation, zero without an entry. -/
def tally (generation : UInt64) (entries : List (UInt64 × Nat)) : Nat :=
  (entries.lookup generation).getD 0

/-- The number of locks on a generation. -/
def count (locks : Locks) (generation : UInt64) : Nat := tally generation locks.entries

lemma tally_cons (generation : UInt64) (e : UInt64 × Nat) (rest : List (UInt64 × Nat)) :
    tally generation (e :: rest) = if generation = e.1 then e.2 else tally generation rest := by
  rw [tally, List.lookup_cons]
  by_cases heq : generation = e.1
  · simp [heq]
  · simp [heq, beq_eq_false_iff_ne.mpr heq, tally]

lemma tally_eq_zero_of_below {generation : UInt64} {entries : List (UInt64 × Nat)}
    (hbelow : ∀ e ∈ entries, generation < e.1) : tally generation entries = 0 := by
  induction entries with
  | nil => rfl
  | cons e rest ih =>
    rw [tally_cons, if_neg (UInt64.ne_of_lt (hbelow e List.mem_cons_self))]
    exact ih fun e hmem => hbelow e (List.mem_cons_of_mem _ hmem)

lemma tally_increment {entries : List (UInt64 × Nat)} (hascending : Ascending entries)
    (generation g : UInt64) :
    tally g (increment generation entries) =
      tally g entries + if g = generation then 1 else 0 := by
  induction entries with
  | nil => rw [increment, tally_cons, Nat.add_comm]; rfl
  | cons e rest ih =>
    obtain ⟨hlowest, hrest⟩ := List.pairwise_cons.mp hascending
    rw [increment]
    split
    · -- the new entry stands in front, where the generation has none yet
      rename_i hbelow
      rw [tally_cons]
      by_cases heq : g = generation
      · have habsent : tally g (e :: rest) = 0 := by
          refine tally_eq_zero_of_below fun d hmem => heq ▸ ?_
          rcases List.mem_cons.mp hmem with rfl | hmem
          · exact hbelow
          · exact UInt64.lt_trans hbelow (hlowest d hmem)
        simp [heq ▸ habsent, heq]
      · simp [heq]
    split
    · rename_i habove
      rw [tally_cons, tally_cons, ih hrest]
      by_cases hfirst : g = e.1
      · simp [hfirst, UInt64.ne_of_lt habove]
      · simp [hfirst]
    · have hsame : generation = e.1 :=
        UInt64.le_antisymm (UInt64.not_lt.mp ‹_›) (UInt64.not_lt.mp ‹_›)
      rw [tally_cons, tally_cons, hsame]
      split <;> rfl

lemma tally_decrement {entries : List (UInt64 × Nat)} (hascending : Ascending entries)
    (generation g : UInt64) :
    tally g (decrement generation entries) =
      tally g entries - if g = generation then 1 else 0 := by
  induction entries with
  | nil => simp [decrement, tally]
  | cons e rest ih =>
    obtain ⟨hlowest, hrest⟩ := List.pairwise_cons.mp hascending
    rw [decrement]
    split
    · rename_i hsame
      split
      · rename_i hlast
        rw [tally_cons]
        by_cases heq : g = generation
        · rw [tally_eq_zero_of_below (heq ▸ hsame ▸ hlowest), if_pos (heq.trans hsame.symm),
            if_pos heq, hlast]
        · simp [heq, hsame]
      · rw [tally_cons, tally_cons, hsame]
        split <;> rfl
    · rename_i hother
      rw [tally_cons, tally_cons, ih hrest]
      by_cases hfirst : g = e.1
      · simp [hfirst, hother]
      · simp [hfirst]

/-! ### Acquiring and releasing -/

lemma count_acquire (locks : Locks) (generation g : UInt64) :
    (locks.acquire generation).count g = locks.count g + if g = generation then 1 else 0 :=
  tally_increment locks.ascending generation g

lemma count_release (locks : Locks) (generation g : UInt64) :
    (locks.release generation).count g = locks.count g - if g = generation then 1 else 0 :=
  tally_decrement locks.ascending generation g

/-! ### The lowest locked generation -/

/-- The lowest entry has a lock and is not above any generation with one. -/
lemma lowest?_spec (locks : Locks) :
    match locks.lowest? with
    | none => ∀ g, locks.count g = 0
    | some lowest => 0 < locks.count lowest ∧ ∀ g, 0 < locks.count g → lowest ≤ g := by
  obtain ⟨entries, hascending, hpos⟩ := locks
  cases entries with
  | nil => exact fun g => rfl
  | cons e rest =>
    have habove := (List.pairwise_cons.mp hascending).1
    refine ⟨?_, fun g hlocked => UInt64.not_lt.mp fun hbelow => ?_⟩
    · have hfirst : tally e.1 (e :: rest) = e.2 := by rw [tally_cons, if_pos rfl]
      exact Nat.lt_of_lt_of_eq (hpos e List.mem_cons_self) hfirst.symm
    · have habsent : tally g (e :: rest) = 0 := by
        refine tally_eq_zero_of_below fun d hmem => ?_
        rcases List.mem_cons.mp hmem with rfl | hmem
        · exact hbelow
        · exact UInt64.lt_trans hbelow (habove d hmem)
      exact absurd habsent (Nat.pos_iff_ne_zero.mp hlocked)

end SeriesStore.Locks
