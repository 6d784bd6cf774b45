import SeriesStore.Proofs.Log.Keeping

/-!
# The rate of a limited policy

A limited policy stands around another one, of which it sees only the answer. Of the files below
that answer it lets the oldest ones go, exactly as many as its share of them says. So a larger
share never lets fewer files go, and no share lets more go than the policy inside.
-/

namespace SeriesStore

/-! ### Oldest files -/

namespace LogFile

variable {files : List LogFile}

/-- If a generation lies above the first `k` files and not above the others, the files below it are
these `k`. -/
lemma filter_below_eq_take {g : UInt64} {k : Nat} (hbelow : ∀ f ∈ files.take k, f.generation < g)
    (hkept : ∀ f ∈ files.drop k, g ≤ f.generation) :
    files.filter (fun f => decide (f.generation < g)) = files.take k := by
  conv_lhs => rw [← List.take_append_drop k files]
  have hnone : (files.drop k).filter (fun f => decide (f.generation < g)) = [] :=
    List.filter_eq_nil_iff.mpr fun f hmem => by simpa using hkept f hmem
  rw [List.filter_append, hnone, List.append_nil]
  exact List.filter_eq_self.mpr fun f hmem => decide_eq_true (hbelow f hmem)

/-- The files below any generation are the first ones. -/
lemma filter_below (hascending : files.Pairwise fun a b => a.generation < b.generation)
    (g : UInt64) :
    files.filter (fun f => decide (f.generation < g)) =
      files.take (files.filter fun f => decide (f.generation < g)).length := by
  have hparts := filter_append_filter hascending g
  calc files.filter (fun f => decide (f.generation < g))
      = (files.filter (fun f => decide (f.generation < g)) ++
          files.filter fun f => decide (g ≤ f.generation)).take
            (files.filter fun f => decide (f.generation < g)).length := List.take_left.symm
    _ = files.take (files.filter fun f => decide (f.generation < g)).length := by rw [hparts]

/-- The files below one of them are those in front of it. -/
lemma filter_below_getElem (hascending : files.Pairwise fun a b => a.generation < b.generation)
    {i : Nat} (h : i < files.length) :
    files.filter (fun f => decide (f.generation < files[i].generation)) = files.take i := by
  have hparts : (files.take i ++ files[i] :: files.drop (i + 1)).Pairwise
      fun a b => a.generation < b.generation := by
    rwa [List.getElem_cons_drop, List.take_append_drop]
  obtain ⟨-, hnewer, holder⟩ := List.pairwise_append.mp hparts
  refine filter_below_eq_take (fun f hmem => holder f hmem _ List.mem_cons_self)
    fun f hmem => ?_
  rw [← List.getElem_cons_drop h] at hmem
  rcases List.mem_cons.mp hmem with rfl | hmem
  · exact UInt64.le_refl _
  · exact UInt64.le_of_lt ((List.pairwise_cons.mp hnewer).1 f hmem)

end LogFile

/-! ### The share -/

namespace LimitedPolicy

/-- How many of the eligible files a share in percent lets go: all of them from 100 on, else the
share rounded down, but one of them at least. -/
def closing (percentage : UInt8) (eligible : Nat) : Nat :=
  if 100 ≤ percentage then eligible
  else if eligible = 0 then 0
  else max 1 (eligible * percentage.toNat / 100)

lemma closing_le (percentage : UInt8) (eligible : Nat) :
    closing percentage eligible ≤ eligible := by
  unfold closing
  split
  · exact Nat.le_refl _
  · rename_i hpartly
    split
    · exact Nat.zero_le _
    · have hfew : percentage.toNat < 100 := by
        rw [UInt8.not_le] at hpartly
        exact UInt8.lt_iff_toNat_lt.mp hpartly
      have hshare : eligible * percentage.toNat / 100 ≤ eligible := by
        refine Nat.div_le_of_le_mul ?_
        rw [Nat.mul_comm 100]
        exact Nat.mul_le_mul_left eligible (Nat.le_of_lt hfew)
      omega

lemma closing_mono {p q : UInt8} (hle : p ≤ q) (eligible : Nat) :
    closing p eligible ≤ closing q eligible := by
  by_cases hall : 100 ≤ q
  · have hmost := closing_le p eligible
    rwa [closing.eq_def q, if_pos hall]
  · have hpartly : ¬ 100 ≤ p := fun hall' => hall (UInt8.le_trans hall' hle)
    have hshare : eligible * p.toNat / 100 ≤ eligible * q.toNat / 100 :=
      Nat.div_le_div_right (Nat.mul_le_mul_left eligible (UInt8.le_iff_toNat_le.mp hle))
    simp only [closing, if_neg hall, if_neg hpartly]
    split <;> omega

/-- Where the limit gives the generation itself, all eligible files go. -/
lemma closing_of_unlimited {percentage : UInt8} {eligible : Nat}
    (hunlimited : 100 ≤ percentage ∨ eligible = 0 ∨ eligible ≤ allowance percentage eligible) :
    closing percentage eligible = eligible := by
  refine Nat.le_antisymm (closing_le percentage eligible) ?_
  unfold closing
  split
  · exact Nat.le_refl _
  · rename_i hpartly
    split
    · omega
    · rename_i hany
      have hfew := (hunlimited.resolve_left hpartly).resolve_left hany
      rwa [allowance, Nat.max_comm] at hfew

/-- Where the limit counts files, it counts the share. -/
lemma closing_of_limited {percentage : UInt8} {eligible : Nat}
    (hlimited : ¬ (100 ≤ percentage ∨ eligible = 0 ∨ eligible ≤ allowance percentage eligible)) :
    closing percentage eligible = allowance percentage eligible ∧
      allowance percentage eligible < eligible := by
  simp only [not_or, Nat.not_le] at hlimited
  obtain ⟨hpartly, hany, hallowed⟩ := hlimited
  exact ⟨by rw [closing, if_neg hpartly, if_neg hany, allowance, Nat.max_comm], hallowed⟩

/-! ### What a cycle lets go -/

variable {files : List LogFile}

/-- The files below the answer of a limited policy are the oldest ones, as many as its share of the
eligible ones says. -/
lemma filter_below_limit (hascending : files.Pairwise fun a b => a.generation < b.generation)
    (percentage : UInt8) (g : UInt64) :
    files.filter (fun f => decide (f.generation < limit percentage files g)) =
      files.take
        (closing percentage (files.filter fun f => decide (f.generation < g)).length) := by
  simp only [limit]
  split
  · rename_i hunlimited
    rw [closing_of_unlimited hunlimited]
    exact LogFile.filter_below hascending g
  · rename_i hlimited
    obtain ⟨hshare, hallowed⟩ := closing_of_limited hlimited
    have hindex := Nat.lt_of_lt_of_le hallowed (List.length_filter_le ..)
    rw [hshare, List.getElem?_eq_getElem hindex, Option.map_some, Option.getD_some]
    exact LogFile.filter_below_getElem hascending hindex

/-- A larger share never lets fewer files go. -/
lemma limit_mono (hascending : files.Pairwise fun a b => a.generation < b.generation)
    {p q : UInt8} (hle : p ≤ q) (g : UInt64) : limit p files g ≤ limit q files g := by
  rcases limit_spec hascending q g with hsame | ⟨i, f, hposition, -, hanswer⟩
  · rw [hsame]
    exact limit_le hascending p g
  · refine UInt64.not_lt.mp fun hlower => ?_
    -- the file that the larger share keeps would have gone with the smaller one
    have hgone : f ∈ files.filter fun e => decide (e.generation < limit p files g) :=
      List.mem_filter.mpr ⟨List.mem_of_getElem? hposition, decide_eq_true (hanswer ▸ hlower)⟩
    rw [filter_below_limit hascending] at hgone
    have hgone' := List.take_subset_take_left _ (closing_mono hle _) hgone
    rw [← filter_below_limit hascending q g, hanswer] at hgone'
    exact UInt64.lt_irrefl _ (of_decide_eq_true (List.mem_filter.mp hgone').2)

/-- Whatever policy stands inside a limited one, for files in ascending order those below the
limited answer are the oldest of the files that the inner policy lets go, as many as the share says.
A larger share never lowers the answer, and none raises it above the inner one. -/
theorem limit_exact (inner : List LogFile → LogHead → UInt64) (head : LogHead)
    (hascending : files.Pairwise fun a b => a.generation < b.generation) :
    let value := inner files head
    let eligible := (files.filter fun f => decide (f.generation < value)).length
    ∀ percentage : UInt8,
      (files.filter fun f => decide (f.generation < limit percentage files value)) =
          files.take (closing percentage eligible) ∧
        closing percentage eligible ≤ eligible ∧ eligible ≤ files.length ∧
        (∀ share : UInt8, percentage ≤ share →
          limit percentage files value ≤ limit share files value) ∧
        limit percentage files value ≤ value := by
  intro value eligible percentage
  exact ⟨filter_below_limit hascending percentage value, closing_le percentage eligible,
    List.length_filter_le .., fun share hle => limit_mono hascending hle value,
    limit_le hascending percentage value⟩

/-- Three of six files may go for their size, two of them with a share of 70 percent. -/
theorem limit_exact_two_of_three :
    let inner := RetentionPolicy.required { retention := ⟨some 250, none, 100⟩ } 0
    let files : List LogFile :=
      [⟨1, 100, 0⟩, ⟨2, 100, 0⟩, ⟨3, 100, 0⟩, ⟨5, 100, 0⟩, ⟨8, 100, 0⟩, ⟨13, 100, 0⟩]
    let head : LogHead := ⟨21, 0⟩
    let value := inner files head
    let eligible := (files.filter fun f => decide (f.generation < value)).length
    (files.Pairwise fun a b => a.generation < b.generation) ∧
      value = 5 ∧ closing 70 eligible = 2 ∧ limit 70 files value = 3 ∧
    ∀ percentage : UInt8,
      (files.filter fun f => decide (f.generation < limit percentage files value)) =
          files.take (closing percentage eligible) ∧
        closing percentage eligible ≤ eligible ∧ eligible ≤ files.length ∧
        (∀ share : UInt8, percentage ≤ share →
          limit percentage files value ≤ limit share files value) ∧
        limit percentage files value ≤ value := by
  intro inner files head value eligible
  have hascending : files.Pairwise fun a b => a.generation < b.generation := by decide
  exact ⟨hascending, by decide, by decide, by decide, limit_exact inner head hascending⟩

end LimitedPolicy

end SeriesStore
