import Mathlib.Logic.Function.Iterate
import SeriesStore.Proofs.Log.Keeping

/-!
# Trimming in shares

In each cycle a limited policy is asked, and the files below its answer go. Each limit walks along
the files that are left, so it may answer otherwise when older files are gone: then it has asked for
one of the files that went, and now asks for the oldest one that is left. That never moves the
answer of the policy itself, so the cycles come to the same end as one trim without a limit.
-/

namespace SeriesStore

lemma LogFile.Ordered.newer {gone rest : List LogFile} {head : LogHead}
    (hordered : Ordered (gone ++ rest) head) : Ordered rest head :=
  ⟨(List.pairwise_append.mp hordered.ascending).2.1,
    fun f hmem => hordered.below f (List.mem_append_right _ hmem)⟩

/-! ### Criteria after older files are gone -/

namespace Retention

variable {gone rest : List LogFile} {head : LogHead}

/-- The generation of the oldest file. -/
def oldest (files : List LogFile) (head : LogHead) : UInt64 :=
  (files.head?.map (·.generation)).getD head.generation

lemma oldest_le (hordered : LogFile.Ordered rest head) :
    oldest rest head ≤ head.generation ∧ ∀ f ∈ rest, oldest rest head ≤ f.generation := by
  obtain ⟨hascending, hbelow⟩ := hordered
  cases rest with
  | nil => exact ⟨UInt64.le_refl _, by simp⟩
  | cons first newer =>
    refine ⟨UInt64.le_of_lt (hbelow first List.mem_cons_self), fun f hmem => ?_⟩
    rcases List.mem_cons.mp hmem with rfl | hmem
    · exact UInt64.le_refl _
    · exact UInt64.le_of_lt ((List.pairwise_cons.mp hascending).1 f hmem)

lemma lt_oldest (hordered : LogFile.Ordered (gone ++ rest) head) :
    ∀ f ∈ gone, f.generation < oldest rest head := by
  obtain ⟨hascending, hbelow⟩ := hordered
  intro f hmem
  cases rest with
  | nil => exact hbelow f (List.mem_append_left _ hmem)
  | cons first newer =>
    exact (List.pairwise_append.mp hascending).2.2 f hmem first List.mem_cons_self

/-- How an answer changes when older files are gone: it stays if it does not ask for them, and is
the oldest file that is left if it has asked for one of them. -/
inductive Shift (gone rest : List LogFile) (head : LogHead) (before after : UInt64) : Prop
  | stays (same : after = before) (le : oldest rest head ≤ before)
  | moves (lost : ∃ f ∈ gone, before = f.generation) (now : after = oldest rest head)

lemma bySizeFrom_mem (limit total generation : UInt64) (files : List LogFile) :
    bySizeFrom limit total generation files = generation ∨
      ∃ f ∈ files, bySizeFrom limit total generation files = f.generation := by
  induction files generalizing total generation with
  | nil => exact .inl rfl
  | cons f older ih =>
    rw [bySizeFrom]
    split
    · exact .inl rfl
    · rcases ih (clampUInt64 (total.toNat + f.size.toNat)) f.generation with
        hstop | ⟨e, hmem, hstop⟩
      · exact .inr ⟨f, List.mem_cons_self, hstop⟩
      · exact .inr ⟨e, List.mem_cons_of_mem _ hmem, hstop⟩

/-- The walk over the sizes of newer files and then of older ones stops at a newer one, or it passes
all newer ones. -/
lemma bySizeFrom_append (limit total generation : UInt64) (newer older : List LogFile) :
    bySizeFrom limit total generation (newer ++ older) =
        bySizeFrom limit total generation newer ∨
      (∃ f ∈ older, bySizeFrom limit total generation (newer ++ older) = f.generation) ∧
        bySizeFrom limit total generation newer =
          (newer.getLast?.map (·.generation)).getD generation := by
  induction newer generalizing total generation with
  | nil => exact (bySizeFrom_mem limit total generation older).imp id fun hpassed => ⟨hpassed, rfl⟩
  | cons f newer ih =>
    rw [List.cons_append, bySizeFrom, bySizeFrom]
    split
    · exact .inl rfl
    · rcases ih (clampUInt64 (total.toNat + f.size.toNat)) f.generation with
        hsame | ⟨hpassed, hlast⟩
      · exact .inl hsame
      · refine .inr ⟨hpassed, hlast.trans ?_⟩
        cases newer with
        | nil => rfl
        | cons e newer => simp [List.getLast?_cons]

lemma bySize_shift (hordered : LogFile.Ordered (gone ++ rest) head) (limit : UInt64) :
    Shift gone rest head (bySize limit (gone ++ rest) head) (bySize limit rest head) := by
  obtain ⟨hhead, hrest⟩ := oldest_le hordered.newer
  unfold bySize
  rw [List.reverse_append]
  rcases bySizeFrom_append limit head.size head.generation rest.reverse gone.reverse with
    hsame | ⟨⟨f, hmem, hlost⟩, hlast⟩
  · refine .stays hsame.symm ?_
    rw [hsame]
    rcases bySizeFrom_mem limit head.size head.generation rest.reverse with
      hstop | ⟨f, hmem, hstop⟩
    · rwa [hstop]
    · rw [hstop]
      exact hrest f (List.mem_reverse.mp hmem)
  · refine .moves ⟨f, List.mem_reverse.mp hmem, hlost⟩ (hlast.trans ?_)
    rw [List.getLast?_reverse, oldest]

/-- A file that has been changed later is not older. -/
lemma isRecent_mono {limit : UInt64} {now : Int64} {f g : LogFile}
    (hlater : f.modified ≤ g.modified) (hrecent : isRecent limit now f) :
    isRecent limit now g := by
  have hle := Int64.le_iff_toInt_le.mp hlater
  simp only [isRecent, toInt_clampInt64, decide_eq_true_eq] at hrecent ⊢
  omega

lemma byAge_shift (hordered : LogFile.Ordered (gone ++ rest) head)
    (haging : (gone ++ rest).Pairwise fun a b => a.modified ≤ b.modified) (limit : UInt64)
    (now : Int64) :
    Shift gone rest head (byAge limit now (gone ++ rest) head) (byAge limit now rest head) := by
  obtain ⟨hhead, hrest⟩ := oldest_le hordered.newer
  simp only [byAge, List.find?_append]
  cases hfound : gone.find? (isRecent limit now) with
  | none =>
    refine .stays (by rw [Option.none_or]) ?_
    rw [Option.none_or]
    cases hleft : rest.find? (isRecent limit now) with
    | none => exact hhead
    | some f => exact hrest f (List.mem_of_find?_eq_some hleft)
  | some f =>
    have hmem := List.mem_of_find?_eq_some hfound
    refine .moves ⟨f, hmem, by rw [Option.some_or]⟩ ?_
    cases rest with
    | nil => rfl
    | cons first newer =>
      -- the files that are left have been changed later than one that is recent
      have hlater := (List.pairwise_append.mp haging).2.2 f hmem first List.mem_cons_self
      have hrecent := isRecent_mono hlater (List.find?_some hfound)
      rw [List.find?_cons_of_pos hrecent]
      rfl

lemma byFiles_shift (hordered : LogFile.Ordered (gone ++ rest) head) (limit : UInt64) :
    Shift gone rest head (byFiles limit (gone ++ rest) head) (byFiles limit rest head) := by
  obtain ⟨hhead, hrest⟩ := oldest_le hordered.newer
  simp only [byFiles, List.reverse_append]
  rcases Nat.lt_or_ge rest.reverse.length (limit.toNat - 1) with hbeyond | hwithin
  · rw [List.take_append, List.take_of_length_le (Nat.le_of_lt hbeyond), List.getLast?_append]
    cases hlast : (gone.reverse.take (limit.toNat - 1 - rest.reverse.length)).getLast? with
    | none =>
      rw [Option.none_or]
      refine .stays rfl ?_
      rw [List.getLast?_reverse]
      cases hfirst : rest.head? with
      | none => exact hhead
      | some f => exact hrest f (List.mem_of_head? hfirst)
    | some f =>
      refine .moves ⟨f, ?_, by rw [Option.some_or]⟩ ?_
      · exact List.mem_reverse.mp (List.mem_of_mem_take (List.mem_of_getLast? hlast))
      · rw [List.getLast?_reverse, oldest]
        cases rest.head? <;> rfl
  · rw [List.take_append_of_le_length hwithin]
    refine .stays rfl ?_
    cases hlast : (rest.reverse.take (limit.toNat - 1)).getLast? with
    | none => exact hhead
    | some f =>
      exact hrest f
        (List.mem_reverse.mp (List.mem_of_mem_take (List.mem_of_getLast? hlast)))

lemma Shift.larger {before₁ before₂ after₁ after₂ : UInt64}
    (hordered : LogFile.Ordered (gone ++ rest) head)
    (hshift₁ : Shift gone rest head before₁ after₁)
    (hshift₂ : Shift gone rest head before₂ after₂) :
    Shift gone rest head (larger before₁ before₂) (larger after₁ after₂) := by
  have hlt := lt_oldest hordered
  unfold Retention.larger
  cases hshift₁ with
  | stays hsame₁ hle₁ =>
    cases hshift₂ with
    | stays hsame₂ hle₂ =>
      rw [hsame₁, hsame₂]
      exact .stays rfl (by split <;> assumption)
    | moves hlost₂ hnow₂ =>
      obtain ⟨f, hmem, rfl⟩ := hlost₂
      have hbelow := hlt f hmem
      rw [hsame₁, hnow₂, if_neg (by grind), if_neg (by grind)]
      exact .stays rfl hle₁
  | moves hlost₁ hnow₁ =>
    obtain ⟨f, hmem, rfl⟩ := hlost₁
    have hbelow := hlt f hmem
    cases hshift₂ with
    | stays hsame₂ hle₂ =>
      rw [hnow₁, hsame₂, if_pos (by grind)]
      exact .stays (by grind) hle₂
    | moves hlost₂ hnow₂ =>
      obtain ⟨g, hmem', rfl⟩ := hlost₂
      rw [hnow₁, hnow₂]
      refine .moves ?_ (by simp)
      split
      · exact ⟨g, hmem', rfl⟩
      · exact ⟨f, hmem, rfl⟩

lemma larger_zero (g : UInt64) : larger g 0 = g := by
  unfold larger
  exact if_neg UInt64.not_lt_zero

lemma zero_larger (g : UInt64) : larger 0 g = g := by
  unfold larger
  split
  · rfl
  · grind

lemma proposal_shift (hordered : LogFile.Ordered (gone ++ rest) head)
    (haging : (gone ++ rest).Pairwise fun a b => a.modified ≤ b.modified) (r : Retention)
    (now : Int64) :
    Shift gone rest head (r.proposal now (gone ++ rest) head) (r.proposal now rest head) := by
  have hfiles := byFiles_shift hordered r.files
  obtain ⟨size, age, limit⟩ := r
  cases size with
  | none =>
    cases age with
    | none =>
      have hhigh : oldest rest head ≤ unlimited := by
        rw [UInt64.le_iff_toNat_le]
        exact Nat.le_of_lt_succ (oldest rest head).toNat_lt
      exact .larger hordered (.stays rfl hhigh) hfiles
    | some age =>
      simp only [proposal, Option.map_none, Option.map_some, Option.getD_none, Option.getD_some,
        zero_larger]
      exact .larger hordered (byAge_shift hordered haging age now) hfiles
  | some size =>
    cases age with
    | none =>
      simp only [proposal, Option.map_none, Option.map_some, Option.getD_none, Option.getD_some,
        larger_zero]
      exact .larger hordered (bySize_shift hordered size) hfiles
    | some age =>
      have hboth := Shift.larger hordered (bySize_shift hordered size)
        (byAge_shift hordered haging age now)
      exact .larger hordered hboth hfiles

end Retention

/-- Without files below its answer, a policy answers as before. -/
lemma RetentionPolicy.required_rest (p : RetentionPolicy) {now : Int64}
    {gone rest : List LogFile} {head : LogHead} (hordered : LogFile.Ordered (gone ++ rest) head)
    (haging : (gone ++ rest).Pairwise fun a b => a.modified ≤ b.modified)
    (hbelow : ∀ f ∈ gone, f.generation < p.required now (gone ++ rest) head) :
    p.required now rest head = p.required now (gone ++ rest) head := by
  have hproposed := (le_required_iff.mp (UInt64.le_refl (p.required now (gone ++ rest) head))).1
  cases Retention.proposal_shift hordered haging p.retention now with
  | stays hsame hle => rw [required, required, hsame]
  | moves hlost hnow =>
    -- the criteria never ask for a file that may go
    obtain ⟨f, hmem, hasked⟩ := hlost
    have hlt := hbelow f hmem
    grind

/-! ### Cycles -/

namespace LimitedPolicy

variable {p : LimitedPolicy} {now : Int64} {head : LogHead} {files rest : List LogFile}

/-- One cycle: the policy is asked, and the files below its answer go. -/
def trim (p : LimitedPolicy) (now : Int64) (head : LogHead) (files : List LogFile) :
    List LogFile :=
  files.filter fun f => decide (p.required now files head ≤ f.generation)

/-- The files that the policy without a limit lets go. -/
def eligible (p : LimitedPolicy) (now : Int64) (head : LogHead) (files : List LogFile) :
    List LogFile :=
  files.filter fun f => decide (f.generation < p.policy.required now files head)

/-- As long as files may go, a cycle lets one go at least. -/
lemma exists_required_above (hordered : LogFile.Ordered files head) (p : LimitedPolicy)
    (now : Int64) (hany : p.eligible now head files ≠ []) :
    ∃ f ∈ files, f.generation < p.required now files head := by
  rcases limit_spec hordered.ascending p.percentage (p.policy.required now files head) with
    hsame | ⟨i, g, hposition, -, hanswer⟩
  · obtain ⟨f, rest, hfirst⟩ := List.exists_cons_of_ne_nil hany
    have hmem : f ∈ p.eligible now head files := hfirst ▸ List.mem_cons_self
    obtain ⟨hmem, hbelow⟩ := List.mem_filter.mp hmem
    exact ⟨f, hmem, by simpa only [required, hsame, decide_eq_true_eq] using hbelow⟩
  · obtain ⟨hindex, rfl⟩ := List.getElem?_eq_some_iff.mp hposition
    refine ⟨files[0], List.getElem_mem (by omega), ?_⟩
    rw [required, hanswer]
    exact List.pairwise_iff_getElem.mp hordered.ascending 0 (i + 1) (by omega) hindex (by omega)

/-- A cycle lets some of the oldest files go, and none that the policy without a limit keeps. -/
lemma exists_trim (hordered : LogFile.Ordered files head) (p : LimitedPolicy) (now : Int64) :
    ∃ gone, files = gone ++ p.trim now head files ∧
      (∀ f ∈ gone, f.generation < p.policy.required now files head) ∧
      (p.eligible now head files ≠ [] → gone ≠ []) := by
  refine ⟨_, (LogFile.filter_append_filter hordered.ascending (p.required now files head)).symm,
    fun f hmem => ?_, fun hany => ?_⟩
  · have hbelow := (List.mem_filter.mp hmem).2
    have hle := required_le hordered.ascending p now head
    grind
  · obtain ⟨f, hmem, hbelow⟩ := exists_required_above hordered p now hany
    exact List.ne_nil_of_mem (List.mem_filter.mpr ⟨hmem, by simpa using hbelow⟩)

/-- What is left of the files after some cycles. -/
structure Trimmed (p : LimitedPolicy) (now : Int64) (head : LogHead) (files rest : List LogFile)
    (cycles : Nat) : Prop where
  suffix : rest <:+ files
  /-- The policy without a limit answers as at first. -/
  value : p.policy.required now rest head = p.policy.required now files head
  /-- No file has gone that the policy without a limit keeps. -/
  keeps : ∀ f ∈ files, p.policy.required now files head ≤ f.generation → f ∈ rest
  /-- Each cycle has let a file go, unless none is left that may go. -/
  progress : p.eligible now head rest = [] ∨
    (p.eligible now head rest).length + cycles ≤ (p.eligible now head files).length

lemma Trimmed.step (hordered : LogFile.Ordered files head)
    (haging : files.Pairwise fun a b => a.modified ≤ b.modified) {cycles : Nat}
    (htrimmed : Trimmed p now head files rest cycles) :
    Trimmed p now head files (p.trim now head rest) (cycles + 1) := by
  obtain ⟨older, rfl⟩ := htrimmed.suffix
  obtain ⟨gone, hparts, hbelow, hsome⟩ := exists_trim hordered.newer p now
  have haging' := (List.pairwise_append.mp haging).2.1
  generalize hleft : p.trim now head rest = kept at hparts ⊢
  subst hparts
  have hsame : p.policy.required now kept head = p.policy.required now (gone ++ kept) head :=
    p.policy.required_rest hordered.newer haging' hbelow
  have hshorter : p.eligible now head (gone ++ kept) = gone ++ p.eligible now head kept := by
    rw [eligible, eligible, hsame, List.filter_append,
      List.filter_eq_self.mpr fun f hmem => decide_eq_true (hbelow f hmem)]
  constructor
  case suffix => exact (List.suffix_append gone kept).trans (List.suffix_append older _)
  case value => exact hsame.trans htrimmed.value
  case keeps =>
    intro f hmem hstays
    rcases List.mem_append.mp (htrimmed.keeps f hmem hstays) with hlost | hmem
    · have hlt := hbelow f hlost
      rw [htrimmed.value] at hlt
      grind
    · exact hmem
  case progress =>
    rcases htrimmed.progress with hnone | hcount
    · exact .inl (List.append_eq_nil_iff.mp (hshorter.symm.trans hnone)).2
    · by_cases hany : p.eligible now head (gone ++ kept) = []
      · exact .inl (List.append_eq_nil_iff.mp (hshorter.symm.trans hany)).2
      · have hone := List.length_pos_iff.mpr (hsome hany)
        rw [hshorter, List.length_append] at hcount
        exact .inr (by omega)

lemma Trimmed.iterate (hordered : LogFile.Ordered files head)
    (haging : files.Pairwise fun a b => a.modified ≤ b.modified) (p : LimitedPolicy) (now : Int64)
    (cycles : Nat) : Trimmed p now head files ((p.trim now head)^[cycles] files) cycles := by
  induction cycles with
  | zero => exact ⟨List.suffix_rfl, rfl, fun f hmem _ => hmem, .inr (Nat.le_refl _)⟩
  | succ n ih =>
    rw [Function.iterate_succ_apply']
    exact ih.step hordered haging

/-- When no file is left that may go, those are left that the policy without a limit keeps. -/
lemma Trimmed.eq_filter (hordered : LogFile.Ordered files head) {cycles : Nat}
    (htrimmed : Trimmed p now head files rest cycles) (hnone : p.eligible now head rest = []) :
    rest = files.filter fun f => decide (p.policy.required now files head ≤ f.generation) := by
  obtain ⟨older, rfl⟩ := htrimmed.suffix
  have holder :
      older.filter (fun f => decide (p.policy.required now (older ++ rest) head ≤ f.generation)) =
        [] := by
    refine List.filter_eq_nil_iff.mpr fun f hmem hstays => ?_
    have htwice := htrimmed.keeps f (List.mem_append_left _ hmem) (of_decide_eq_true hstays)
    have hlt := (List.pairwise_append.mp hordered.ascending).2.2 f hmem f htwice
    exact UInt64.lt_irrefl _ hlt
  have hrest :
      rest.filter (fun f => decide (p.policy.required now (older ++ rest) head ≤ f.generation)) =
        rest := by
    refine List.filter_eq_self.mpr fun f hmem => decide_eq_true (UInt64.not_lt.mp fun hbelow => ?_)
    rw [← htrimmed.value] at hbelow
    exact List.filter_eq_nil_iff.mp hnone f hmem (decide_eq_true hbelow)
  rw [List.filter_append, holder, hrest, List.nil_append]

/-- For closed files in order that have been changed in that order, no cycle moves the answer of the
policy without a limit. Each cycle lets the oldest files go, none that this policy keeps, and at
least one as long as any is below its answer; after as many cycles as there are such files, exactly
these have gone. -/
theorem trims_reach (p : LimitedPolicy) (now : Int64) (hordered : LogFile.Ordered files head)
    (haging : files.Pairwise fun a b => a.modified ≤ b.modified) :
    let value := p.policy.required now files head
    let rest := fun n => (p.trim now head)^[n] files
    (∀ n, p.policy.required now (rest n) head = value ∧
      rest (n + 1) <:+ rest n ∧
      (∀ f ∈ files, value ≤ f.generation → f ∈ rest n) ∧
      ((∃ f ∈ rest n, f.generation < value) → (rest (n + 1)).length < (rest n).length)) ∧
    ∀ n, (files.filter fun f => decide (f.generation < value)).length ≤ n →
      rest n = files.filter fun f => decide (value ≤ f.generation) := by
  intro value rest
  have htrimmed : ∀ n, Trimmed p now head files (rest n) n := Trimmed.iterate hordered haging p now
  have hordered' : ∀ n, LogFile.Ordered (rest n) head := fun n => by
    obtain ⟨older, hparts⟩ := (htrimmed n).suffix
    exact (hparts ▸ hordered : LogFile.Ordered (older ++ rest n) head).newer
  refine ⟨fun n => ⟨(htrimmed n).value, ?_, (htrimmed n).keeps, ?_⟩, fun n henough => ?_⟩
  · obtain ⟨gone, hparts, -⟩ := exists_trim (hordered' n) p now
    exact ⟨gone, by simp only [rest, Function.iterate_succ_apply']; exact hparts.symm⟩
  · rintro ⟨f, hmem, hbelow⟩
    obtain ⟨gone, hparts, -, hsome⟩ := exists_trim (hordered' n) p now
    have hany : p.eligible now head (rest n) ≠ [] := by
      refine List.ne_nil_of_mem (List.mem_filter.mpr ⟨hmem, decide_eq_true ?_⟩)
      rw [(htrimmed n).value]
      exact hbelow
    have hone := List.length_pos_iff.mpr (hsome hany)
    have hcount := congrArg List.length hparts
    rw [List.length_append] at hcount
    simp only [rest, Function.iterate_succ_apply'] at hcount ⊢
    omega
  · -- each round has let one of these files go, as long as there were any
    refine (htrimmed n).eq_filter hordered ?_
    rcases (htrimmed n).progress with hnone | hcount
    · exact hnone
    · have hfew : (p.eligible now head files).length ≤ n := henough
      exact List.eq_nil_of_length_eq_zero (by omega)

/-- Three of four files may go, one in each cycle. -/
theorem trims_reach_one_by_one :
    let p : LimitedPolicy := { policy := { retention := ⟨some 20, some 100, 9⟩ }, percentage := 10 }
    let files : List LogFile := [⟨2, 10, 5⟩, ⟨3, 10, 5⟩, ⟨5, 10, 20⟩, ⟨8, 10, 30⟩]
    let head : LogHead := ⟨9, 10⟩
    let value := p.policy.required 110 files head
    let rest := fun n => (p.trim 110 head)^[n] files
    LogFile.Ordered files head ∧ (files.Pairwise fun a b => a.modified ≤ b.modified) ∧
      value = 8 ∧ rest 2 = [⟨5, 10, 20⟩, ⟨8, 10, 30⟩] ∧ rest 3 = [⟨8, 10, 30⟩] ∧
    (∀ n, p.policy.required 110 (rest n) head = value ∧
      rest (n + 1) <:+ rest n ∧
      (∀ f ∈ files, value ≤ f.generation → f ∈ rest n) ∧
      ((∃ f ∈ rest n, f.generation < value) → (rest (n + 1)).length < (rest n).length)) ∧
    ∀ n, (files.filter fun f => decide (f.generation < value)).length ≤ n →
      rest n = files.filter fun f => decide (value ≤ f.generation) := by
  intro p files head value rest
  have hordered : LogFile.Ordered files head := ⟨by decide, by decide⟩
  have haging : files.Pairwise fun a b => a.modified ≤ b.modified := by decide
  exact ⟨hordered, haging, by decide, by decide, by decide, trims_reach p 110 hordered haging⟩

end LimitedPolicy

end SeriesStore
