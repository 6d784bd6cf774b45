import Mathlib.Algebra.GroupWithZero.Nat
import Mathlib.Data.List.DropRight
import Mathlib.Order.Bounds.Basic
import SeriesStore.Proofs.Log.Trimming

/-!
# What the criteria ask for

Each criterion is a walk along the files. Said without the walk, the size asks for the shortest
run of files, from the head back, that has enough bytes, the number for the newest files, and the
age for the oldest file that is not too old. The answer of a policy is the least of what the head,
the locks, recovery and the criteria allow, and no higher limit raises it.
-/

namespace SeriesStore

namespace Retention

/-! ### The criteria without their walks -/

/-- Number of bytes in the head and the `k` newest files. -/
def runSize (files : List LogFile) (head : LogHead) (k : Nat) : Nat :=
  head.size.toNat + ((files.rtake k).map (·.size.toNat)).sum

/-- The oldest generation of the shortest run that has as many bytes as the limit. A run starts at
the head and goes back to older files; if none has so many bytes, the run with all files counts.
-/
def KeepsSize (limit : UInt64) (files : List LogFile) (head : LogHead) (g : UInt64) : Prop :=
  ∃ k, IsLeast {k | limit.toNat ≤ runSize files head k ∨ k = files.length} k ∧
    g = oldest (files.rtake k) head

/-- The generation of the oldest file whose age is within the limit, or of the head without one. -/
def KeepsAge (limit : UInt64) (age : LogFile → Int) (files : List LogFile) (head : LogHead)
    (g : UInt64) : Prop :=
  IsLeast {h | ∃ f ∈ files, age f ≤ limit.toNat ∧ f.generation = h} g ∨
    (∀ f ∈ files, ¬ age f ≤ limit.toNat) ∧ g = head.generation

/-- How many of the closed files a limit on their number keeps besides the head. -/
def keptFiles (limit : UInt64) (files : List LogFile) : Nat :=
  min files.length (max limit.toNat 1 - 1)

/-- The oldest of the generations that a limit on the number of files keeps: the head and the newest
files. -/
structure KeepsNumber (limit : UInt64) (files : List LogFile) (head : LogHead) (g : UInt64) :
    Prop where
  oldest : g = oldest (files.rtake (keptFiles limit files)) head
  head : g ≤ head.generation
  files : files.filter (fun f => decide (g ≤ f.generation)) = files.rtake (keptFiles limit files)

/-- What the limits ask for, given how old each file is. -/
inductive Proposes (r : Retention) (age : LogFile → Int) (files : List LogFile) (head : LogHead) :
    UInt64 → Prop
  | size {limit g : UInt64} (enabled : r.size = some limit)
      (keeps : KeepsSize limit files head g) : Proposes r age files head g
  | age {limit g : UInt64} (enabled : r.age = some limit)
      (keeps : KeepsAge limit age files head g) : Proposes r age files head g
  | number {g : UInt64} (keeps : KeepsNumber r.files files head g) : Proposes r age files head g
  | nothing (sizeless : r.size = none) (ageless : r.age = none) :
      Proposes r age files head unlimited

variable {files : List LogFile} {head : LogHead}

/-! ### Size -/

/-- The walk stops at the first file with which it has enough bytes. Its sum is clamped to a word,
but so is the limit, so that no comparison notices. -/
lemma bySizeFrom_spec (limit generation : UInt64) {total : UInt64} {exact : Nat}
    (hclamped : total.toNat = min exact 0xFFFFFFFFFFFFFFFF) (older : List LogFile) :
    ∃ k, IsLeast {k | limit.toNat ≤ exact + ((older.take k).map (·.size.toNat)).sum ∨
        k = older.length} k ∧
      bySizeFrom limit total generation older =
        ((older.take k).getLast?.map (·.generation)).getD generation := by
  have hword := limit.toNat_lt
  induction older generalizing total exact generation with
  | nil => exact ⟨0, ⟨.inr rfl, fun j _ => Nat.zero_le j⟩, rfl⟩
  | cons f older ih =>
    rw [bySizeFrom]
    split
    · -- no further file is needed
      rename_i henough
      rw [UInt64.le_iff_toNat_le] at henough
      exact ⟨0, ⟨.inl (by simp only [List.take_zero, List.map_nil, List.sum_nil]; omega),
        fun j _ => Nat.zero_le j⟩, rfl⟩
    · -- the newest of the older files is kept as well
      rename_i hfew
      rw [UInt64.le_iff_toNat_le] at hfew
      have hnext : (clampUInt64 (total.toNat + f.size.toNat)).toNat =
          min (exact + f.size.toNat) 0xFFFFFFFFFFFFFFFF := by
        rw [toNat_clampUInt64]
        omega
      obtain ⟨k, ⟨hreached, hleast⟩, hstop⟩ := ih f.generation hnext
      refine ⟨k + 1, ⟨?_, fun j hreaches => ?_⟩, ?_⟩
      · simpa only [Set.mem_ofPred_eq, List.take_succ_cons, List.map_cons, List.sum_cons,
          List.length_cons, Nat.add_right_cancel_iff, Nat.add_assoc] using hreached
      · cases j with
        | zero =>
          simp only [Set.mem_ofPred_eq, List.take_zero, List.map_nil, List.sum_nil,
            List.length_cons] at hreaches
          omega
        | succ j =>
          refine Nat.succ_le_succ (hleast ?_)
          simpa only [Set.mem_ofPred_eq, List.take_succ_cons, List.map_cons, List.sum_cons,
            List.length_cons, Nat.add_right_cancel_iff, Nat.add_assoc] using hreaches
      · rw [hstop, List.take_succ_cons, List.getLast?_cons]
        cases (older.take k).getLast? <;> rfl

lemma head?_rtake (k : Nat) : (files.rtake k).head? = (files.reverse.take k).getLast? := by
  rw [List.rtake_eq_reverse_take_reverse, List.head?_reverse]

lemma keepsSize_bySize (limit : UInt64) (files : List LogFile) (head : LogHead) :
    KeepsSize limit files head (bySize limit files head) := by
  have hstart : head.size.toNat = min head.size.toNat 0xFFFFFFFFFFFFFFFF := by
    have hword := head.size.toNat_lt
    omega
  obtain ⟨k, hleast, hstop⟩ := bySizeFrom_spec limit head.generation hstart files.reverse
  refine ⟨k, ?_, by rw [bySize, hstop, oldest, head?_rtake]⟩
  simpa only [runSize, List.rtake_eq_reverse_take_reverse, List.map_reverse, List.sum_reverse,
    List.length_reverse] using hleast

lemma KeepsSize.unique {limit g h : UInt64} (hkeeps : KeepsSize limit files head g)
    (hkeeps' : KeepsSize limit files head h) : g = h := by
  obtain ⟨k, hleast, rfl⟩ := hkeeps
  obtain ⟨l, hleast', rfl⟩ := hkeeps'
  rw [hleast.unique hleast']

/-! ### Age -/

/-- How old a file is. -/
def exactAge (now : Int64) (f : LogFile) : Int := now.toInt - f.modified.toInt

/-- How old a file counts as. An age beyond the largest timestamp counts as that timestamp. -/
def cappedAge (now : Int64) (f : LogFile) : Int := min (exactAge now f) 0x7FFFFFFFFFFFFFFF

/-- Only a limit of the largest timestamp or more cannot tell the two. -/
lemma cappedAge_le_iff {limit : UInt64} {now : Int64} {f : LogFile} :
    cappedAge now f ≤ limit.toNat ↔
      exactAge now f ≤ limit.toNat ∨ 0x7FFFFFFFFFFFFFFF ≤ limit.toNat := by
  unfold cappedAge
  omega

lemma isRecent_iff {limit : UInt64} {now : Int64} {f : LogFile} :
    isRecent limit now f = true ↔ cappedAge now f ≤ limit.toNat := by
  simp only [isRecent, cappedAge, exactAge, toInt_clampInt64, decide_eq_true_eq]
  omega

lemma keepsAge_byAge (hordered : LogFile.Ordered files head) (limit : UInt64) (now : Int64) :
    KeepsAge limit (cappedAge now) files head (byAge limit now files head) := by
  rw [byAge]
  cases hfound : files.find? (isRecent limit now) with
  | none =>
    refine .inr ⟨fun f hmem hrecent => ?_, rfl⟩
    exact List.find?_eq_none.mp hfound f hmem (isRecent_iff.mpr hrecent)
  | some f =>
    obtain ⟨hrecent, older, newer, rfl, hold⟩ := List.find?_eq_some_iff_append.mp hfound
    refine .inl ⟨⟨f, List.mem_append_right _ List.mem_cons_self, isRecent_iff.mp hrecent, rfl⟩, ?_⟩
    rintro g ⟨e, hmem, hwithin, rfl⟩
    rcases List.mem_append.mp hmem with hmem | hmem
    · have hlate := hold e hmem
      rw [isRecent_iff.mpr hwithin] at hlate
      contradiction
    · rcases List.mem_cons.mp hmem with rfl | hmem
      · exact UInt64.le_refl _
      · have hascending := (List.pairwise_append.mp hordered.ascending).2.1
        exact UInt64.le_of_lt ((List.pairwise_cons.mp hascending).1 e hmem)

lemma KeepsAge.congr_age {limit g : UInt64} {age age' : LogFile → Int}
    (hsame : ∀ f ∈ files, age f ≤ limit.toNat ↔ age' f ≤ limit.toNat)
    (hkeeps : KeepsAge limit age files head g) : KeepsAge limit age' files head g := by
  have hrecent : {h | ∃ f ∈ files, age f ≤ limit.toNat ∧ f.generation = h} =
      {h | ∃ f ∈ files, age' f ≤ limit.toNat ∧ f.generation = h} :=
    Set.ext fun h => exists_congr fun f => and_congr_right fun hmem =>
      and_congr_left fun _ => hsame f hmem
  rcases hkeeps with hleast | ⟨hold, heq⟩
  · exact .inl (hrecent ▸ hleast)
  · exact .inr ⟨fun f hmem hwithin => hold f hmem ((hsame f hmem).mpr hwithin), heq⟩

lemma Proposes.congr_age {r : Retention} {age age' : LogFile → Int} {g : UInt64}
    (hsame : ∀ limit ∈ r.age, ∀ f ∈ files, age f ≤ limit.toNat ↔ age' f ≤ limit.toNat)
    (hproposes : r.Proposes age files head g) : r.Proposes age' files head g := by
  cases hproposes with
  | size henabled hkeeps => exact .size henabled hkeeps
  | age henabled hkeeps => exact .age henabled (hkeeps.congr_age (hsame _ henabled))
  | number hkeeps => exact .number hkeeps
  | nothing hsizeless hageless => exact .nothing hsizeless hageless

lemma KeepsAge.unique {limit : UInt64} {age : LogFile → Int} {g h : UInt64}
    (hkeeps : KeepsAge limit age files head g) (hkeeps' : KeepsAge limit age files head h) :
    g = h := by
  rcases hkeeps with ⟨⟨f, hmem, hwithin, heq⟩, hleast⟩ | ⟨hold, heq⟩
  · rcases hkeeps' with ⟨hrecent, hleast'⟩ | ⟨hold, -⟩
    · exact UInt64.le_antisymm (hleast hrecent) (hleast' ⟨f, hmem, hwithin, heq⟩)
    · exact absurd hwithin (hold f hmem)
  · rcases hkeeps' with ⟨⟨f, hmem, hwithin, -⟩, -⟩ | ⟨-, heq'⟩
    · exact absurd hwithin (hold f hmem)
    · exact heq.trans heq'.symm

/-! ### Number of files -/

lemma rtake_keptFiles (limit : UInt64) (files : List LogFile) :
    files.rtake (keptFiles limit files) = files.rtake (limit.toNat - 1) := by
  unfold List.rtake keptFiles
  congr 1
  omega

/-- Of files in order, those from the oldest of some newer ones on are these. -/
lemma filter_oldest {gone rest : List LogFile} (hordered : LogFile.Ordered (gone ++ rest) head) :
    (gone ++ rest).filter (fun f => decide (oldest rest head ≤ f.generation)) = rest := by
  have hnone : gone.filter (fun f => decide (oldest rest head ≤ f.generation)) = [] :=
    List.filter_eq_nil_iff.mpr fun f hmem => by simpa using lt_oldest hordered f hmem
  rw [List.filter_append, hnone, List.nil_append]
  exact List.filter_eq_self.mpr fun f hmem =>
    decide_eq_true ((oldest_le hordered.newer).2 f hmem)

lemma keepsNumber_byFiles (hordered : LogFile.Ordered files head) (limit : UInt64) :
    KeepsNumber limit files head (byFiles limit files head) := by
  have hnewest : byFiles limit files head = oldest (files.rtake (keptFiles limit files)) head := by
    rw [rtake_keptFiles, oldest, head?_rtake, byFiles]
    cases (files.reverse.take (limit.toNat - 1)).getLast? <;> rfl
  have hparts : files.take (files.length - keptFiles limit files) ++
      files.rtake (keptFiles limit files) = files := List.take_append_drop ..
  rw [← hparts] at hordered
  have hkept := filter_oldest hordered
  rw [hparts] at hkept
  exact ⟨hnewest, hnewest ▸ (oldest_le hordered.newer).1, by simpa only [hnewest] using hkept⟩

/-! ### The criteria together -/

lemma larger_le_iff {g a b : UInt64} : larger a b ≤ g ↔ a ≤ g ∧ b ≤ g := by
  unfold larger
  split <;> grind

lemma larger_eq_or (a b : UInt64) : larger a b = a ∨ larger a b = b := by
  unfold larger
  split
  · exact .inr rfl
  · exact .inl rfl

lemma smaller_eq_or (a b : UInt64) : smaller a b = a ∨ smaller a b = b := by
  unfold smaller
  split
  · exact .inr rfl
  · exact .inl rfl

/-- What bounds the proposal from above is what bounds each enabled criterion. -/
lemma proposal_le_iff {r : Retention} {now : Int64} {g : UInt64} :
    r.proposal now files head ≤ g ↔
      (∀ limit ∈ r.size, bySize limit files head ≤ g) ∧
        (∀ limit ∈ r.age, byAge limit now files head ≤ g) ∧
        (r.size = none → r.age = none → unlimited ≤ g) ∧ byFiles r.files files head ≤ g := by
  obtain ⟨size, age, number⟩ := r
  cases size <;> cases age <;> simp [proposal, larger_le_iff, and_assoc]

/-- The proposal is what one of the enabled criteria asks for. -/
lemma proposal_eq_or (r : Retention) (now : Int64) (files : List LogFile) (head : LogHead) :
    (∃ limit ∈ r.size, r.proposal now files head = bySize limit files head) ∨
      (∃ limit ∈ r.age, r.proposal now files head = byAge limit now files head) ∨
      (r.size = none ∧ r.age = none ∧ r.proposal now files head = unlimited) ∨
      r.proposal now files head = byFiles r.files files head := by
  obtain ⟨size, age, number⟩ := r
  rcases larger_eq_or _ (byFiles number files head) with hboth | hlast
  swap
  · exact .inr (.inr (.inr hlast))
  cases size with
  | none =>
    cases age with
    | none => exact .inr (.inr (.inl ⟨rfl, rfl, hboth⟩))
    | some age => exact .inr (.inl ⟨age, rfl, hboth.trans (zero_larger _)⟩)
  | some size =>
    cases age with
    | none => exact .inl ⟨size, rfl, hboth.trans (larger_zero _)⟩
    | some age =>
      rcases larger_eq_or (bySize size files head) (byAge age now files head) with hone | hother
      · exact .inl ⟨size, rfl, hboth.trans hone⟩
      · exact .inr (.inl ⟨age, rfl, hboth.trans hother⟩)

/-- The proposal is the highest generation that the limits ask for. -/
lemma isGreatest_proposal (hordered : LogFile.Ordered files head) (r : Retention) (now : Int64) :
    IsGreatest {g | r.Proposes (cappedAge now) files head g} (r.proposal now files head) := by
  have hsized : ∀ limit, KeepsSize limit files head (bySize limit files head) :=
    fun limit => keepsSize_bySize limit files head
  have haged : ∀ limit, KeepsAge limit (cappedAge now) files head (byAge limit now files head) :=
    fun limit => keepsAge_byAge hordered limit now
  have hcounted := keepsNumber_byFiles hordered r.files
  constructor
  · rcases proposal_eq_or r now files head with
      ⟨limit, henabled, hsame⟩ | ⟨limit, henabled, hsame⟩ | ⟨hsizeless, hageless, hsame⟩ | hsame
    · exact hsame ▸ .size henabled (hsized limit)
    · exact hsame ▸ .age henabled (haged limit)
    · exact hsame ▸ .nothing hsizeless hageless
    · exact hsame ▸ .number hcounted
  · rintro g hproposes
    obtain ⟨hsize, hage, hnothing, hnumber⟩ :=
      proposal_le_iff.mp (UInt64.le_refl (r.proposal now files head))
    cases hproposes with
    | @size limit _ henabled hkeeps => exact hkeeps.unique (hsized limit) ▸ hsize limit henabled
    | @age limit _ henabled hkeeps => exact hkeeps.unique (haged limit) ▸ hage limit henabled
    | number hkeeps => exact hkeeps.oldest.trans hcounted.oldest.symm ▸ hnumber
    | nothing hsizeless hageless => exact hnothing hsizeless hageless

/-! ### Higher limits -/

/-- The same criteria are enabled, each with a limit that is at least as high. -/
structure Raised (r r' : Retention) : Prop where
  size : Option.Rel (· ≤ ·) r.size r'.size
  age : Option.Rel (· ≤ ·) r.age r'.age
  files : r.files ≤ r'.files

lemma oldest_rtake_anti (hordered : LogFile.Ordered files head) {k l : Nat} (hle : k ≤ l) :
    oldest (files.rtake l) head ≤ oldest (files.rtake k) head := by
  have hlonger : files.rtake k =
      (files.rtake l).drop ((files.length - k) - (files.length - l)) := by
    unfold List.rtake
    rw [List.drop_drop]
    congr 1
    omega
  have hordered' : LogFile.Ordered (files.rtake l) head := by
    rw [← List.take_append_drop (files.length - l) files] at hordered
    exact hordered.newer
  rw [hlonger]
  obtain ⟨hhead, hnewer⟩ := oldest_le hordered'
  rw [oldest.eq_def ((files.rtake l).drop _)]
  cases hfirst : ((files.rtake l).drop (files.length - k - (files.length - l))).head? with
  | none => exact hhead
  | some f => exact hnewer f (List.mem_of_mem_drop (List.mem_of_head? hfirst))

lemma bySize_anti (hordered : LogFile.Ordered files head) {limit higher : UInt64}
    (hle : limit ≤ higher) : bySize higher files head ≤ bySize limit files head := by
  obtain ⟨k, hleast, hstop⟩ := keepsSize_bySize limit files head
  obtain ⟨l, ⟨hreached, -⟩, hstop'⟩ := keepsSize_bySize higher files head
  rw [hstop, hstop']
  rw [UInt64.le_iff_toNat_le] at hle
  exact oldest_rtake_anti hordered (hleast.2 (hreached.imp_left hle.trans))

lemma KeepsAge.le_head (hordered : LogFile.Ordered files head) {limit : UInt64}
    {age : LogFile → Int} {g : UInt64} (hkeeps : KeepsAge limit age files head g) :
    g ≤ head.generation := by
  rcases hkeeps with ⟨⟨f, hmem, -, rfl⟩, -⟩ | ⟨-, rfl⟩
  · exact UInt64.le_of_lt (hordered.below f hmem)
  · exact UInt64.le_refl _

lemma byAge_anti (hordered : LogFile.Ordered files head) {limit higher : UInt64}
    (hle : limit ≤ higher) (now : Int64) :
    byAge higher now files head ≤ byAge limit now files head := by
  rw [UInt64.le_iff_toNat_le] at hle
  have hkeeps := keepsAge_byAge hordered higher now
  rcases keepsAge_byAge hordered limit now with ⟨⟨f, hmem, hwithin, heq⟩, -⟩ | ⟨-, hnone⟩
  · rcases hkeeps with ⟨-, hleast⟩ | ⟨hold, -⟩
    · exact hleast ⟨f, hmem, by omega, heq⟩
    · exact absurd (by omega) (hold f hmem)
  · rw [hnone]
    exact hkeeps.le_head hordered

lemma byFiles_anti (hordered : LogFile.Ordered files head) {limit higher : UInt64}
    (hle : limit ≤ higher) : byFiles higher files head ≤ byFiles limit files head := by
  rw [UInt64.le_iff_toNat_le] at hle
  rw [(keepsNumber_byFiles hordered higher).oldest, (keepsNumber_byFiles hordered limit).oldest]
  exact oldest_rtake_anti hordered (by unfold keptFiles; omega)

lemma proposal_anti (hordered : LogFile.Ordered files head) {r r' : Retention}
    (hraised : r.Raised r') (now : Int64) :
    r'.proposal now files head ≤ r.proposal now files head := by
  obtain ⟨hsize, hage, hnothing, hnumber⟩ :=
    proposal_le_iff.mp (UInt64.le_refl (r.proposal now files head))
  obtain ⟨size, age, number⟩ := r
  obtain ⟨size', age', number'⟩ := r'
  obtain ⟨hsizes, hages, hnumbers⟩ := hraised
  refine proposal_le_iff.mpr ⟨fun higher henabled => ?_, fun higher henabled => ?_,
    fun hsizeless hageless => ?_, ?_⟩
  · cases hsizes with
    | none => contradiction
    | @some limit _ hle =>
      obtain rfl := Option.some.inj henabled
      exact UInt64.le_trans (bySize_anti hordered hle) (hsize limit rfl)
  · cases hages with
    | none => contradiction
    | @some limit _ hle =>
      obtain rfl := Option.some.inj henabled
      exact UInt64.le_trans (byAge_anti hordered hle now) (hage limit rfl)
  · cases hsizes with
    | some => contradiction
    | none =>
      cases hages with
      | some => contradiction
      | none => exact hnothing rfl rfl
  · exact UInt64.le_trans (byFiles_anti hordered hnumbers) hnumber

end Retention

/-! ### The answer of a policy -/

namespace RetentionPolicy

variable {p : RetentionPolicy} {now : Int64} {files : List LogFile} {head : LogHead}

/-- The lowest generation with a lock, or the highest number of all without a lock. -/
def LowestLock (p : RetentionPolicy) (g : UInt64) : Prop :=
  IsLeast {h | 0 < p.locks.count h} g ∨ (∀ h, p.locks.count h = 0) ∧ g = Retention.unlimited

/-- What a policy has to answer, given how old each file is: the least of the generation of the
head, the lowest locked one, the one that recovery needs, and the highest one that the limits ask
for. -/
def Answers (p : RetentionPolicy) (age : LogFile → Int) (files : List LogFile) (head : LogHead)
    (g : UInt64) : Prop :=
  ∃ asked lowest, IsGreatest {a | p.retention.Proposes age files head a} asked ∧
    p.LowestLock lowest ∧ IsLeast {head.generation, lowest, p.recovery, asked} g

lemma lowestLock_locked (p : RetentionPolicy) : p.LowestLock p.locked := by
  have hlowest := p.locks.lowest?_spec
  unfold locked
  cases hfound : p.locks.lowest? with
  | none =>
    rw [hfound] at hlowest
    exact .inr ⟨hlowest, rfl⟩
  | some g =>
    rw [hfound] at hlowest
    exact .inl hlowest

lemma LowestLock.unique {g h : UInt64} (hlowest : p.LowestLock g) (hlowest' : p.LowestLock h) :
    g = h := by
  rcases hlowest with ⟨hlocked, hleast⟩ | ⟨hfree, rfl⟩
  · rcases hlowest' with ⟨hlocked', hleast'⟩ | ⟨hfree, -⟩
    · exact UInt64.le_antisymm (hleast hlocked') (hleast' hlocked)
    · exact absurd (hfree g) (Nat.ne_of_gt hlocked)
  · rcases hlowest' with ⟨hlocked', -⟩ | ⟨-, rfl⟩
    · exact absurd (hfree h) (Nat.ne_of_gt hlocked')
    · rfl

lemma Answers.unique {age : LogFile → Int} {g h : UInt64} (hanswers : p.Answers age files head g)
    (hanswers' : p.Answers age files head h) : g = h := by
  obtain ⟨asked, lowest, hgreatest, hlocks, hleast⟩ := hanswers
  obtain ⟨asked', lowest', hgreatest', hlocks', hleast'⟩ := hanswers'
  obtain rfl : asked = asked' :=
    UInt64.le_antisymm (hgreatest'.2 hgreatest.1) (hgreatest.2 hgreatest'.1)
  obtain rfl := hlocks.unique hlocks'
  exact UInt64.le_antisymm (hleast.2 hleast'.1) (hleast'.2 hleast.1)

lemma required_eq_or (p : RetentionPolicy) (now : Int64) (files : List LogFile) (head : LogHead) :
    p.required now files head = head.generation ∨ p.required now files head = p.locked ∨
      p.required now files head = p.recovery ∨
      p.required now files head = p.retention.proposal now files head := by
  unfold required
  rcases Retention.smaller_eq_or _ head.generation with hneeded | hsame
  swap
  · exact .inl hsame
  rcases Retention.smaller_eq_or _ p.recovery with hpinned | hsame
  swap
  · exact .inr (.inr (.inl (hneeded.trans hsame)))
  rcases Retention.smaller_eq_or (p.retention.proposal now files head) p.locked with hasked | hsame
  · exact .inr (.inr (.inr ((hneeded.trans hpinned).trans hasked)))
  · exact .inr (.inl ((hneeded.trans hpinned).trans hsame))

lemma answers_required (hordered : LogFile.Ordered files head) (p : RetentionPolicy)
    (now : Int64) : p.Answers (Retention.cappedAge now) files head (p.required now files head) := by
  refine ⟨_, _, Retention.isGreatest_proposal hordered p.retention now, p.lowestLock_locked,
    p.required_eq_or now files head, ?_⟩
  obtain ⟨hproposal, hlocked, hrecovery, hhead⟩ :=
    le_required_iff.mp (UInt64.le_refl (p.required now files head))
  rintro g (rfl | rfl | rfl | rfl)
  · exact hhead
  · exact hlocked
  · exact hrecovery
  · exact hproposal

lemma required_anti (hordered : LogFile.Ordered files head) {r : Retention}
    (hraised : p.retention.Raised r) (now : Int64) :
    ({ p with retention := r } : RetentionPolicy).required now files head ≤
      p.required now files head := by
  have hlower := Retention.proposal_anti hordered hraised now
  obtain ⟨hproposal, hlocked, hrecovery, hhead⟩ := le_required_iff.mp (UInt64.le_refl
    (({ p with retention := r } : RetentionPolicy).required now files head))
  exact le_required_iff.mpr ⟨UInt64.le_trans hproposal hlower, hlocked, hrecovery, hhead⟩

/-- Of the ages only those count that an enabled limit tells apart. -/
lemma Answers.congr_age {age age' : LogFile → Int} {g : UInt64}
    (hsame : ∀ limit ∈ p.retention.age, ∀ f ∈ files, age f ≤ limit.toNat ↔ age' f ≤ limit.toNat)
    (hanswers : p.Answers age files head g) : p.Answers age' files head g := by
  obtain ⟨asked, lowest, hgreatest, hrest⟩ := hanswers
  have hproposes : {a | p.retention.Proposes age files head a} =
      {a | p.retention.Proposes age' files head a} :=
    Set.ext fun a => ⟨.congr_age hsame, .congr_age fun limit henabled f hmem =>
      (hsame limit henabled f hmem).symm⟩
  exact ⟨asked, lowest, hproposes ▸ hgreatest, hrest⟩

/-- For closed files in order, a policy answers the least of head, lowest lock, need of recovery and
highest proposal, where sizes are added up exactly and ages count up to the largest timestamp; a
lower limit on the age is compared with the exact ages. With higher limits a policy never answers
more. -/
theorem answers_iff_required (p : RetentionPolicy) (now : Int64)
    (hordered : LogFile.Ordered files head) :
    (∀ g, p.Answers (Retention.cappedAge now) files head g ↔ g = p.required now files head) ∧
      ((∀ limit ∈ p.retention.age, limit.toNat < 0x7FFFFFFFFFFFFFFF) →
        p.Answers (Retention.exactAge now) files head (p.required now files head)) ∧
      ∀ r, p.retention.Raised r →
        ({ p with retention := r } : RetentionPolicy).required now files head ≤
          p.required now files head := by
  have hanswers := answers_required hordered p now
  refine ⟨fun g => ⟨fun halso => halso.unique hanswers, fun hsame => hsame ▸ hanswers⟩,
    fun hlow => ?_, fun r hraised => required_anti hordered hraised now⟩
  refine hanswers.congr_age fun limit henabled f _ => ?_
  have hbelow := hlow limit henabled
  rw [Retention.cappedAge_le_iff]
  omega

/-- The size asks for 5, the age for 3 and the number of files for 2. The highest counts, but
recovery needs 4. -/
theorem answers_iff_required_recovery :
    let p : RetentionPolicy :=
      { retention := ⟨some 130, some 60, 5⟩, locks := Locks.empty.acquire 7, recovery := 4 }
    let files : List LogFile :=
      [⟨1, 0xFFFFFFFFFFFFFFFF, 10⟩, ⟨2, 100, 30⟩, ⟨3, 100, 40⟩, ⟨5, 100, 120⟩, ⟨8, 40, 90⟩]
    let head : LogHead := ⟨9, 10⟩
    LogFile.Ordered files head ∧ p.required 100 files head = 4 ∧
      (∀ limit ∈ p.retention.age, limit.toNat < 0x7FFFFFFFFFFFFFFF) ∧
      p.retention.Raised ⟨some 0xFFFFFFFFFFFFFFFF, some 90, 9⟩ ∧
    (∀ g, p.Answers (Retention.cappedAge 100) files head g ↔ g = p.required 100 files head) ∧
      ((∀ limit ∈ p.retention.age, limit.toNat < 0x7FFFFFFFFFFFFFFF) →
        p.Answers (Retention.exactAge 100) files head (p.required 100 files head)) ∧
      ∀ r, p.retention.Raised r →
        ({ p with retention := r } : RetentionPolicy).required 100 files head ≤
          p.required 100 files head := by
  intro p files head
  have hordered : LogFile.Ordered files head := ⟨by decide, by decide⟩
  have hlow : ∀ limit ∈ p.retention.age, limit.toNat < 0x7FFFFFFFFFFFFFFF := by
    intro limit henabled
    obtain rfl := Option.some.inj henabled
    decide
  exact ⟨hordered, by decide, hlow, ⟨.some (by decide), .some (by decide), by decide⟩,
    answers_iff_required p 100 hordered⟩

/-- A file that is one millisecond older than the limit is kept: its age of 2 ^ 63 milliseconds
counts as the largest timestamp, and so does the limit. -/
theorem answers_overdue :
    let p : RetentionPolicy := { retention := ⟨none, some 0x7FFFFFFFFFFFFFFF, 100⟩ }
    let files : List LogFile := [⟨1, 0, Int64.minValue⟩]
    let head : LogHead := ⟨2, 0⟩
    LogFile.Ordered files head ∧ p.Answers (Retention.exactAge 0) files head 2 ∧
      p.required 0 files head = 1 ∧
      ¬ p.Answers (Retention.exactAge 0) files head (p.required 0 files head) := by
  intro p files head
  have hordered : LogFile.Ordered files head := ⟨by decide, by decide⟩
  have hold : ∀ f ∈ files, ¬ Retention.exactAge 0 f ≤ (0x7FFFFFFFFFFFFFFF : UInt64).toNat := by
    decide
  have haged : Retention.KeepsAge 0x7FFFFFFFFFFFFFFF (Retention.exactAge 0) files head 2 :=
    .inr ⟨hold, rfl⟩
  have hgreatest : IsGreatest {a | p.retention.Proposes (Retention.exactAge 0) files head a} 2 := by
    refine ⟨.age rfl haged, fun g hproposes => ?_⟩
    cases hproposes with
    | size henabled => contradiction
    | age henabled hkeeps =>
      obtain rfl := Option.some.inj henabled
      exact UInt64.le_of_eq (hkeeps.unique haged)
    | number hkeeps => exact hkeeps.head
    | nothing _ hageless => contradiction
  have hanswers : p.Answers (Retention.exactAge 0) files head 2 := by
    refine ⟨2, Retention.unlimited, hgreatest, .inr ⟨fun _ => rfl, rfl⟩, .inl rfl, ?_⟩
    rintro g (rfl | rfl | rfl | rfl) <;> decide
  have hkept : p.required 0 files head = 1 := by decide
  refine ⟨hordered, hanswers, hkept, fun halso => ?_⟩
  exact absurd (hanswers.unique halso) (by rw [hkept]; decide)

end RetentionPolicy

end SeriesStore
