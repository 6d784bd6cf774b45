import SeriesStore.Proofs.Compaction.Convergence
import SeriesStore.Proofs.Compaction.RollBack

/-!
# Merges that stall

Indexes are merged in place one by one, in their order. When it is the turn of one of which a record
cannot be read, the cycle reports this and nothing has changed, so that the next cycle plans the
same index again. The indexes in front of it have been merged, and those behind it never are.
-/

namespace SeriesStore

open Index SeriesStore.Path SeriesStore.Tree

/-! ### Turns -/

namespace Index

lemma pairwise_of_on_load {dir : Path} {d d' : Disk} {ixs : List Index}
    (h : (load dir).on d = (.ok ixs, d')) : ixs.Pairwise Listed := by
  rw [load, DiskM.on_bind_ok (DiskM.on_get d)] at h
  split_ifs at h
  · obtain ⟨names, d₁, -, h⟩ := DiskM.on_bind_eq_ok h
    obtain ⟨found, d₂, -, h⟩ := DiskM.on_bind_eq_ok h
    cases h
    exact pairwise_sorted _
  · cases h
    exact .nil

end Index

namespace ForceMerge

variable {s : ForceMerge} {d d' : Disk} {ix new : Index} {ixs ixs' more : List Index}

/-- The indexes with too many segments that end before the cutoff. -/
def eligible (s : ForceMerge) (ixs : List Index) : List Index :=
  match s.cutoff? ixs with
  | none => []
  | some cutoff => ixs.filter (s.isEligible cutoff)

/-- The number of segments that a merge makes one of. -/
def surplus (s : ForceMerge) (ix : Index) : ℕ := ix.segments.length - s.target.toNat + 1

/-- Whether all records can be read that a merge writes again. -/
def canRead (s : ForceMerge) (d : Disk) (ix : Index) : Bool :=
  ((entriesOf (ix.segments.take (s.surplus ix))).on d).1.isOk

/-- The indexes whose turn it is in some number of cycles: the first eligible ones, as long as they
can be read. -/
def inTurn (s : ForceMerge) (d : Disk) (ixs : List Index) (n : ℕ) : List Index :=
  ((s.eligible ixs).takeWhile (s.canRead d)).take n

lemma earliest?_of_pairwise (h : ixs.Pairwise Listed) : earliest? ixs = ixs.head? := by
  cases ixs with
  | nil => rfl
  | cons ix rest =>
    rw [earliest?]
    cases hrest : earliest? rest with
    | none => rfl
    | some other => exact if_pos (List.rel_of_pairwise_cons h (mem_of_earliest? hrest))

/-- In a sorted list the first eligible index is planned. -/
lemma plan_eq_head? (h : ixs.Pairwise Listed) : s.plan ixs = (s.eligible ixs).head?.toList := by
  rw [plan, eligible]
  cases s.cutoff? ixs with
  | none => rfl
  | some cutoff => exact congrArg Option.toList (earliest?_of_pairwise (h.filter _))

lemma eligible_sublist (s : ForceMerge) (ixs : List Index) : (s.eligible ixs).Sublist ixs := by
  rw [eligible]
  split
  · exact List.nil_sublist _
  · exact List.filter_sublist

lemma target_lt_of_mem_eligible (h : ix ∈ s.eligible ixs) :
    s.target.toNat < ix.segments.length := by
  rw [eligible] at h
  split at h
  · cases h
  · have heligible := (List.mem_filter.mp h).2
    simp only [isEligible, Bool.and_eq_true, decide_eq_true_eq] at heligible
    exact heligible.2

/-- A merge of the surplus leaves as many segments as it should. -/
lemma length_replaced (hmore : s.target.toNat < ix.segments.length) (t : Segment) :
    (ix.replaced (s.surplus ix) t).segments.length = s.target.toNat := by
  have hpos := toNat_target_pos s.bounds.1
  simp only [replaced, List.length_cons, List.length_drop, surplus]
  omega

lemma latest?_map {f : Index → Index} (hf : ∀ ix ∈ ixs, (f ix).range = ix.range) :
    latest? (ixs.map f) = latest? ixs := by
  induction ixs with
  | nil => rfl
  | cons ix rest ih =>
    rw [List.map_cons, latest?, latest?, ih fun a ha => hf a (List.mem_cons_of_mem _ ha),
      hf ix List.mem_cons_self]

lemma cutoff?_map {f : Index → Index} (hf : ∀ ix ∈ ixs, (f ix).range = ix.range) :
    s.cutoff? (ixs.map f) = s.cutoff? ixs := by rw [cutoff?, cutoff?, latest?_map hf]

lemma eligible_eq_filter {cutoff : Int64} (h : s.cutoff? ixs = some cutoff) :
    s.eligible ixs = ixs.filter (s.isEligible cutoff) := by rw [eligible, h]

lemma ne_dir_of_mem_eligible (hnodup : (ixs.map (·.dir)).Nodup) (h : s.eligible ixs = ix :: more) :
    ∀ a ∈ more, a.dir ≠ ix.dir := by
  have hturn : ((ix :: more).map (·.dir)).Nodup :=
    hnodup.sublist ((h ▸ s.eligible_sublist ixs).map _)
  exact fun a ha hdir => (List.nodup_cons.mp hturn).1 (List.mem_map.mpr ⟨a, ha, hdir⟩)

/-- With the first eligible index merged, the others are left. -/
lemma eligible_substitute (hnodup : (ixs.map (·.dir)).Nodup) (h : s.eligible ixs = ix :: more)
    (hdir : new.dir = ix.dir) (hrange : new.range = ix.range)
    (hfew : new.segments.length ≤ s.target.toNat) :
    s.eligible (ixs.map (substitute new)) = more := by
  have hmore := ne_dir_of_mem_eligible hnodup h
  have hix : ix ∈ ixs := (s.eligible_sublist ixs).subset (h ▸ List.mem_cons_self)
  have hranges : ∀ a ∈ ixs, (substitute new a).range = a.range := by
    intro a ha
    by_cases hnew : a.dir = new.dir
    · rw [substitute_of_eq hnew, hrange,
        List.inj_on_of_nodup_map hnodup ha hix (hnew.trans hdir)]
    · rw [substitute_of_ne hnew]
  cases hcutoff : s.cutoff? ixs with
  | none =>
    rw [eligible, hcutoff] at h
    cases h
  | some cutoff =>
    -- the cutoff is the same, so that only the merged index is no longer eligible
    have hothers : ∀ a ∈ ixs, (s.isEligible cutoff ∘ substitute new) a
        = (decide (a.dir ≠ ix.dir) && s.isEligible cutoff a) := by
      intro a ha
      by_cases hnew : a.dir = ix.dir
      · simp [substitute_of_eq (hnew.trans hdir.symm), hnew, isEligible, Nat.not_lt.mpr hfew]
      · simp [substitute_of_ne (hdir ▸ hnew), hnew]
    have hstay : ∀ a ∈ more, substitute new a = a := fun a ha =>
      substitute_of_ne (hdir ▸ hmore a ha)
    rw [eligible_eq_filter hcutoff] at h
    rw [eligible_eq_filter ((cutoff?_map hranges).trans hcutoff), List.filter_map,
      List.filter_congr hothers, ← List.filter_filter, h, List.filter_cons_of_neg (by simp),
      List.filter_eq_self.mpr (by simpa using hmore), List.map_congr_left hstay, List.map_id']

lemma canRead_congr (h : ∀ t ∈ ix.segments, d'.read t.path = d.read t.path) :
    s.canRead d' ix = s.canRead d ix := by
  obtain ⟨r, hr, hr'⟩ := agrees_entriesOf fun t ht => h t (List.mem_of_mem_take ht)
  rw [canRead, canRead, hr, hr']

lemma exists_of_canRead (h : s.canRead d ix = true) :
    ∃ es, (entriesOf (ix.segments.take (s.surplus ix))).on d = (.ok es, d) := by
  have hstay := snd_on_entriesOf (ix.segments.take (s.surplus ix)) d
  rw [canRead] at h
  rcases hr : (entriesOf (ix.segments.take (s.surplus ix))).on d with ⟨e | es, d₁⟩ <;>
    rw [hr] at h hstay
  · cases h
  · exact ⟨es, Prod.ext rfl hstay⟩

lemma exists_of_not_canRead (h : s.canRead d ix = false) :
    ∃ err, (entriesOf (ix.segments.take (s.surplus ix))).on d = (.error err, d) := by
  have hstay := snd_on_entriesOf (ix.segments.take (s.surplus ix)) d
  rw [canRead] at h
  rcases hr : (entriesOf (ix.segments.take (s.surplus ix))).on d with ⟨e | es, d₁⟩ <;>
    rw [hr] at h hstay
  · exact ⟨e, Prod.ext rfl hstay⟩
  · cases h

lemma inTurn_subset (s : ForceMerge) (d : Disk) (ixs : List Index) (n : ℕ) :
    s.inTurn d ixs n ⊆ s.eligible ixs :=
  ((List.take_sublist n _).trans (List.takeWhile_sublist _)).subset

/-- After the turn of the first eligible index it is the turn of the others. -/
lemma inTurn_cons (hhead : s.eligible ixs = ix :: more) (hread : s.canRead d ix = true)
    (hleft : s.eligible ixs' = more) (hsame : ∀ a ∈ more, s.canRead d' a = s.canRead d a) (n : ℕ) :
    s.inTurn d ixs (n + 1) = ix :: s.inTurn d' ixs' n := by
  rw [inTurn, inTurn, hhead, hleft, List.takeWhile_cons_of_pos hread, List.take_succ_cons]
  congr 2
  clear hhead hleft
  induction more with
  | nil => rfl
  | cons a more ih =>
    rw [List.takeWhile_cons, List.takeWhile_cons, hsame a List.mem_cons_self,
      ih fun b hb => hsame b (List.mem_cons_of_mem _ hb)]

lemma nodup_eligible (s : ForceMerge) (hnodup : (ixs.map (·.dir)).Nodup) :
    (s.eligible ixs).Nodup :=
  (List.Nodup.of_map _ hnodup).sublist (s.eligible_sublist ixs)

/-- The eligible indexes are those whose turn it was, and those that are left. -/
lemma eligible_eq_append {n : ℕ}
    (hleft : (s.eligible ixs).drop (s.inTurn d ixs n).length = ix :: more) :
    s.eligible ixs = s.inTurn d ixs n ++ ix :: more := by
  obtain ⟨rest, hrest⟩ : s.inTurn d ixs n <+: s.eligible ixs :=
    (List.take_prefix n _).trans (List.takeWhile_prefix _)
  rw [← hrest, List.drop_left] at hleft
  rw [← hrest, hleft]

/-- After enough turns, an index in front that has had none cannot be read. -/
lemma not_canRead_of_left {n : ℕ} (hn : ixs.length ≤ n)
    (hleft : s.eligible ixs = s.inTurn d ixs n ++ ix :: more) : s.canRead d ix = false := by
  have hall : s.inTurn d ixs n = (s.eligible ixs).takeWhile (s.canRead d) :=
    List.take_of_length_le (((List.takeWhile_sublist _).length_le.trans
      (s.eligible_sublist ixs).length_le).trans hn)
  have hsplit : (s.eligible ixs).takeWhile (s.canRead d) ++ (s.eligible ixs).dropWhile (s.canRead d)
      = (s.eligible ixs).takeWhile (s.canRead d) ++ ix :: more := by
    rw [List.takeWhile_append_dropWhile, ← hall, ← hleft]
  have hhead := List.head?_dropWhile_not (s.canRead d) (s.eligible ixs)
  rw [List.append_cancel_left hsplit] at hhead
  simpa using hhead

end ForceMerge

namespace Index

variable {d d' : Disk} {ix : Index} {p : Place}

/-- There is room for the files of a merge in the directory of an index, and the merged segment does
not get too large. -/
structure Roomy (d : Disk) (ix : Index) : Prop where
  accepts : ∀ p, d.LeadsTo ix.dir p → ∀ name ∈ newNames ix.nextSegment, d.Accepts ix.dir p name
  few : 28 * ix.chunkCount < 2 ^ 32

/-- A merge takes no more entries than there are. -/
lemma Roomy.few_of_read (h : Roomy d ix) {count : ℕ} {es : List Entry}
    (hread : (entriesOf (ix.segments.take count)).on d = (.ok es, d)) :
    28 * es.length < 2 ^ 32 := by
  have hsplit := congrArg (fun l => (l.map Segment.size).sum)
    (List.take_append_drop count ix.segments)
  simp only [List.map_append, List.sum_append, ← length_of_on_entriesOf hread,
    ← chunkCount_eq_sum] at hsplit
  have hfew := h.few
  omega

/-- Changes of files in any directory leave the room in another. -/
lemma Roomy.of_reached (h : Roomy d ix) (hr : d.Reached p d') : Roomy d' ix where
  accepts q hq name hname := by
    have hleads : d.LeadsTo ix.dir q :=
      hq.of_dirs hr.workDir.symm fun r => (hr.tree.dirs r).mp
    obtain ⟨hroom, hdir⟩ := h.accepts q hleads name hname
    exact ⟨hroom, fun hnode => hdir ((hr.tree.dirs _).mp hnode)⟩
  few := h.few

end Index

namespace Engine

variable {d d₁ d' : Disk} {dir : Path} {s : ForceMerge} {e : Engine} {o : Origin}
  {ix ix' : Index} {ixs ixs' more turn : List Index} {runs : List (Engine × Origin)}

/-- Several cycles, whatever the ones before have come to. -/
def attempts (runs : List (Engine × Origin)) : DiskM Unit :=
  runs.forM fun (e, o) => DiskM.attempt (discard (e.cycle o))

lemma on_attempts_cons (run : Engine × Origin) (runs : List (Engine × Origin)) (d : Disk) :
    (attempts (run :: runs)).on d = (attempts runs).on ((run.1.cycle run.2).on d).2 := by
  rw [attempts, List.forM, DiskM.on_bind_ok (DiskM.on_attempt _ d), DiskM.on_discard, DiskM.on_bind]
  rcases (run.1.cycle run.2).on d with ⟨_ | _, _⟩ <;> rfl

/-! ### Cycles one by one -/

/-- An index has become another in the same directory, which has as many segments as a merge leaves
and the same chunks. -/
structure Merged (s : ForceMerge) (d d' : Disk) (ix ix' : Index) : Prop where
  identity : ix'.dir = ix.dir ∧ ix'.id = ix.id ∧ ix'.range = ix.range
    ∧ ix'.resolution = ix.resolution ∧ ix'.createdAt = ix.createdAt
  segments : ix'.segments.length = s.target.toNat
  chunks : ((Index.chunks ix').on d').1 = ((Index.chunks ix).on d).1

/-- The merged index is not touched later. -/
lemma Merged.later (h : Merged s d d₁ ix ix')
    (hsame : ∀ t ∈ ix'.segments, d'.read t.path = d₁.read t.path) : Merged s d d' ix ix' := by
  obtain ⟨r, hr, hr'⟩ := agrees_chunks hsame
  exact ⟨h.identity, h.segments, by rw [← h.chunks, hr, hr']⟩

/-- The index has not been touched earlier. -/
lemma Merged.earlier (h : Merged s d₁ d' ix ix')
    (hsame : ∀ t ∈ ix.segments, d₁.read t.path = d.read t.path) : Merged s d d' ix ix' := by
  obtain ⟨r, hr, hr'⟩ := agrees_chunks hsame
  exact ⟨h.identity, h.segments, by rw [h.chunks, hr, hr']⟩

/-- A data directory in which all indexes that can be merged have the room for it, on a disk on
which nothing fails. -/
structure Ready (dir : Path) (s : ForceMerge) (d : Disk) (ixs : List Index) : Prop where
  catalogued : ∃ p cs, Catalogued d dir p cs
  calm : d.Calm
  load : (Index.load dir).on d = (.ok ixs, d)
  room : ∀ ix ∈ s.eligible ixs, Roomy d ix

namespace Ready

lemma nodup_dirs (h : Ready dir s d ixs) : (ixs.map (·.dir)).Nodup := by
  obtain ⟨p, cs, hcat⟩ := h.catalogued
  exact hcat.nodup_dirs h.load

lemma on_plan (h : Ready e.dataDir s d ixs) (hs : e.strategy = .forceMerge s) :
    e.plan.on d = (.ok (s.eligible ixs).head?.toList, d) := by
  rw [Engine.plan, Engine.indexes, DiskM.on_bind_ok h.load, hs,
    ← ForceMerge.plan_eq_head? (pairwise_of_on_load h.load)]
  rfl

/-- Without an eligible index a cycle does nothing. -/
lemma cycle_of_nil (h : Ready e.dataDir s d ixs) (hs : e.strategy = .forceMerge s)
    (hnil : s.eligible ixs = []) : ((e.cycle o).on d).2 = d := by
  have hplan := h.on_plan hs
  rw [hnil] at hplan
  obtain ⟨out, hon⟩ := on_cycle_of_plan_nil (o := o) hplan
  rw [hon]

/-- If the first eligible index cannot be read, a cycle reports this and does nothing. -/
lemma cycle_of_unreadable (h : Ready e.dataDir s d ixs) (hs : e.strategy = .forceMerge s)
    (hhead : s.eligible ixs = ix :: more) {err : StorageError}
    (hread : (entriesOf (ix.segments.take (s.surplus ix))).on d = (.error err, d)) :
    (e.cycle o).on d = (.error err, d) := by
  have hplan := h.on_plan hs
  rw [hhead] at hplan
  have hmore := ForceMerge.target_lt_of_mem_eligible (hhead ▸ List.mem_cons_self)
  rw [on_cycle_of_plan_singleton hs hplan, ForceMerge.compact,
    DiskM.on_bind_error (DiskM.on_bind_error (on_forceMerge_of_unreadable s.bounds.1 hmore hread))]

/-- If the first eligible index can be read, a cycle merges it, and leaves the others alone. -/
lemma cycle_of_readable (h : Ready e.dataDir s d ixs) (hs : e.strategy = .forceMerge s)
    (hhead : s.eligible ixs = ix :: more) (hread : s.canRead d ix = true) :
    ∃ ix', Merged s d ((e.cycle o).on d).2 ix ix'
      ∧ Ready e.dataDir s ((e.cycle o).on d).2 (ixs.map (substitute ix'))
      ∧ s.eligible (ixs.map (substitute ix')) = more
      ∧ ∀ a ∈ ixs, a.dir ≠ ix.dir → ∀ t ∈ a.segments,
        ((e.cycle o).on d).2.read t.path = d.read t.path := by
  obtain ⟨p, cs, hcat⟩ := h.catalogued
  have hix : ix ∈ s.eligible ixs := hhead ▸ List.mem_cons_self
  have hmore := ForceMerge.target_lt_of_mem_eligible hix
  obtain ⟨g, hg, hdir, hopen⟩ := hcat.exists_of_mem h.load ((s.eligible_sublist ixs).subset hix)
  have hlisted := hcat.listed g hg
  have hnext := (hlisted.opens_of_on hopen).next
  obtain ⟨es, hes⟩ := ForceMerge.exists_of_canRead hread
  have hroom := h.room ix hix
  obtain ⟨d₁, hmerge, hmerged⟩ := hlisted.exists_on_forceMerge hopen s.bounds.1 hmore rfl hes h.calm
    (hdir ▸ hnext ▸ hroom.accepts _ (hdir ▸ hlisted.leadsTo)) (hroom.few_of_read hes)
  have hcycle : ((e.cycle o).on d).2 = d₁ := by
    have hplan := h.on_plan hs
    rw [hhead] at hplan
    have hcompact := DiskM.on_bind_ok (g := fun merged => pure merged.2) hmerge
    rw [on_cycle_of_plan_singleton hs hplan]
    exact congrArg Prod.snd (DiskM.on_bind_ok hcompact)
  -- what stands in the directory of the index now has too few segments to be planned again
  set new := ix.replaced (s.surplus ix) (.ofEntries (e.dataDir / g.1 / segmentName g.2.next) es)
  have hlength : new.segments.length = s.target.toNat := ForceMerge.length_replaced hmore _
  have hleft : s.eligible (ixs.map (substitute new)) = more :=
    ForceMerge.eligible_substitute h.nodup_dirs hhead rfl rfl (le_of_eq hlength)
  rw [hcycle]
  refine ⟨new, ⟨⟨rfl, rfl, rfl, rfl, rfl⟩, hlength, hmerged.fst_on_chunks hes⟩, ?_, hleft,
    fun a ha hne t ht => hcat.read_of_reached hmerged.reached h.load ha (hdir ▸ hne) ht⟩
  refine ⟨⟨p, _, hcat.beside hmerged.reached hmerged.listed⟩, hmerged.reached.calm_iff.mpr h.calm,
    hcat.on_load_substitute hmerged.reached hg hmerged.listed hopen hmerged.opens rfl h.load,
    fun a ha => ?_⟩
  rw [hleft] at ha
  exact (h.room a (hhead ▸ List.mem_cons_of_mem _ ha)).of_reached hmerged.reached

end Ready

/-! ### Cycles one after the other -/

/-- Some indexes in a data directory have been merged, and the others are as they were. -/
structure TakenInTurn (dir : Path) (s : ForceMerge) (d : Disk) (ixs turn : List Index) (d' : Disk)
    (ixs' : List Index) : Prop where
  load : (Index.load dir).on d' = (.ok ixs', d')
  dirs : ixs'.map (·.dir) = ixs.map (·.dir)
  merged : ∀ ix ∈ turn, ∃ ix' ∈ ixs', Merged s d d' ix ix'
  kept : ∀ ix ∈ ixs, ix ∉ turn → ix ∈ ixs' ∧ ∀ t ∈ ix.segments, d'.read t.path = d.read t.path
  left : s.eligible ixs' = (s.eligible ixs).drop turn.length

lemma TakenInTurn.refl (hload : (Index.load dir).on d = (.ok ixs, d)) :
    TakenInTurn dir s d ixs [] d ixs :=
  ⟨hload, rfl, by simp, fun ix hix _ => ⟨hix, fun _ _ => rfl⟩, rfl⟩

/-- After one index the others take their turns. -/
lemma TakenInTurn.cons (hnodup : (ixs.map (·.dir)).Nodup) (hhead : s.eligible ixs = ix :: more)
    (hmerged : Merged s d d₁ ix ix') (hleft : s.eligible (ixs.map (substitute ix')) = more)
    (hothers : ∀ a ∈ ixs, a.dir ≠ ix.dir → ∀ t ∈ a.segments, d₁.read t.path = d.read t.path)
    (hturn : turn ⊆ more)
    (h : TakenInTurn dir s d₁ (ixs.map (substitute ix')) turn d' ixs') :
    TakenInTurn dir s d ixs (ix :: turn) d' ixs' := by
  have hdir := hmerged.identity.1
  have hmem : ∀ a ∈ ix :: more, a ∈ ixs := fun a ha => (s.eligible_sublist ixs).subset (hhead ▸ ha)
  have hne := ForceMerge.ne_dir_of_mem_eligible hnodup hhead
  refine ⟨h.load, by simp [h.dirs, Function.comp_def], ?_, ?_, ?_⟩
  · refine List.forall_mem_cons.mpr ⟨?_, fun a ha => ?_⟩
    · -- the merged index has no second turn
      have hnew : ix' ∈ ixs.map (substitute ix') :=
        List.mem_map.mpr ⟨ix, hmem ix List.mem_cons_self, substitute_of_eq hdir.symm⟩
      obtain ⟨hix', hsame⟩ := h.kept ix' hnew fun hin => hne ix' (hturn hin) hdir
      exact ⟨ix', hix', hmerged.later hsame⟩
    · obtain ⟨a', ha', hmerged'⟩ := h.merged a ha
      exact ⟨a', ha', hmerged'.earlier
        (hothers a (hmem a (List.mem_cons_of_mem _ (hturn ha))) (hne a (hturn ha)))⟩
  · intro a ha hnot
    simp only [List.mem_cons, not_or] at hnot
    have hadir : a.dir ≠ ix.dir := fun heq =>
      hnot.1 (List.inj_on_of_nodup_map hnodup ha (hmem ix List.mem_cons_self) heq)
    have hstay : substitute ix' a = a := substitute_of_ne (hdir ▸ hadir)
    obtain ⟨hin, hsame⟩ := h.kept a (List.mem_map.mpr ⟨a, ha, hstay⟩) hnot.2
    exact ⟨hin, fun t ht => (hsame t ht).trans (hothers a ha hadir t ht)⟩
  · rw [h.left, hleft, hhead, List.length_cons, List.drop_succ_cons]

/-- The eligible indexes are merged one by one, up to the first that cannot be read. -/
lemma Ready.attempts (h : Ready dir s d ixs) (hruns : Under dir (.forceMerge s) runs) :
    ∃ d' ixs', (attempts runs).on d = (.ok (), d') ∧ Ready dir s d' ixs'
      ∧ TakenInTurn dir s d ixs (s.inTurn d ixs runs.length) d' ixs' := by
  induction runs generalizing d ixs with
  | nil => exact ⟨d, ixs, rfl, h, by simpa [ForceMerge.inTurn] using .refl h.load⟩
  | cons run runs ih =>
    obtain ⟨rfl, hs⟩ := hruns run List.mem_cons_self
    rw [on_attempts_cons]
    cases hhead : s.eligible ixs with
    | nil =>
      rw [h.cycle_of_nil hs hhead]
      simpa [ForceMerge.inTurn, hhead] using ih h hruns.of_cons
    | cons ix more =>
      -- a cycle merges the first eligible index, or changes nothing
      by_cases hread : s.canRead d ix = true
      · obtain ⟨ix', hmerged, hready, hleft, hothers⟩ :=
          h.cycle_of_readable (o := run.2) hs hhead hread
        obtain ⟨d', ixs', hon, hready', htaken⟩ := ih hready hruns.of_cons
        have hsame : ∀ a ∈ more, s.canRead ((run.1.cycle run.2).on d).2 a = s.canRead d a := by
          intro a ha
          have hin := (s.eligible_sublist ixs).subset (hhead ▸ List.mem_cons_of_mem _ ha)
          exact ForceMerge.canRead_congr
            (hothers a hin (ForceMerge.ne_dir_of_mem_eligible h.nodup_dirs hhead a ha))
        refine ⟨d', ixs', hon, hready', ?_⟩
        rw [List.length_cons, ForceMerge.inTurn_cons hhead hread hleft hsame]
        exact .cons h.nodup_dirs hhead hmerged hleft hothers
          (hleft ▸ s.inTurn_subset _ _ _) htaken
      · obtain ⟨err, herr⟩ := ForceMerge.exists_of_not_canRead (by simpa using hread)
        rw [h.cycle_of_unreadable hs hhead herr]
        simpa [ForceMerge.inTurn, hhead, hread] using ih h hruns.of_cons

/-- An index that is left in front and cannot be read is what every further cycle reports. -/
lemma TakenInTurn.stalls {n : ℕ} (h : TakenInTurn e.dataDir s d ixs (s.inTurn d ixs n) d' ixs')
    (hready' : Ready e.dataDir s d' ixs') (hnodup : (ixs.map (·.dir)).Nodup)
    (hs : e.strategy = .forceMerge s) (hhead : s.eligible ixs' = ix :: more) {err : StorageError}
    (hread : (entriesOf (ix.segments.take (s.surplus ix))).on d = (.error err, d)) :
    (e.cycle o).on d' = (.error err, d') := by
  have hsplit := ForceMerge.eligible_eq_append (h.left.symm.trans hhead)
  have hnot : ix ∉ s.inTurn d ixs n := fun hmem =>
    (List.nodup_append.mp (hsplit ▸ s.nodup_eligible hnodup)).2.2 ix hmem ix List.mem_cons_self rfl
  have hix : ix ∈ ixs := (s.eligible_sublist ixs).subset (hsplit ▸ by simp)
  have hagrees : (entriesOf (ix.segments.take (s.surplus ix))).Agrees d d' :=
    agrees_entriesOf fun t ht => (h.kept ix hix hnot).2 t (List.mem_of_mem_take ht)
  exact hready'.cycle_of_unreadable hs hhead (hagrees.on_right hread)

/-- However a data directory has been built and merged before, and whatever has become of its
segment files since, cycles that merge in place take the eligible indexes one by one. They get as
far as the segments can be read; these indexes have their chunks in fewer segments, and all others
are as they were. With as many cycles as there are indexes, either all eligible ones have been
merged, or the first that is left cannot be read. Then every further cycle fails with the error of
that one and changes nothing, so that those behind it are never merged. -/
theorem attempts_merge_in_turn {accepted : List Entry} {d_b d₀ : Disk}
    (hbuilt : Built dir d_b accepted) (hsmall : 28 * accepted.length < 2 ^ 32)
    {earlier : List (Engine × Origin)} (hdirs : ∀ run ∈ earlier, run.1.dataDir = dir)
    {outs : List CycleOutcome} (hearlier : (cycles earlier).on d_b = (.ok outs, d₀))
    (hfound : d₀.isDir dir = true) (hworn : d₀.Worn d)
    (hnames : ∀ p, d₀.Finds dir p → (d.tree.names p).Perm (d₀.tree.names p)) (hcalm : d.Calm)
    (hload : (Index.load dir).on d = (.ok ixs, d)) (hroom : ∀ ix ∈ s.eligible ixs, Roomy d ix)
    (hruns : Under dir (.forceMerge s) runs) :
    ∃ d' ixs', (attempts runs).on d = (.ok (), d')
      ∧ TakenInTurn dir s d ixs (s.inTurn d ixs runs.length) d' ixs'
      ∧ ∀ ix more, s.eligible ixs' = ix :: more →
        (ixs.length ≤ runs.length → s.canRead d ix = false)
        ∧ (s.canRead d ix = false →
          ∃ err, (entriesOf (ix.segments.take (s.surplus ix))).on d = (.error err, d)
            ∧ ∀ (e : Engine) (o : Origin), e.dataDir = dir → e.strategy = .forceMerge s →
              (e.cycle o).on d' = (.error err, d')) := by
  obtain ⟨p, cs, hst, hperm⟩ := hbuilt.stocked hsmall
  rw [← hperm.length_eq] at hsmall
  obtain ⟨cs', hst', -⟩ := stocked_of_cycles hst hsmall hdirs hearlier hfound
  have hready : Ready dir s d ixs :=
    ⟨⟨p, cs', hst'.catalogued.worn hworn (hnames p hst'.finds)⟩, hcalm, hload, hroom⟩
  obtain ⟨d', ixs', hon, hready', htaken⟩ := hready.attempts hruns
  refine ⟨d', ixs', hon, htaken, fun ix more hhead => ⟨fun hlen => ?_, fun hunread => ?_⟩⟩
  · exact ForceMerge.not_canRead_of_left hlen
      (ForceMerge.eligible_eq_append (htaken.left.symm.trans hhead))
  · obtain ⟨err, hread⟩ := ForceMerge.exists_of_not_canRead hunread
    refine ⟨err, hread, ?_⟩
    rintro e o rfl hs
    exact htaken.stalls hready' hready.nodup_dirs hs hhead hread

/-! ### A damaged index in front, or behind -/

namespace Damage

open Overlap

def here : Path := ⟨["."]⟩

/-- The contents of an index that has taken the chunk two times. -/
def twice (c : Contents) : Contents :=
  (Command.add [chunk]).result ((Command.add [chunk]).result c)

/-- The newest index, which is empty. -/
def newest : Contents := .empty ⟨3⟩ ⟨100, 110, by decide⟩ .seconds .newYear

lemma bounds_valid : (1 : UInt64) ≠ 0 ∧ (1 : UInt64) ≤ 2 := by decide

/-- Two segments are merged into one. -/
def strategy : ForceMerge := ⟨60000, 2, 1, 0, 0, .seconds, bounds_valid⟩

def engine : Engine where
  dataDir := here
  settings := { name := "", current := {} }
  listeners := { strategies := [.forceMerge strategy], delegates := [some 0] }
  delegate := 0
  policy := 0

/-- Whichever comes first of `x` and `y`, both are made before the newest index. -/
def made (c c' : Contents) : List (String × Contents) :=
  [(directoryName ⟨4⟩, newest), ("y", twice c'), ("x", twice c)]

def threeTimes : List (Engine × Origin) := List.replicate 3 (engine, origin)

lemma under_threeTimes : Under here (.forceMerge strategy) threeTimes := by
  intro run hrun
  rw [List.eq_of_mem_replicate hrun]
  exact ⟨rfl, rfl⟩

variable {c c' : Contents} {cs : List (String × Contents)} {es : List Entry} {name : String}

lemma eq_or_eq (hc : c ∈ [earlier .seconds, later]) : c = earlier .seconds ∨ c = later := by
  simpa using hc

lemma suits_twice (hc : c ∈ [earlier .seconds, later]) : (Command.add [chunk]).Suits c
    ∧ (Command.add [chunk]).Suits ((Command.add [chunk]).result c) := by
  rcases eq_or_eq hc with rfl | rfl
  · exact ⟨fun _ => ⟨by decide, by decide⟩, fun _ => ⟨by decide, by decide⟩⟩
  · exact ⟨fun _ => ⟨by decide, by decide⟩, fun _ => ⟨by decide, by decide⟩⟩

lemma accepts_start : ∀ name ∈ ["x", "y"], ∀ number ∈ [1, 2, 3], ∀ file ∈ newNames number,
    start.Accepts (here / name) ([] ++ [name]) file := by
  have hroom : ∀ name ∈ ["x", "y"],
      (∀ file ∈ newNames 1, (⟨here.way ++ [name]⟩ : Path).hasRoom file = true)
      ∧ (∀ file ∈ newNames 2, (⟨here.way ++ [name]⟩ : Path).hasRoom file = true)
      ∧ ∀ file ∈ newNames 3, (⟨here.way ++ [name]⟩ : Path).hasRoom file = true := by decide
  intro name hname number hnumber file hfile
  refine ⟨?_, by rw [node?_start (by simp)]; simp⟩
  rw [div_eq here (isName_of_mem name (List.mem_append_left [directoryName ⟨4⟩] hname))]
  obtain ⟨h₁, h₂, h₃⟩ := hroom name hname
  simp only [List.mem_cons, List.not_mem_nil, or_false] at hnumber
  rcases hnumber with rfl | rfl | rfl
  · exact h₁ file hfile
  · exact h₂ file hfile
  · exact h₃ file hfile

/-- An index is made, and takes the chunk two times. -/
lemma exists_on_twice (hc : c ∈ [earlier .seconds, later]) (hst : Stocked d here [] cs)
    (hbuilt : Built here d es) (hcalm : d.Calm) (hnew : name ∉ cs.map Prod.fst)
    (hroom : Welcomes d here [] name) (hacc : ∀ number ∈ [1, 2, 3], ∀ file ∈ newNames number,
      d.Accepts (here / name) ([] ++ [name]) file) :
    ∃ d', Built here d' (es ++ [chunk] ++ [chunk]) ∧ d.Beside [] name d'
      ∧ Stocked d' here [] ((name, twice c) :: cs) := by
  obtain ⟨hsuits, hsuits'⟩ := suits_twice hc
  obtain ⟨id, range, rfl⟩ : ∃ id range, c = .empty id range .seconds .newYear := by
    rcases eq_or_eq hc with rfl | rfl <;> exact ⟨_, _, rfl⟩
  have hothers (c : Contents) : ((name, c) :: cs).filter (·.1 ≠ name) = cs := by
    rw [List.filter_cons_of_neg (by simp), filter_ne_of_not_mem hnew]
  have hentries : (Contents.empty id range .seconds .newYear).entries = [] := rfl
  obtain ⟨d₁, hon₁, hb₁, h₁⟩ := hst.exists_on_create hcalm hnew hroom range .seconds id .newYear
  obtain ⟨d₂, hon₂, hb₂, h₂⟩ := h₁.exists_on_run (hb₁.calm hcalm) List.mem_cons_self
    (fun file hfile => hb₁.accepts (hacc 1 (by simp) file hfile)) hsuits
    (by simp [hentries, Command.entries])
  rw [hothers] at h₂
  obtain ⟨d₃, hon₃, hb₃, h₃⟩ := h₂.exists_on_run (hb₂.calm (hb₁.calm hcalm)) List.mem_cons_self
    (fun file hfile => hb₂.accepts (hb₁.accepts (hacc 2 (by simp) file hfile))) hsuits'
    (by simp [hentries, Command.entries_result, Command.entries])
  rw [hothers] at h₃
  refine ⟨d₃, ?_, hb₁.trans (hb₂.trans hb₃), h₃⟩
  exact .run (.add [chunk]) (.run (.add [chunk]) (.create hbuilt hroom.isName hon₁) hroom.isName
    (h₁.held _ List.mem_cons_self).on_open hon₂) hroom.isName
    (h₂.held _ List.mem_cons_self).on_open hon₃

/-- The indexes `x` and `y` are made, and the newest one. -/
lemma exists_built (hc : c ∈ [earlier .seconds, later]) (hc' : c' ∈ [earlier .seconds, later]) :
    ∃ d, Built here d [chunk, chunk, chunk, chunk] ∧ Stocked d here [] (made c c') ∧ d.Calm
      ∧ ∀ name ∈ ["x", "y"], ∀ file ∈ newNames 3,
        d.Accepts (here / name) ([] ++ [name]) file := by
  have hst := fits_dot.stocked
  have hbuilt : Built here start [] := .start hst.finds hst.nodup hst.isName fun name =>
    hst.bare name (by simp)
  have hcalm : start.Calm := fun _ _ => rfl
  have hx := fits_dot.welcomes "x" (by simp)
  have hy := fits_dot.welcomes "y" (by simp)
  have hz := fits_dot.welcomes (directoryName ⟨4⟩) (by simp)
  obtain ⟨d₁, hbuilt₁, hb₁, h₁⟩ := exists_on_twice hc hst hbuilt hcalm (by simp) hx
    (accepts_start "x" (by simp))
  obtain ⟨d₂, hbuilt₂, hb₂, h₂⟩ := exists_on_twice hc' h₁ hbuilt₁ (hb₁.calm hcalm) (by simp)
    (hy.beside hb₁ (by simp)) fun number hnumber file hfile =>
      hb₁.accepts (accepts_start "y" (by simp) number hnumber file hfile)
  have hnew : directoryName (⟨4⟩ : Uid) ∉ ["y", "x"] := by decide
  obtain ⟨d₃, hon₃, hb₃, h₃⟩ := h₂.exists_on_create (hb₂.calm (hb₁.calm hcalm)) hnew
    ((hz.beside hb₁ (by decide)).beside hb₂ (by decide)) ⟨100, 110, by decide⟩ .seconds ⟨3⟩ .newYear
  refine ⟨d₃, .create hbuilt₂ hz.isName hon₃, h₃, hb₃.calm (hb₂.calm (hb₁.calm hcalm)), ?_⟩
  exact fun name hname file hfile =>
    hb₃.accepts (hb₂.accepts (hb₁.accepts (accepts_start name hname 3 (by simp) file hfile)))

/-! The disk on which the first record of `x` is damaged. -/

/-- The indexes in the order of their ranges, under the names of the first two. -/
def inOrder (name other : String) : List Index :=
  [(name, twice (earlier .seconds)), (other, twice later), (directoryName ⟨4⟩, newest)].map
    (named here)

lemma pairwise_inOrder (name other : String) :
    (inOrder name other).Pairwise fun a b => Listed a b ∧ ¬Listed b a := by
  have hranges : [(earlier .seconds).range, later.range, newest.range].Pairwise
      fun a b => a.listedBefore b = true ∧ ¬b.listedBefore a = true := by decide
  exact List.pairwise_map.mp (show ((inOrder name other).map (·.range)).Pairwise _ from hranges)

lemma cutoff_inOrder (name other : String) : strategy.cutoff? (inOrder name other) = some 110 := by
  have hlatest : ForceMerge.latest? (inOrder name other) = some 110 := by
    simp only [inOrder, List.map_cons, List.map_nil, ForceMerge.latest?]
    rfl
  rw [ForceMerge.cutoff?, hlatest]
  decide +kernel

lemma eligible_inOrder (name other : String) : strategy.eligible (inOrder name other)
    = [(name, twice (earlier .seconds)), (other, twice later)].map (named here) := by
  rw [ForceMerge.eligible_eq_filter (cutoff_inOrder name other)]
  have hfirst : strategy.isEligible 110 (named here (name, twice (earlier .seconds))) = true := rfl
  have hsecond : strategy.isEligible 110 (named here (other, twice later)) = true := rfl
  have hnewest : strategy.isEligible 110 (named here (directoryName ⟨4⟩, newest)) = false := rfl
  simp only [inOrder, List.map_cons, List.map_nil, List.filter_cons, hfirst, hsecond, hnewest]
  rfl

lemma groups_twice (hc : c ∈ [earlier .seconds, later]) :
    (twice c).groups = [(1, [chunk]), (2, [chunk])] := by
  rcases eq_or_eq hc with rfl | rfl <;> rfl

lemma first_twice (hc : c ∈ [earlier .seconds, later]) : (1, [chunk]) ∈ (twice c).groups := by
  rw [groups_twice hc]
  exact List.mem_cons_self

/-- A merge of the segments takes all of them. -/
lemma take_surplus (hc : c ∈ [earlier .seconds, later]) :
    (named here (name, twice c)).segments.take (strategy.surplus (named here (name, twice c)))
      = (named here (name, twice c)).segments := by
  have hsegments : (named here (name, twice c)).segments
      = [(1, [chunk]), (2, [chunk])].map (Contents.segment (here / name)) :=
    congrArg (List.map _) (groups_twice hc)
  refine List.take_of_length_le ?_
  rw [ForceMerge.surplus, hsegments, List.length_map]
  decide

section

variable {d : Disk} (hst : Stocked d here [] (made c c')) (hc : c ∈ [earlier .seconds, later])
  (hc' : c' ∈ [earlier .seconds, later])

include hst hc

lemma reached_damage_made : d.Reached ["x"] (damage d) :=
  reached_damage (by simp [file_first hst (by simp [made]) (first_twice hc)])

lemma on_load_damage {other : String}
    (hperm : (inOrder name other).Perm ((made c c').map (named here))) :
    (load here).on (damage d) = (.ok (inOrder name other), damage d) := by
  obtain ⟨gs, hload, hgs⟩ := hst.on_load
  have hsorted : sorted (gs.map (named here)) = gs.map (named here) :=
    List.mergeSort_of_pairwise (pairwise_of_on_load hload)
  rw [← hsorted, sorted_eq_of_perm ((hgs.map _).trans hperm.symm) (pairwise_inOrder name other)]
    at hload
  exact (agrees_load_damage hst (by simp [made]) (first_twice hc)).on_right hload

/-- A record of `x` cannot be read. -/
lemma canRead_damaged :
    strategy.canRead (damage d) (named here ("x", twice c)) = false := by
  by_contra hread
  obtain ⟨es, hes⟩ := ForceMerge.exists_of_canRead (by simpa using hread)
  rw [take_surplus hc] at hes
  obtain ⟨-, groups, hall, -⟩ := on_entriesOf_eq_ok_iff.mp hes
  obtain ⟨g, hg⟩ := DiskM.exists_of_forall₂ hall (List.mem_map_of_mem (first_twice hc))
  exact on_entries_damaged (read_damage hst (by simp [made]) (first_twice hc)) hg

/-- All records of `y` can be read. -/
lemma on_chunks_intact : (Index.chunks (named here ("y", twice c'))).on (damage d)
    = (.ok (twice c').entries, damage d) := by
  obtain ⟨gs, hload, hgs⟩ := hst.on_load
  have hy : ("y", twice c') ∈ made c c' := by simp [made]
  have hdir : here / "y" ≠ here / "x" := fun heq => absurd
    (eq_of_div_eq (isName_of_mem "y" (by simp)) (isName_of_mem "x" (by simp)) heq) (by decide)
  exact (agrees_chunks fun t ht => hst.catalogued.read_of_reached (reached_damage_made hst hc) hload
    (List.mem_map_of_mem (hgs.mem_iff.mpr hy)) hdir ht).on_right (hst.on_chunks hy)

include hc' in
lemma canRead_intact : strategy.canRead (damage d) (named here ("y", twice c')) = true := by
  have hchunks := on_chunks_intact hst hc
  rw [Index.chunks] at hchunks
  rw [ForceMerge.canRead, take_surplus hc', hchunks]
  rfl

/-- There is room to merge `x` and `y`. -/
lemma roomy_damage {c₀ : Contents} (hc₀ : c₀ ∈ [earlier .seconds, later])
    (hg : (name, twice c₀) ∈ made c c')
    (hacc : ∀ file ∈ newNames 3, d.Accepts (here / name) ([] ++ [name]) file) :
    Roomy (damage d) (named here (name, twice c₀)) where
  accepts p hp file hfile := by
    have hcat := catalogued_damage hst (by simp [made]) (first_twice hc)
    obtain rfl := (hcat.listed _ hg).leadsTo.unique hp
    have hnext : (twice c₀).next = 3 := by
      rcases eq_or_eq hc₀ with rfl | rfl <;> rfl
    exact (Disk.Beside.of_reached (p := []) (reached_damage_made hst hc)).accepts
      (hacc file (hnext ▸ hfile))
  few := by
    have hentries : (twice c₀).entries = [chunk, chunk] := by
      rw [Contents.entries, groups_twice hc₀]
      rfl
    change 28 * ((twice c₀).index (here / name)).chunkCount < 2 ^ 32
    rw [chunkCount_index, hentries]
    decide

end

/-- Whichever of `x` and `y` is listed first, on the disk on which `x` is damaged they are merged in
turn. -/
lemma exists_damaged (hc : c ∈ [earlier .seconds, later]) (hc' : c' ∈ [earlier .seconds, later])
    {first second : String}
    (hperm : (inOrder first second).Perm ((made c c').map (named here))) :
    ∃ d, Built here d [chunk, chunk, chunk, chunk] ∧ Stocked d here [] (made c c') ∧ d.Calm
      ∧ (load here).on (damage d) = (.ok (inOrder first second), damage d)
      ∧ ∀ ix ∈ strategy.eligible (inOrder first second), Roomy (damage d) ix := by
  obtain ⟨d, hbuilt, hst, hcalm, hacc⟩ := exists_built hc hc'
  refine ⟨d, hbuilt, hst, hcalm, on_load_damage hst hc hperm, fun ix hix => ?_⟩
  have hmany := ForceMerge.target_lt_of_mem_eligible hix
  obtain ⟨g, hg, rfl⟩ := List.mem_map.mp
    (hperm.mem_iff.mp ((strategy.eligible_sublist _).subset hix))
  simp only [made, List.mem_cons, List.not_mem_nil, or_false] at hg
  rcases hg with rfl | rfl | rfl
  · exact absurd hmany (Nat.not_lt_zero _)
  · exact roomy_damage hst hc hc' (by simp [made]) (hacc "y" (by simp))
  · exact roomy_damage hst hc hc (by simp [made]) (hacc "x" (by simp))

lemma mem_earlier : earlier .seconds ∈ [earlier .seconds, later] := List.mem_cons_self

lemma mem_later : later ∈ [earlier .seconds, later] := by simp

end Damage

/-- With the damaged index behind, the other one is merged. -/
theorem attempts_merge_in_turn_damaged : ∃ (d d' : Disk) (ixs' : List Index) (err : StorageError),
    Built Damage.here d [Overlap.chunk, Overlap.chunk, Overlap.chunk, Overlap.chunk]
    ∧ d.Worn (Overlap.damage d)
    ∧ (Index.load Damage.here).on (Overlap.damage d)
      = (.ok (Damage.inOrder "y" "x"), Overlap.damage d)
    ∧ (attempts Damage.threeTimes).on (Overlap.damage d) = (.ok (), d')
    ∧ TakenInTurn Damage.here Damage.strategy (Overlap.damage d) (Damage.inOrder "y" "x")
      [named Damage.here ("y", Damage.twice (Overlap.earlier .seconds))] d' ixs'
    ∧ Damage.strategy.eligible ixs' = [named Damage.here ("x", Damage.twice Overlap.later)]
    ∧ ∀ o, (Damage.engine.cycle o).on d' = (.error err, d') := by
  have hperm : (Damage.inOrder "y" "x").Perm
      ((Damage.made Overlap.later (Overlap.earlier .seconds)).map (named Damage.here)) :=
    (List.perm_append_singleton _ [_, _] : ([_, _] ++ [_] : List Index).Perm _)
  obtain ⟨d, hbuilt, hst, hcalm, hload, hroom⟩ :=
    Damage.exists_damaged Damage.mem_later Damage.mem_earlier hperm
  have hfile := Overlap.file_first hst (by simp [Damage.made]) (Damage.first_twice Damage.mem_later)
  have hreached := Overlap.reached_damage (d := d) (by simp [hfile])
  have hworn := Overlap.worn_damage (d := d) (by simp [hfile])
  have hnothing : (cycles []).on d = (.ok [], d) := rfl
  obtain ⟨d', ixs', hon, htaken, hleft⟩ := attempts_merge_in_turn hbuilt (by decide) (by simp)
    hnothing (Disk.isDir_iff.mpr ⟨[], hst.finds⟩) hworn (fun p hp => by
      obtain rfl := hst.finds.leadsTo.unique hp.leadsTo
      exact .of_eq (hreached.tree.names [] (by simp))) hcalm hload hroom Damage.under_threeTimes
  have hturn : Damage.strategy.inTurn (Overlap.damage d) (Damage.inOrder "y" "x")
      Damage.threeTimes.length
      = [named Damage.here ("y", Damage.twice (Overlap.earlier .seconds))] := by
    rw [ForceMerge.inTurn, Damage.eligible_inOrder, List.map_cons,
      List.takeWhile_cons_of_pos (Damage.canRead_intact hst Damage.mem_later Damage.mem_earlier),
      List.map_cons, List.takeWhile_cons_of_neg
        (by simp [Damage.canRead_damaged hst Damage.mem_later])]
    rfl
  rw [hturn] at htaken
  have hrest : Damage.strategy.eligible ixs'
      = [named Damage.here ("x", Damage.twice Overlap.later)] := by
    rw [htaken.left, Damage.eligible_inOrder]
    rfl
  obtain ⟨err, -, hstall⟩ := (hleft _ _ hrest).2 (Damage.canRead_damaged hst Damage.mem_later)
  exact ⟨d, d', ixs', err, hbuilt, hworn, hload, hon, htaken, hrest,
    fun o => hstall Damage.engine o rfl rfl⟩

/-- With the damaged index in front, the other one is never merged. All of its records can be
read. -/
theorem attempts_pass_by : ∃ (d d' : Disk) (ixs' : List Index) (y : Index),
    Built Damage.here d [Overlap.chunk, Overlap.chunk, Overlap.chunk, Overlap.chunk]
    ∧ d.Worn (Overlap.damage d)
    ∧ (Index.load Damage.here).on (Overlap.damage d)
      = (.ok (Damage.inOrder "x" "y"), Overlap.damage d)
    ∧ y ∈ Damage.strategy.eligible (Damage.inOrder "x" "y")
    ∧ (Index.chunks y).on (Overlap.damage d)
      = (.ok [Overlap.chunk, Overlap.chunk], Overlap.damage d)
    ∧ Damage.threeTimes.length = (Damage.inOrder "x" "y").length
    ∧ (attempts Damage.threeTimes).on (Overlap.damage d) = (.ok (), d')
    ∧ (Index.load Damage.here).on d' = (.ok ixs', d')
    ∧ y ∈ ixs' ∧ Damage.strategy.target.toNat < y.segments.length := by
  have hperm : (Damage.inOrder "x" "y").Perm
      ((Damage.made (Overlap.earlier .seconds) Overlap.later).map (named Damage.here)) :=
    (List.reverse_perm _).symm
  obtain ⟨d, hbuilt, hst, hcalm, hload, hroom⟩ :=
    Damage.exists_damaged Damage.mem_earlier Damage.mem_later hperm
  have hfirst := Damage.first_twice Damage.mem_earlier
  have hx : ("x", Damage.twice (Overlap.earlier .seconds))
      ∈ Damage.made (Overlap.earlier .seconds) Overlap.later := by simp [Damage.made]
  have hfile := Overlap.file_first hst hx hfirst
  have hready : Ready Damage.here Damage.strategy (Overlap.damage d) (Damage.inOrder "x" "y") :=
    ⟨⟨[], _, Overlap.catalogued_damage hst hx hfirst⟩, hcalm, hload, hroom⟩
  obtain ⟨d', ixs', hon, -, htaken⟩ := hready.attempts Damage.under_threeTimes
  have hturn : Damage.strategy.inTurn (Overlap.damage d) (Damage.inOrder "x" "y")
      Damage.threeTimes.length = [] := by
    rw [ForceMerge.inTurn, Damage.eligible_inOrder, List.map_cons, List.takeWhile_cons_of_neg
        (by simp [Damage.canRead_damaged hst Damage.mem_earlier])]
    rfl
  rw [hturn] at htaken
  have hy : named Damage.here ("y", Damage.twice Overlap.later)
      ∈ Damage.strategy.eligible (Damage.inOrder "x" "y") := by
    rw [Damage.eligible_inOrder]
    simp
  refine ⟨d, d', ixs', _, hbuilt, Overlap.worn_damage (by simp [hfile]), hload, hy,
    Damage.on_chunks_intact hst Damage.mem_earlier, rfl, hon, htaken.load,
    (htaken.kept _ ((Damage.strategy.eligible_sublist _).subset hy) List.not_mem_nil).1,
    ForceMerge.target_lt_of_mem_eligible hy⟩

end Engine

end SeriesStore
