import SeriesStore.Proofs.Compaction.Gathering
import SeriesStore.Proofs.Compaction.TimeOrder

/-!
# Merging into any open index

An index that has chunks takes those of other indexes behind its own. It refuses them if it does not
cover the other indexes, or if one of them starts before its last chunk. Whether they are taken or
not, the other indexes are not touched, and a failure leaves the index itself as it was.
-/

namespace SeriesStore

open Index

namespace Index

variable {P : Entry → Prop} {d d' : Disk} {ix : Index} {p q : Place} {c : Contents}

/-- An index opens from its directory as it is, and its chunks are some entries. -/
structure Exhibits (d : Disk) (ix : Index) (es : List Entry) : Prop where
  opens : (Index.open ix.dir).on d = (.ok ix, d)
  chunks : (chunks ix).on d = (.ok es, d)

lemma InStep.exhibits (h : InStep P d ix p c) : Exhibits d ix c.entries := by
  obtain ⟨hindex, hheld, -⟩ := h
  constructor
  · rw [hheld.on_open, ← hindex]
  · rw [hindex]
    exact hheld.on_chunks

/-- What changes in another directory does not matter. -/
lemma InStep.reached (h : InStep P d ix p c) (hreached : d.Reached q d') (hne : p ≠ q) :
    InStep P d' ix p c where
  index := h.index
  held := h.held.reached hreached fun _ _ heq => absurd heq hne
  entries := h.entries

end Index

namespace SizeTiered

variable {P : Entry → Prop} {d d' : Disk} {sources ixs : List Index} {dest : Index}
  {entries : Index → List Entry} {old es : List Entry} {p : Place} {c : Contents}
  {r : Except StorageError Index}

/-! ### What is taken -/

/-- There are sources, the destination covers them all, and none of their chunks starts before its
last one. -/
structure Admits (sources : List Index) (dest : Index) (old gathered : List Entry) : Prop where
  ne : sources ≠ []
  covers : ∀ s ∈ sources, dest.range.covers s.range = true
  behind : ∀ last ∈ old.getLast?, ∀ e ∈ gathered, last.min ≤ e.min

/-- Of chunks that fit an index, those are taken that do not start before the last one there. -/
lemma suits_byStart_iff (hin : ∀ e ∈ es, InRange c.range e)
    (hfits : ∀ e ∈ es, e.chunk.record.length < 2 ^ 32) : (Command.add (byStart es)).Suits c
      ↔ ∀ last ∈ c.entries.getLast?, ∀ e ∈ es, last.min ≤ e.min := by
  have harr := arranges_byStart es
  have htrans : IsTrans Int64 (· ≤ ·) := ⟨fun _ _ _ => Int64.le_trans⟩
  constructor
  · intro hsuits last hlast e he
    have hmem : e ∈ byStart es := harr.perm.mem_iff.mpr he
    obtain ⟨hcheck, -⟩ := hsuits (List.ne_nil_of_mem hmem)
    have hchain := (check_eq_ok_iff.mp hcheck).2
    rw [List.isChain_iff_pairwise, List.pairwise_append] at hchain
    refine hchain.2.2 last.min ?_ e.min (List.mem_map_of_mem hmem)
    exact Option.mem_toList.mpr (Option.mem_map.mpr ⟨last, hlast, rfl⟩)
  · intro hbehind hne
    refine ⟨check_eq_ok_iff.mpr ⟨fun e he => hin e (harr.perm.mem_iff.mp he), ?_⟩,
      Layout.oversized?_eq_none_iff.mpr fun e he => hfits e (harr.perm.mem_iff.mp he)⟩
    rw [List.isChain_iff_pairwise, List.pairwise_append]
    refine ⟨?_, List.pairwise_map.mpr harr.sorted, ?_⟩
    · cases c.entries.getLast? <;> simp
    · intro s hs t ht
      obtain ⟨last, hlast, rfl⟩ := Option.mem_map.mp (Option.mem_toList.mp hs)
      obtain ⟨e, he, rfl⟩ := List.mem_map.mp ht
      exact hbehind last hlast e (harr.perm.mem_iff.mp he)

/-! ### Outcomes -/

/-- What is known when sources have been merged into an index that had the chunks `old`, or have
not. All indexes but the destination are among the `ixs`. -/
structure Absorbs (d : Disk) (sources : List Index) (dest : Index) (ixs : List Index)
    (old : List Entry) (entries : Index → List Entry) (r : Except StorageError Index) (d' : Disk) :
    Prop where
  /-- Unless the disk fails, exactly the sources that are admitted are taken. -/
  admits : (∀ io, r ≠ .error (.io io)) →
    ((∃ new, r = .ok new) ↔ Admits sources dest old (sources.flatMap entries))
  calm : d.Calm → (∀ q, d.LeadsTo dest.dir q → ∀ name ∈ newNames dest.nextSegment,
    d.Accepts dest.dir q name) → ∀ io, r ≠ .error (.io io)
  /-- What has been taken is one segment behind the others, if it is anything. -/
  ok : ∀ new, r = .ok new → ∃ added, Arranges (sources.flatMap entries) added
    ∧ new = (if added = [] then dest
      else dest.appended (.ofEntries (dest.segmentPath dest.nextSegment) added))
    ∧ Exhibits d' new (old ++ added)
  error : ∀ e, r = .error e → Exhibits d' dest old
  others : ∀ ix ∈ ixs, Exhibits d' ix (entries ix)

/-- Sources are in step with their directories, and have some entries. -/
def Sourced (P : Entry → Prop) (d : Disk) (sources : List Index) (entries : Index → List Entry) :
    Prop :=
  ∀ s ∈ sources, ∃ q c, InStep P d s q c ∧ c.entries = entries s

namespace Sourced

lemma gathered (h : Sourced P d sources entries) (hne : sources ≠ [])
    (hcovers : ∀ s ∈ sources, dest.range.covers s.range = true) :
    Gathered d sources dest entries where
  ne := hne
  covers := hcovers
  read s hs := by
    obtain ⟨q, c, hin, hentries⟩ := h s hs
    rw [← hentries]
    exact hin.exhibits.chunks

/-- The chunks of sources fit what covers the sources. -/
lemma fits (h : Sourced P d sources entries) {range : TimeRange}
    (hcovers : ∀ s ∈ sources, range.covers s.range = true) :
    ∀ e ∈ sources.flatMap entries, InRange range e ∧ e.chunk.record.length < 2 ^ 32 := by
  intro e he
  obtain ⟨s, hs, he⟩ := List.mem_flatMap.mp he
  obtain ⟨q, c, hin, hentries⟩ := h s hs
  have hrange : s.range = c.range := by
    rw [hin.index]
    rfl
  rw [← hentries] at he
  exact ⟨inRange_of_covers hin.held.sound (hrange ▸ hcovers s hs) he,
    hin.held.sound.length_record_lt he⟩

lemma length_flatMap (h : Sourced P d sources entries) :
    (sources.flatMap entries).length = (sources.map chunkCount).sum := by
  rw [List.length_flatMap]
  refine congrArg List.sum (List.map_congr_left fun s hs => ?_)
  obtain ⟨q, c, hin, hentries⟩ := h s hs
  rw [← hentries, hin.index, chunkCount_index]

end Sourced

lemma suits_iff_admits (hdest : InStep P d dest p c) (h : Sourced P d sources entries)
    (hne : sources ≠ []) (hcovers : ∀ s ∈ sources, dest.range.covers s.range = true) :
    (Command.add (byStart (sources.flatMap entries))).Suits c
      ↔ Admits sources dest c.entries (sources.flatMap entries) := by
  have hrange : dest.range = c.range := by
    rw [hdest.index]
    rfl
  have hfits := h.fits (hrange ▸ hcovers)
  rw [suits_byStart_iff (fun e he => (hfits e he).1) fun e he => (hfits e he).2]
  exact ⟨fun hbehind => ⟨hne, hcovers, hbehind⟩, fun hadmits => hadmits.behind⟩

/-- Sources that are not admitted are refused, before anything is tried. -/
lemma on_compact_of_not_admits (hdest : InStep P d dest p c) (h : Sourced P d sources entries)
    (hnot : ¬Admits sources dest c.entries (sources.flatMap entries)) :
    ∃ fault, (compact sources dest).on d = (.error (.invalidIndex fault), d) := by
  by_cases hne : sources = []
  · subst hne
    exact ⟨_, on_compact_nil dest d⟩
  by_cases hcovers : ∀ s ∈ sources, dest.range.covers s.range = true
  · have hunsuited := mt (suits_iff_admits hdest h hne hcovers).mp hnot
    have hadded : byStart (sources.flatMap entries) ≠ [] := fun hnil => by
      rw [hnil] at hunsuited
      exact hunsuited fun hne => absurd rfl hne
    rw [(h.gathered hne hcovers).on_compact, hdest.index]
    cases hcheck : check c.range (c.entries.getLast?.map (·.min))
        (byStart (sources.flatMap entries)) with
    | error fault => exact ⟨fault, on_addChunks_of_error hadded hcheck⟩
    | ok _ =>
      refine absurd (fun _ => ⟨hcheck, Layout.oversized?_eq_none_iff.mpr fun e he => ?_⟩) hunsuited
      exact (h.fits hcovers e ((arranges_byStart _).perm.mem_iff.mp he)).2
  · obtain ⟨s, hs, huncovered⟩ : ∃ s ∈ sources, dest.range.covers s.range = false := by
      simpa using hcovers
    exact on_compact_of_uncovered hs huncovered d

/-- Entries that are added, if there are any, are one more segment. -/
lemma index_result_add {ix : Index} (h : ix = c.index ix.dir) :
    ((Command.add es).result c).index ix.dir = if es = [] then ix
      else ix.appended (.ofEntries (ix.segmentPath ix.nextSegment) es) := by
  simp only [Command.result, List.isEmpty_iff]
  split_ifs
  · exact h.symm
  · rw [h]
    simp [appended, segmentPath, Contents.index, Contents.add, Contents.segment]

/-- Sources that are admitted are taken, unless the disk fails. -/
lemma absorbs_of_admits (hdest : InStep P d dest p c) (h : Sourced P d sources entries)
    (hothers : ∀ ix ∈ ixs, ∃ q c, InStep P d ix q c ∧ q ≠ p ∧ c.entries = entries ix)
    (hfew : 28 * (dest.chunkCount + (sources.map chunkCount).sum) < 2 ^ 32)
    (hadmits : Admits sources dest c.entries (sources.flatMap entries))
    (hon : (compact sources dest).on d = (r, d')) :
    Absorbs d sources dest ixs c.entries entries r d' := by
  have hsuits := (suits_iff_admits hdest h hadmits.ne hadmits.covers).mpr hadmits
  have harr := arranges_byStart (sources.flatMap entries)
  -- the merge adds the gathered chunks to the destination in a single command
  rw [(h.gathered hadmits.ne hadmits.covers).on_compact] at hon
  have hran := (Command.run_spec hdest.held
    (.add (byStart (sources.flatMap entries)))).result
  rw [← hdest.index, Command.run, hon] at hran
  have hsmall : 28 * (c.entries ++ (Command.add (byStart (sources.flatMap entries))).entries).length
      < 2 ^ 32 := by
    have hcount : dest.chunkCount = c.entries.length := by
      rw [hdest.index, chunkCount_index]
    rw [List.length_append, Command.entries, harr.perm.length_eq, h.length_flatMap, ← hcount]
    exact hfew
  have hleads := hran.reached.leadsTo hdest.held.leadsTo
  constructor
  case admits =>
    -- what is admitted can only fail for the disk
    intro hio
    refine iff_of_true ?_ hadmits
    cases r with
    | ok new => exact ⟨new, rfl⟩
    | error e =>
      obtain ⟨-, -, hother⟩ := hran.error e rfl
      exact absurd (congrArg Except.error (hother hsuits)) (hio .other)
  case calm =>
    intro hcalm haccepts io hr
    have hnext : dest.nextSegment = c.next := by
      rw [hdest.index]
      rfl
    have hroom := haccepts p hdest.held.leadsTo
    rw [hnext] at hroom
    have hok := hran.calm hcalm
    rw [Command.outcome_eq_ok hdest.held.sound hroom hsuits, hr] at hok
    cases hok
  case ok =>
    rintro new rfl
    obtain ⟨hnew, hstands, hfits, -⟩ := hran.ok new rfl
    have hheld : Contents.HeldBy _ d' dest.dir p :=
      ⟨hleads, hstands, hfits, Command.sound_result hdest.held.sound hsuits hsmall⟩
    have hchunks := hheld.on_chunks
    rw [Command.entries_result] at hchunks
    subst hnew
    exact ⟨_, harr, index_result_add hdest.index, hheld.on_open, hchunks⟩
  case error =>
    intro e hr
    obtain ⟨hstands, -, -⟩ := hran.error e hr
    have hstep : InStep P d' dest p c :=
      ⟨hdest.index, ⟨hleads, hstands, hdest.held.fits, hdest.held.sound⟩, hdest.entries⟩
    exact hstep.exhibits
  case others =>
    intro ix hix
    -- only the place of the destination changes, and the others stand elsewhere
    obtain ⟨q, c', hin, hne, hentries⟩ := hothers ix hix
    rw [← hentries]
    exact (hin.reached hran.reached hne).exhibits

/-- The open index that others are merged into may have chunks, and sources may come several times.
Unless the disk fails, a merge succeeds exactly if there are sources, the destination covers them,
and none of their chunks starts before its last one. It then has all their chunks behind its own, in
the order of their starts. The sources, and on errors the destination too, are as they were. -/
theorem absorbs_of_opened (hopened : Opened P d (dest :: ixs)) (hsources : sources ⊆ ixs)
    (hfew : 28 * (dest.chunkCount + (sources.map chunkCount).sum) < 2 ^ 32) :
    ∃ old entries, Exhibits d dest old ∧ (∀ ix ∈ ixs, Exhibits d ix (entries ix))
      ∧ Absorbs d sources dest ixs old entries ((compact sources dest).on d).1
        ((compact sources dest).on d).2 := by
  obtain ⟨hs, heq, hk⟩ := hopened.keeps
  obtain ⟨⟨dest, p⟩, hs, rfl, rfl, rfl⟩ := List.map_eq_cons_iff.mp heq
  obtain ⟨c, hdest⟩ := hk.inStep _ List.mem_cons_self
  have hplaces : p ∉ hs.map Prod.snd := (List.nodup_cons.mp hk.places).1
  have hstep (ix : Index) (hix : ix ∈ hs.map Prod.fst) :
      ∃ es q c, InStep P d ix q c ∧ q ≠ p ∧ c.entries = es := by
    obtain ⟨g, hg, rfl⟩ := List.mem_map.mp hix
    obtain ⟨c, hin⟩ := hk.inStep g (List.mem_cons_of_mem _ hg)
    refine ⟨_, g.2, c, hin, ?_, rfl⟩
    rintro rfl
    exact hplaces (List.mem_map_of_mem hg)
  choose! entries hothers using hstep
  have hexhibits : ∀ ix ∈ hs.map Prod.fst, Exhibits d ix (entries ix) := by
    intro ix hix
    obtain ⟨q, c', hin, -, hentries⟩ := hothers ix hix
    rw [← hentries]
    exact hin.exhibits
  have hsourced : Sourced P d sources entries := by
    intro s hmem
    obtain ⟨q, c', hin, -, hentries⟩ := hothers s (hsources hmem)
    exact ⟨q, c', hin, hentries⟩
  refine ⟨c.entries, entries, hdest.exhibits, hexhibits, ?_⟩
  by_cases hadmits : Admits sources dest c.entries (sources.flatMap entries)
  · exact absorbs_of_admits hdest hsourced hothers hfew hadmits rfl
  · obtain ⟨fault, hrefused⟩ := on_compact_of_not_admits hdest hsourced hadmits
    rw [hrefused]
    refine ⟨fun _ => iff_of_false (fun ⟨_, hok⟩ => nomatch hok) hadmits,
      fun _ _ _ hio => (nomatch hio), fun _ hok => (nomatch hok), fun _ _ => hdest.exhibits,
      hexhibits⟩

/-- An index is given twice, and its chunk is taken twice. -/
theorem absorbs_of_opened_twice : ∃ (d d' : Disk) (ix dest new : Index) (e : Entry),
    Opened Entry.OfOrdered d [dest, ix] ∧ (chunks ix).on d = (.ok [e], d)
      ∧ (compact [ix, ix] dest).on d = (.ok new, d') ∧ (chunks new).on d' = (.ok [e, e], d')
      ∧ new.segments.length = dest.segments.length + 1 := by
  obtain ⟨d, hopened, hst, hcalm, hfiles⟩ := Ordered.exists_filled
  replace hopened := hopened.close (List.Perm.swap ..).subperm
  generalize hix : named ⟨["."]⟩ ("x", Ordered.filled) = ix at hopened
  generalize hdest : named ⟨["."]⟩ ("y", Ordered.wide) = dest at hopened
  have hx : (chunks ix).on d = (.ok [Ordered.entry], d) := by
    rw [← hix]
    exact hst.on_chunks (by simp)
  have hy : (chunks dest).on d = (.ok [], d) := by
    rw [← hdest]
    exact hst.on_chunks (by simp)
  have hfew : 28 * (dest.chunkCount + ([ix, ix].map chunkCount).sum) < 2 ^ 32 := by
    rw [← hix, ← hdest]
    simp only [List.map_cons, List.map_nil, Ordered.chunkCount_filled]
    decide
  obtain ⟨old, entries, hold, hentries, habsorbs⟩ :=
    absorbs_of_opened hopened (show [ix, ix] ⊆ [ix] by simp) hfew
  obtain rfl : [] = old := Except.ok.inj (congrArg Prod.fst (hy.symm.trans hold.chunks))
  have hentry : [Ordered.entry] = entries ix :=
    Except.ok.inj (congrArg Prod.fst (hx.symm.trans (hentries ix (by simp)).chunks))
  -- there is nothing in the destination in front of which the chunks might start
  have hadmits : Admits [ix, ix] dest [] ([ix, ix].flatMap entries) := by
    refine ⟨by simp, fun s hs => ?_, by simp⟩
    obtain rfl : s = ix := by simpa using hs
    rw [← hix, ← hdest]
    rfl
  have hio := habsorbs.calm hcalm fun q hq file hfile => by
    rw [← hdest] at hq hfile ⊢
    obtain rfl := (hst.held ("y", Ordered.wide) (by simp)).leadsTo.unique_of_workDir hq rfl
    exact hfiles file hfile
  obtain ⟨new, hnew⟩ := (habsorbs.admits hio).mpr hadmits
  obtain ⟨added, harr, hresult, hexhibits⟩ := habsorbs.ok new hnew
  obtain rfl : added = [Ordered.entry, Ordered.entry] := by
    have hperm := harr.perm
    rw [List.flatMap_cons, List.flatMap_singleton, ← hentry] at hperm
    exact (List.perm_replicate (n := 2)).mp hperm
  refine ⟨d, _, ix, dest, new, Ordered.entry, hopened, hx, Prod.ext hnew rfl, hexhibits.chunks, ?_⟩
  rw [hresult, if_neg (by simp), appended, List.length_append, List.length_singleton]

end SizeTiered

end SeriesStore
