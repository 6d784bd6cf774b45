import SeriesStore.Proofs.Chunk.RoundTrip
import SeriesStore.Proofs.Compaction.Cycles
import SeriesStore.Proofs.Index.Handles

/-!
# Samples in order

If all chunks that are added have taken their samples in order, an index is in order down to its
samples, whatever is done with it: the chunks come by their first timestamps, and each sample lies
between the bounds of its chunk, and so in the range of the index.
-/

namespace SeriesStore

open Index

/-! ### Chunks in order -/

/-- The entry of a chunk that has taken samples in the order of their timestamps. -/
def Entry.OfOrdered (e : Entry) : Prop :=
  ∃ xs : List Sample, xs.Pairwise (·.time ≤ ·.time) ∧ Entry.ofChunk? (Chunk.ofSamples xs) = some e

/-- The chunk of an entry decodes without damage, to samples between the bounds of the entry. -/
def Entry.Bounds (e : Entry) (xs : List Sample) : Prop :=
  e.chunk.samples = (xs, none) ∧ ∀ x ∈ xs, e.min ≤ x.time ∧ x.time ≤ e.max

lemma time_le_of_pairwise {xs : List Sample} (h : xs.Pairwise (·.time ≤ ·.time))
    {first last : Sample} (hfirst : first ∈ xs.head?) (hlast : last ∈ xs.getLast?) {x : Sample}
    (hx : x ∈ xs) : first.time ≤ x.time ∧ x.time ≤ last.time := by
  constructor
  · obtain ⟨rest, rfl⟩ := List.head?_eq_some_iff.mp hfirst
    rcases List.mem_cons.mp hx with rfl | hx
    · exact Int64.le_refl _
    · exact (List.pairwise_cons.mp h).1 x hx
  · obtain ⟨front, rfl⟩ := List.getLast?_eq_some_iff.mp hlast
    rcases List.mem_append.mp hx with hx | hx
    · exact (List.pairwise_append.mp h).2.2 x hx last (List.mem_singleton_self _)
    · rw [List.mem_singleton.mp hx]
      exact Int64.le_refl _

lemma Entry.OfOrdered.bounds {e : Entry} (h : e.OfOrdered) : ∃ xs, e.Bounds xs := by
  obtain ⟨xs, hsorted, hentry⟩ := h
  obtain ⟨-, -, -, hbounds, -, hyields, -⟩ := Chunk.ofSamples_roundTrip xs ⟨0, 0⟩
  have hsorted' := hsorted.sublist (List.take_sublist 65535 xs)
  rw [Entry.ofChunk?, hbounds] at hentry
  refine ⟨xs.take 65535, ?_⟩
  generalize xs.take 65535 = ys at *
  cases hfirst : ys.head? with
  | none => simp [hfirst] at hentry
  | some first =>
    cases hlast : ys.getLast? with
    | none => simp [hfirst, hlast] at hentry
    | some last =>
      simp only [hfirst, hlast, Option.bind_some, Option.map_some, Option.some.injEq] at hentry
      subst hentry
      refine ⟨?_, fun x hx => time_le_of_pairwise hsorted' hfirst hlast hx⟩
      obtain ⟨hread, hintact, -⟩ := hyields
      exact Prod.ext hread hintact

lemma TimeRange.contains_of_between {range : TimeRange} {s t u : Int64}
    (hs : range.contains s = true) (hu : range.contains u = true) (hst : s ≤ t) (htu : t ≤ u) :
    range.contains t = true := by
  simp only [TimeRange.contains, Bool.and_eq_true, decide_eq_true_eq] at hs hu ⊢
  exact ⟨Int64.le_trans hs.1 hst, Int64.lt_of_le_of_lt htu hu.2⟩

namespace Index

/-! ### Runs with several indexes -/

/-- The indexes that are open on a disk after any steps, of which each may fail. All entries that
have been added have the property `P`. No two open indexes stand in the same directory. -/
inductive Opened (P : Entry → Prop) : Disk → List Index → Prop
  | start (d : Disk) : Opened P d []
  | create {d d' : Disk} {ixs : List Index} {dir : Path} {range : TimeRange}
    {resolution : Resolution} {id : Uid} {createdAt : Instant} {ix : Index}
    (opened : Opened P d ixs)
    (on : (Index.create dir range resolution id createdAt).on d = (.ok ix, d'))
    (apart : ∀ other ∈ ixs, ¬d'.Meets (other.dir / manifestName) (dir / manifestName)) :
    Opened P d' (ix :: ixs)
  | createError {d d' : Disk} {ixs : List Index} {dir : Path} {range : TimeRange}
    {resolution : Resolution} {id : Uid} {createdAt : Instant} {e : StorageError}
    (opened : Opened P d ixs)
    (on : (Index.create dir range resolution id createdAt).on d = (.error e, d')) : Opened P d' ixs
  /-- A batch is added, segments are merged, or the index is opened again. -/
  | run {d d' : Disk} {ixs : List Index} {ix : Index} {r : Except StorageError Index}
    (cmd : Command) (opened : Opened P d (ix :: ixs)) (entries : ∀ e ∈ cmd.entries, P e)
    (on : (cmd.run ix).on d = (r, d')) (few : ∀ ix', r = .ok ix' → 28 * ix'.chunkCount < 2 ^ 32) :
    Opened P d' (r.toOption.getD ix :: ixs)
  /-- An index is opened again, under any path that leads to its manifest. -/
  | reopen {d d' : Disk} {ixs : List Index} {ix ix' : Index} {dir : Path}
    (opened : Opened P d (ix :: ixs)) (on : (Index.open dir).on d = (.ok ix', d'))
    (meets : d.Meets (ix.dir / manifestName) (dir / manifestName)) : Opened P d' (ix' :: ixs)
  /-- The chunks of some indexes are added to one index. -/
  | compact {d d' : Disk} {ixs sources : List Index} {ix : Index} {r : Except StorageError Index}
    (opened : Opened P d (ix :: ixs)) (mem : sources ⊆ ix :: ixs)
    (on : (SizeTiered.compact sources ix).on d = (r, d'))
    (few : ∀ ix', r = .ok ix' → 28 * ix'.chunkCount < 2 ^ 32) :
    Opened P d' (r.toOption.getD ix :: ixs)
  /-- A directory is removed. The indexes that are still found stay open. -/
  | delete {d d' : Disk} {ixs : List Index} {ix : Index} {r : Except StorageError Index}
    (opened : Opened P d ixs) (on : (Index.delete ix).on d = (r, d'))
    (found : ∀ other ∈ ixs, d'.exists? (other.dir / manifestName) = true) : Opened P d' ixs
  /-- Some of the indexes are closed, or come in another order. -/
  | close {d : Disk} {ixs ixs' : List Index} (opened : Opened P d ixs) (sub : ixs'.Subperm ixs) :
    Opened P d ixs'

variable {P : Entry → Prop} {d d' : Disk} {ix : Index} {ixs sources : List Index}
  {hs : List (Index × Place)} {p : Place}

/-- The chunks of indexes that can be read are added to another one, in the order of their starts,
unless the indexes do not suit it. -/
lemma of_on_compact {entries : Index → List Entry} {r : Except StorageError Index}
    (hread : ∀ s ∈ sources, (chunks s).on d = (.ok (entries s), d))
    (hon : (SizeTiered.compact sources ix).on d = (r, d')) : (∃ e, r = .error e ∧ d' = d)
      ∨ ((Command.add (SizeTiered.byStart (sources.flatMap entries))).run ix).on d = (r, d') := by
  rw [SizeTiered.compact] at hon
  split_ifs at hon
  · cases hon
    exact .inl ⟨_, rfl, rfl⟩
  · dsimp only at hon
    split at hon
    · cases hon
      exact .inl ⟨_, rfl, rfl⟩
    · rw [DiskM.on_bind_ok (DiskM.on_mapM hread), ← List.flatMap_def] at hon
      exact .inr hon

/-- Merged chunks have the property of the chunks of all sources. -/
lemma Keeps.compact {r : Except StorageError Index} (h : Keeps P d ((ix, p) :: hs))
    (hsources : sources ⊆ ((ix, p) :: hs).map Prod.fst)
    (hon : (SizeTiered.compact sources ix).on d = (r, d'))
    (hfew : ∀ ix', r = .ok ix' → 28 * ix'.chunkCount < 2 ^ 32) :
    Keeps P d' ((r.toOption.getD ix, p) :: hs) := by
  obtain ⟨c, hc⟩ := h.inStep _ List.mem_cons_self
  have hread (s : Index) (hs' : s ∈ sources) :
      ∃ es, (chunks s).on d = (.ok es, d) ∧ ∀ e ∈ es, P e := by
    obtain ⟨g, hg, rfl⟩ := List.mem_map.mp (hsources hs')
    obtain ⟨c, hindex, hheld, hP⟩ := h.inStep g hg
    exact ⟨c.entries, by rw [hindex]; exact hheld.on_chunks, hP⟩
  choose! entries hentries hP using hread
  rcases of_on_compact hentries hon with ⟨e, rfl, rfl⟩ | hrun
  · exact h
  · have hadded : ∀ e ∈ (Command.add (SizeTiered.byStart (sources.flatMap entries))).entries,
        P e := by
      intro e he
      obtain ⟨s, hs', he⟩ :=
        List.mem_flatMap.mp ((SizeTiered.arranges_byStart _).perm.mem_iff.mp he)
      exact hP s hs' e he
    obtain ⟨hreached, hnew⟩ := hc.run hadded hrun hfew
    exact h.change hreached hnew

/-- After all steps, the open indexes are in step with their directories. -/
theorem Opened.keeps (h : Opened P d ixs) : ∃ hs, hs.map Prod.fst = ixs ∧ Keeps P d hs := by
  induction h with
  | start d => exact ⟨[], rfl, .nil d⟩
  | create _ hon hapart ih =>
    obtain ⟨hs, rfl, hk⟩ := ih
    obtain ⟨q, hk'⟩ := hk.create hon fun g hg => hapart _ (List.mem_map_of_mem hg)
    exact ⟨_, rfl, hk'⟩
  | createError _ hon ih =>
    obtain ⟨hs, rfl, hk⟩ := ih
    exact ⟨hs, rfl, hk.create_error hon⟩
  | run cmd _ hentries hon hfew ih =>
    obtain ⟨hs, heq, hk⟩ := ih
    obtain ⟨⟨ix, p⟩, hs, rfl, rfl, rfl⟩ := List.map_eq_cons_iff.mp heq
    obtain ⟨c, hc⟩ := hk.inStep _ List.mem_cons_self
    obtain ⟨hreached, hnew⟩ := hc.run hentries hon hfew
    exact ⟨_, rfl, hk.change hreached hnew⟩
  | reopen _ hon hmeets ih =>
    obtain ⟨hs, heq, hk⟩ := ih
    obtain ⟨⟨ix, p⟩, hs, rfl, rfl, rfl⟩ := List.map_eq_cons_iff.mp heq
    obtain ⟨c, hc⟩ := hk.inStep _ List.mem_cons_self
    obtain ⟨rfl, hnew⟩ := hc.opened hon hmeets
    exact ⟨_, rfl, hk.change (.refl _ p) ⟨c, hnew⟩⟩
  | compact _ hmem hon hfew ih =>
    obtain ⟨hs, heq, hk⟩ := ih
    obtain ⟨⟨ix, p⟩, hs, rfl, rfl, rfl⟩ := List.map_eq_cons_iff.mp heq
    exact ⟨_, rfl, hk.compact hmem hon hfew⟩
  | delete _ hon hfound ih =>
    obtain ⟨hs, rfl, hk⟩ := ih
    exact ⟨hs, rfl, hk.delete hon fun g hg => hfound _ (List.mem_map_of_mem hg)⟩
  | close _ hsub ih =>
    obtain ⟨hs, rfl, hk⟩ := ih
    obtain ⟨taken, left, rfl, hperm⟩ := exists_map_eq_of_subperm hsub
    exact ⟨taken, rfl, hk.subperm ((List.sublist_append_left taken left).subperm.trans
      hperm.symm.subperm)⟩

/-- Indexes are in order down to their samples: whatever has been done with any number of indexes,
if every chunk that was added had taken its samples in order, then each open index opens again, its
chunks come by their first timestamps and lie in its range, and each decodes to samples between its
bounds. -/
theorem ordered_of_opened (h : Opened Entry.OfOrdered d ixs) (hix : ix ∈ ixs) :
    (Index.open ix.dir).on d = (.ok ix, d) ∧ ∃ es, (chunks ix).on d = (.ok es, d)
      ∧ es.Pairwise (·.min ≤ ·.min)
      ∧ ∀ e ∈ es, e.min ≤ e.max ∧ ix.range.contains e.min = true ∧ ix.range.contains e.max = true
        ∧ ∃ xs, e.chunk.samples = (xs, none)
          ∧ ∀ x ∈ xs, e.min ≤ x.time ∧ x.time ≤ e.max ∧ ix.range.contains x.time = true := by
  obtain ⟨hs, rfl, hk⟩ := h.keeps
  obtain ⟨g, hg, rfl⟩ := List.mem_map.mp hix
  obtain ⟨c, hindex, hheld, hordered⟩ := hk.inStep g hg
  obtain ⟨hin, hchain⟩ := check_eq_ok_iff.mp hheld.sound.ordered
  have hrange : g.1.range = c.range := by rw [hindex]; rfl
  refine ⟨?_, c.entries, ?_, ?_, ?_⟩
  · rw [hheld.on_open, ← hindex]
  · rw [hindex]
    exact hheld.on_chunks
  · have : IsTrans Int64 (· ≤ ·) := ⟨fun _ _ _ => Int64.le_trans⟩
    exact List.pairwise_map.mp (List.isChain_iff_pairwise.mp hchain)
  · intro e he
    obtain ⟨hbounds, hmin, hmax⟩ := hin e he
    obtain ⟨xs, hdecodes, hsamples⟩ := (hordered e he).bounds
    rw [hrange]
    refine ⟨Int64.not_lt.mp hbounds, hmin, hmax, xs, hdecodes, fun x hx => ?_⟩
    obtain ⟨hlow, hhigh⟩ := hsamples x hx
    exact ⟨hlow, hhigh, TimeRange.contains_of_between hmin hmax hlow hhigh⟩

namespace Ordered

open Engine

def samples : List Sample := [⟨6, 0⟩, ⟨7, 1⟩]

/-- The entry of a chunk with two samples. -/
def entry : Entry := ⟨6, 7, .ofChunk (Chunk.ofSamples samples)⟩

/-- The contents of an index without chunks for a range in which the other one lies. -/
def wide : Contents := .empty ⟨1⟩ ⟨0, 20, by decide⟩ .seconds .newYear

lemma ofOrdered_entry : entry.OfOrdered := by
  refine ⟨samples, by decide, ?_⟩
  rw [Entry.ofChunk?, (Chunk.holds_ofSamples samples).bounds?_eq]
  rfl

lemma suits_entry : (Command.add [entry]).Suits Overlap.later :=
  fun _ => ⟨by decide +kernel, by decide +kernel⟩

/-- The contents of the other one when it has got the chunk. -/
def filled : Contents := (Command.add [entry]).result Overlap.later

/-- The contents of the wider one when the chunks of the other one have been added. -/
def merged : Contents :=
  (Command.add (SizeTiered.byStart (entriesIn [("x", filled)]))).result wide

lemma chunkCount_filled (dir : Path) : (named dir ("x", filled)).chunkCount = 1 :=
  chunkCount_index filled _

lemma length_copied : (SizeTiered.byStart (entriesIn [("x", filled)])).length = 1 :=
  (SizeTiered.arranges_byStart _).perm.length_eq

lemma chunkCount_merged (dir : Path) : (named dir ("y", merged)).chunkCount = 1 := by
  rw [named, chunkCount_index, merged, Command.entries_result]
  exact length_copied

/-- Both indexes are made, and `x` gets a chunk. -/
lemma exists_filled : ∃ d : Disk,
    Opened Entry.OfOrdered d [named ⟨["."]⟩ ("x", filled), named ⟨["."]⟩ ("y", wide)]
      ∧ Stocked d ⟨["."]⟩ [] [("x", filled), ("y", wide)] ∧ d.Calm
      ∧ ∀ file ∈ newNames 1, d.Accepts ((⟨["."]⟩ : Path) / "y") ([] ++ ["y"]) file := by
  have hfits := Overlap.fits_dot
  have hx := hfits.welcomes "x" (by simp)
  have hy := hfits.welcomes "y" (by simp)
  have hcalm : Overlap.start.Calm := fun _ _ => rfl
  obtain ⟨d₁, hon₁, hb₁, h₁⟩ := hfits.stocked.exists_on_create hcalm (by simp) hx
    ⟨5, 15, by decide⟩ .seconds ⟨2⟩ .newYear
  obtain ⟨d₂, hon₂, hb₂, h₂⟩ := h₁.exists_on_create (hb₁.calm hcalm) (by simp)
    (hy.beside hb₁ (by decide)) ⟨0, 20, by decide⟩ .seconds ⟨1⟩ .newYear
  have hopened₁ := Opened.create (P := Entry.OfOrdered) (.start Overlap.start) hon₁ (by simp)
  have hopened₂ := hopened₁.create hon₂ fun other hother => by
    obtain rfl := List.mem_singleton.mp hother
    exact (h₂.held ("x", Overlap.later) (by simp [Overlap.later])).not_meets
      (h₂.held ("y", wide) (by simp [wide])) (by decide)
  have hcalm₂ := hb₂.calm (hb₁.calm hcalm)
  obtain ⟨d₃, hon₃, hb₃, h₃⟩ := h₂.exists_on_run (c := Overlap.later) hcalm₂
    (by simp [Overlap.later])
    (fun file hfile => hb₂.accepts (hb₁.accepts (hx.files file hfile))) suits_entry (by decide)
  have hopened₃ := (hopened₂.close (List.Perm.swap ..).subperm).run (.add [entry])
    (by simpa [Command.entries] using ofOrdered_entry) hon₃ fun ix' hix' => by
      cases hix'
      change 28 * (named ⟨["."]⟩ ("x", filled)).chunkCount < 2 ^ 32
      rw [chunkCount_filled]
      decide
  exact ⟨d₃, hopened₃, h₃, hb₃.calm hcalm₂, fun file hfile =>
    hb₃.accepts (hb₂.accepts (hb₁.accepts (hy.files file hfile)))⟩

/-- The index `x` with its chunk is merged into the index `y`. -/
lemma exists_opened : ∃ (d : Disk) (ix iy : Index), Opened Entry.OfOrdered d [iy, ix]
    ∧ iy.chunkCount = 1 := by
  obtain ⟨d, hopened, hst, hcalm, hfiles⟩ := exists_filled
  have hsource : ∀ g ∈ [("x", filled)], g ∈ [("x", filled), ("y", wide)] := by simp
  have hcovers : ∀ g ∈ [("x", filled)], wide.range.covers g.2.range = true := by
    intro g hg
    obtain rfl := List.mem_singleton.mp hg
    rfl
  have hsuits := suits_byStart ⟨1⟩ .seconds .newYear
    (fun g hg => (hst.held g (hsource g hg)).sound) hcovers
  have hfew : 28 * (wide.entries ++ (Command.add (SizeTiered.byStart
      (entriesIn [("x", filled)]))).entries).length < 2 ^ 32 := by
    change 28 * (SizeTiered.byStart (entriesIn [("x", filled)])).length < 2 ^ 32
    rw [length_copied]
    decide
  obtain ⟨d', hon, -, -⟩ := hst.exists_on_run (c := wide) hcalm (by simp) hfiles hsuits hfew
  have hcompact := on_compact hst hsource (by simp) (named ⟨["."]⟩ ("y", wide)) hcovers
  have hmerged := (hopened.close (List.Perm.swap ..).subperm).compact
    (List.cons_subset.mpr ⟨List.mem_cons_of_mem _ List.mem_cons_self, List.nil_subset _⟩)
    (hcompact.trans hon) fun ix' hix' => by
      cases hix'
      change 28 * (named ⟨["."]⟩ ("y", merged)).chunkCount < 2 ^ 32
      rw [chunkCount_merged]
      decide
  exact ⟨d', _, _, hmerged, chunkCount_merged ⟨["."]⟩⟩

end Ordered

/-- A chunk that has been merged from one index into another one. -/
theorem ordered_of_opened_merged : ∃ (d : Disk) (ix iy : Index) (es : List Entry),
    Opened Entry.OfOrdered d [iy, ix] ∧ iy.chunkCount = 1 ∧ (chunks iy).on d = (.ok es, d)
      ∧ es.Pairwise (·.min ≤ ·.min) := by
  obtain ⟨d, ix, iy, hopened, hcount⟩ := Ordered.exists_opened
  obtain ⟨-, es, hchunks, hsorted, -⟩ := ordered_of_opened hopened List.mem_cons_self
  exact ⟨d, ix, iy, es, hopened, hcount, hchunks, hsorted⟩

end Index

end SeriesStore
