import SeriesStore.Proofs.Compaction.Cycles

/-!
# Units of time

The timestamps of an index are numbers in a unit of its own. A merge into a new index takes over the
numbers of all planned indexes, but the unit of the first one only.
-/

namespace SeriesStore

namespace Index

/-- The chunks of some indexes, each with the unit of the index that holds it. -/
def chunksInUnits (ixs : List Index) : DiskM (List (Resolution × Entry)) := do
  return (← ixs.mapM fun ix => do return (← chunks ix).map (ix.resolution, ·)).flatten

/-- All chunks in a data directory, each with the unit of the index that holds it. -/
def storedInUnits (dataDir : Path) : DiskM (List (Resolution × Entry)) := do
  chunksInUnits (← load dataDir)

/-- What an index holds on a disk. -/
def entriesOn (d : Disk) (ix : Index) : List Entry :=
  match ((chunks ix).on d).1 with
  | .ok es => es
  | .error _ => []

/-- What some indexes hold on a disk, each chunk with its unit. -/
def inUnits (d : Disk) (ixs : List Index) : List (Resolution × Entry) :=
  ixs.flatMap fun ix => (entriesOn d ix).map (ix.resolution, ·)

variable {d d' : Disk} {dir : Path} {p : Place} {cs : List (String × Contents)} {ix : Index}
  {ixs : List Index} {es : List Entry}

lemma entriesOn_eq (h : (chunks ix).on d = (.ok es, d)) : entriesOn d ix = es := by
  rw [entriesOn, h]

lemma inUnits_append (d : Disk) (ixs ixs' : List Index) :
    inUnits d (ixs ++ ixs') = inUnits d ixs ++ inUnits d ixs' := List.flatMap_append

lemma on_chunksInUnits (h : ∀ ix ∈ ixs, (chunks ix).on d = (.ok (entriesOn d ix), d)) :
    (chunksInUnits ixs).on d = (.ok (inUnits d ixs), d) := by
  have hread : ∀ ix ∈ ixs, ((do return (← chunks ix).map (ix.resolution, ·)) :
      DiskM (List (Resolution × Entry))).on d
        = (.ok ((entriesOn d ix).map (ix.resolution, ·)), d) := by
    intro ix hix
    exact DiskM.on_bind_ok (h ix hix)
  rw [chunksInUnits, DiskM.on_bind_ok (DiskM.on_mapM hread), inUnits, List.flatMap_def]
  rfl

/-- What indexes with some contents hold, each chunk with its unit. -/
def entriesInUnits (cs : List (String × Contents)) : List (Resolution × Entry) :=
  cs.flatMap fun g => g.2.entries.map (g.2.resolution, ·)

/-- All indexes that are found can be read. -/
lemma Stocked.on_chunks_of_load (h : Stocked d dir p cs) (hload : (load dir).on d = (.ok ixs, d)) :
    ∀ ix ∈ ixs, (chunks ix).on d = (.ok (entriesOn d ix), d) := by
  obtain ⟨gs, hload', hgs⟩ := h.on_load
  cases hload.symm.trans hload'
  intro ix hix
  obtain ⟨g, hg, rfl⟩ := List.mem_map.mp hix
  have hread := h.on_chunks (hgs.mem_iff.mp hg)
  rw [hread, entriesOn_eq hread]

lemma Stocked.on_storedInUnits (h : Stocked d dir p cs) (hload : (load dir).on d = (.ok ixs, d)) :
    (storedInUnits dir).on d = (.ok (inUnits d ixs), d) := by
  rw [storedInUnits, DiskM.on_bind_ok hload]
  exact on_chunksInUnits (h.on_chunks_of_load hload)

lemma Stocked.on_chunksInUnits (h : Stocked d dir p cs) {l : List (String × Contents)}
    (hl : ∀ g ∈ l, g ∈ cs) :
    (chunksInUnits (l.map (named dir))).on d = (.ok (entriesInUnits l), d) := by
  have hsame : inUnits d (l.map (named dir)) = entriesInUnits l := by
    rw [inUnits, List.flatMap_map]
    refine List.flatMap_congr ?_
    intro g hg
    rw [entriesOn_eq (h.on_chunks (hl g hg))]
    rfl
  rw [← hsame]
  refine Index.on_chunksInUnits ?_
  intro ix hix
  obtain ⟨g, hg, rfl⟩ := List.mem_map.mp hix
  have hread := h.on_chunks (hl g hg)
  rw [hread, entriesOn_eq hread]

end Index

open Index

/-- The unit of a chunk after the index that holds it has been planned, and merged. -/
def Strategy.unitAfter (s : Strategy) (planned : List Index) (unit : Resolution) : Resolution :=
  match s, planned with
  | sizeTiered _, first :: _ => first.resolution
  | _, _ => unit

namespace Engine

variable {d d' : Disk} {dir : Path} {e : Engine} {o : Origin} {p : Place}
  {cs cs' : List (String × Contents)} {planned new others : List Index}
  {moved stay before after : List (Resolution × Entry)} {runs : List (Engine × Origin)}
  {outs : List CycleOutcome}

/-! ### One cycle -/

/-- A cycle gives one unit to all chunks of the planned indexes, and keeps those of all others. -/
structure Relabels (e : Engine) (d d' : Disk) (planned : List Index)
    (moved stay before after : List (Resolution × Entry)) : Prop where
  plan : e.plan.on d = (.ok planned, d)
  chunks : (chunksInUnits planned).on d = (.ok moved, d)
  units : ∀ c ∈ moved, ∃ ix ∈ planned, ix.resolution = c.1
  storedBefore : (storedInUnits e.dataDir).on d = (.ok before, d) ∧ before.Perm (moved ++ stay)
  storedAfter : (storedInUnits e.dataDir).on d' = (.ok after, d')
    ∧ after.Perm (moved.map (fun c => (e.strategy.unitAfter planned c.1, c.2)) ++ stay)

/-- The units are kept exactly if all chunks that are moved have had the unit that they get. -/
lemma Relabels.perm_iff (h : Relabels e d d' planned moved stay before after) :
    after.Perm before ↔ ∀ c ∈ moved, e.strategy.unitAfter planned c.1 = c.1 := by
  rw [h.storedAfter.2.congr_left, h.storedBefore.2.congr_right, List.perm_append_right_iff]
  constructor
  · intro hperm c hc
    -- what has its unit after the move would keep it in another one
    obtain ⟨c', -, hc'⟩ := List.mem_map.mp (hperm.mem_iff.mpr hc)
    rw [← hc']
    generalize e.strategy = s
    cases s with
    | sizeTiered s => cases planned <;> rfl
    | forceMerge s => rfl
    | noop => rfl
  · intro hsame
    refine .of_eq ((List.map_congr_left ?_).trans (List.map_id moved))
    intro c hc
    exact Prod.ext (hsame c hc) rfl

/-- Indexes that are all in one unit keep it. -/
lemma Relabels.perm (h : Relabels e d d' planned moved stay before after)
    (hone : ∀ a ∈ planned, ∀ b ∈ planned, a.resolution = b.resolution) : after.Perm before := by
  refine h.perm_iff.mpr ?_
  intro c hc
  obtain ⟨ix, hix, hunit⟩ := h.units c hc
  obtain ⟨first, more, rfl⟩ := List.exists_cons_of_ne_nil (List.ne_nil_of_mem hix)
  generalize e.strategy = s
  cases s with
  | sizeTiered s => exact (hone first List.mem_cons_self ix hix).trans hunit
  | forceMerge s => rfl
  | noop => rfl

/-- What replaces the planned indexes holds their chunks, all in one unit. -/
lemma Replaced.inUnits_perm {s : Strategy} (h : Replaced dir o d d' s planned new)
    (hread : ∀ ix ∈ planned, (Index.chunks ix).on d = (.ok (entriesOn d ix), d)) :
    (inUnits d' new).Perm
      ((inUnits d planned).map fun c => (s.unitAfter planned c.1, c.2)) := by
  cases h with
  | nothing s => exact .nil
  | @sizeTiered s first new more sources es hidentity hrange hread' hchunks harranged =>
    cases (DiskM.on_mapM hread).symm.trans hread'
    calc inUnits d' [new] = es.map (first.resolution, ·) := by
          simp [inUnits, entriesOn_eq hchunks, hidentity.2.2.1]
      _ |>.Perm (((first :: more).map (entriesOn d)).flatten.map (first.resolution, ·)) :=
          harranged.perm.map _
      _ = _ := by
          simp [inUnits, Strategy.unitAfter, List.flatMap_def, List.map_flatten,
            Function.comp_def]
  | @forceMerge s old new es hidentity hread' hchunks hsegments =>
    refine .of_eq ?_
    simp [inUnits, entriesOn_eq hchunks, entriesOn_eq hread', hidentity.2.2.2.1, Strategy.unitAfter]

lemma Exchanged.relabels (hx : Exchanged e o d d' planned new others)
    (h : Stocked d e.dataDir p cs) (h' : Stocked d' e.dataDir p cs') :
    ∃ moved stay before after, Relabels e d d' planned moved stay before after := by
  obtain ⟨ixs, hload, hperm⟩ := hx.before
  obtain ⟨ixs', hload', hperm'⟩ := hx.after
  have hread : ∀ ix ∈ planned, (Index.chunks ix).on d = (.ok (entriesOn d ix), d) := by
    intro ix hix
    exact h.on_chunks_of_load hload ix (hperm.mem_iff.mpr (List.mem_append_left _ hix))
  have hstay : inUnits d' others = inUnits d others := by
    refine List.flatMap_congr ?_
    intro ix hix
    obtain ⟨es, hbefore, hafter⟩ := hx.kept ix hix
    rw [entriesOn_eq hbefore, entriesOn_eq hafter]
  refine ⟨inUnits d planned, inUnits d others, _, _, hx.plan, on_chunksInUnits hread, ?_,
    ⟨h.on_storedInUnits hload, ?_⟩, h'.on_storedInUnits hload', ?_⟩
  · intro c hc
    obtain ⟨ix, hix, hc⟩ := List.mem_flatMap.mp hc
    obtain ⟨entry, -, rfl⟩ := List.mem_map.mp hc
    exact ⟨ix, hix, rfl⟩
  · rw [← inUnits_append]
    exact hperm.flatMap_right _
  · calc (inUnits d' ixs').Perm (inUnits d' (new ++ others)) := hperm'.flatMap_right _
      _ = inUnits d' new ++ inUnits d others := by rw [inUnits_append, hstay]
      _ |>.Perm _ := (hx.replaced.inUnits_perm hread).append_right _

/-- A cycle that succeeds, where the data directory is still found, relabels chunks. -/
lemma relabels_of_on_cycle (h : Stocked d e.dataDir p cs)
    (hsmall : 28 * (entriesIn cs).length < 2 ^ 32) {out : CycleOutcome}
    (hon : (e.cycle o).on d = (.ok out, d')) (hdir : d'.isDir e.dataDir = true) :
    ∃ cs', Stocked d' e.dataDir p cs' ∧ (entriesIn cs').Perm (entriesIn cs)
      ∧ ∃ planned moved stay before after, Relabels e d d' planned moved stay before after := by
  obtain ⟨cs', h', hperm, planned, new, others, hx⟩ := exchanged_of_on_cycle h hsmall hon hdir
  obtain ⟨moved, stay, before, after, hrelabels⟩ := hx.relabels h h'
  exact ⟨cs', h', hperm, planned, moved, stay, before, after, hrelabels⟩

/-! ### Cycles one after the other -/

/-- Whatever is planned along several cycles is in one unit each time. -/
def OneUnit : List (Engine × Origin) → Disk → Prop
  | [], _ => True
  | (e, o) :: runs, d =>
    (∀ planned, e.plan.on d = (.ok planned, d) →
      ∀ a ∈ planned, ∀ b ∈ planned, a.resolution = b.resolution)
    ∧ OneUnit runs ((e.cycle o).on d).2

lemma perm_of_oneUnit (h : Stocked d dir p cs) (hsmall : 28 * (entriesIn cs).length < 2 ^ 32)
    (hdirs : ∀ run ∈ runs, run.1.dataDir = dir) (hruns : (cycles runs).on d = (.ok outs, d'))
    (hfound : d'.isDir dir = true) (hone : OneUnit runs d) :
    ∃ before after, (storedInUnits dir).on d = (.ok before, d)
      ∧ (storedInUnits dir).on d' = (.ok after, d') ∧ after.Perm before := by
  induction runs generalizing d cs outs with
  | nil =>
    cases hruns
    obtain ⟨gs, hload, -⟩ := h.on_load
    exact ⟨_, _, h.on_storedInUnits hload, h.on_storedInUnits hload, .refl _⟩
  | cons run runs ih =>
    obtain ⟨out, d₁, outs', hrun, hdir, hrest⟩ := on_cycles_cons_of_isDir hdirs hruns hfound
    obtain rfl := hdirs run List.mem_cons_self
    obtain ⟨hplanned, hone⟩ := hone
    rw [hrun] at hone
    obtain ⟨cs₁, h₁, hperm₁, planned, moved, stay, before, between, hrelabels⟩ :=
      relabels_of_on_cycle h hsmall hrun hdir
    obtain ⟨between', after, hbetween, hafter, hperm⟩ := ih h₁ (by rwa [hperm₁.length_eq])
      (fun run' hmem => hdirs run' (List.mem_cons_of_mem _ hmem)) hrest hone
    cases hbetween.symm.trans hrelabels.storedAfter.1
    exact ⟨before, after, hrelabels.storedBefore.1, hafter,
      hperm.trans (hrelabels.perm (hplanned planned hrelabels.plan))⟩

/-- Cycles keep the units of all chunks as long as each plan has one unit. In any case a cycle
changes no units but those of the planned indexes, all to the unit of the first of them, and keeps
the units exactly if no chunk among them has had another one. -/
theorem cycles_keep_units {accepted : List Entry} (hbuilt : Built dir d accepted)
    (hsmall : 28 * accepted.length < 2 ^ 32) (hdirs : ∀ run ∈ runs, run.1.dataDir = dir)
    (hruns : (cycles runs).on d = (.ok outs, d')) (hfound : d'.isDir dir = true) :
    (OneUnit runs d → ∃ before after, (storedInUnits dir).on d = (.ok before, d)
      ∧ (storedInUnits dir).on d' = (.ok after, d') ∧ after.Perm before)
    ∧ ∀ (e : Engine) (o : Origin) out d'', e.dataDir = dir → (e.cycle o).on d' = (.ok out, d'') →
      d''.isDir dir = true → ∃ planned moved stay before after,
        Relabels e d' d'' planned moved stay before after
        ∧ (after.Perm before ↔ ∀ c ∈ moved, e.strategy.unitAfter planned c.1 = c.1) := by
  obtain ⟨p, cs, h, hperm⟩ := hbuilt.stocked hsmall
  rw [← hperm.length_eq] at hsmall
  refine ⟨perm_of_oneUnit h hsmall hdirs hruns hfound, ?_⟩
  rintro e o out d'' rfl hcycle hdir
  obtain ⟨cs', h', hperm'⟩ := stocked_of_cycles h hsmall hdirs hruns hfound
  obtain ⟨-, -, -, planned, moved, stay, before, after, hrelabels⟩ :=
    relabels_of_on_cycle h' (by rwa [hperm'.length_eq]) hcycle hdir
  exact ⟨planned, moved, stay, before, after, hrelabels, hrelabels.perm_iff⟩

/-- Two overlapping indexes in the same unit are merged. -/
theorem cycles_keep_units_overlap : ∃ (d d' : Disk) (outs : List CycleOutcome),
    Built ⟨["."]⟩ d [Overlap.chunk]
    ∧ (cycles [(Overlap.engine ⟨["."]⟩, Overlap.origin)]).on d = (.ok outs, d')
    ∧ OneUnit [(Overlap.engine ⟨["."]⟩, Overlap.origin)] d
    ∧ (∃ before after, (storedInUnits ⟨["."]⟩).on d = (.ok before, d)
      ∧ (storedInUnits ⟨["."]⟩).on d' = (.ok after, d') ∧ after.Perm before) := by
  obtain ⟨d, d', out, -, hbuilt, hst, hcycle, hdir⟩ := Overlap.exists_on_merged .seconds
  have hone : OneUnit [(Overlap.engine ⟨["."]⟩, Overlap.origin)] d := by
    refine ⟨?_, trivial⟩
    intro planned hplan
    cases hplan.symm.trans (Overlap.on_plan hst)
    have hseconds : ∀ ix ∈ [("y", Overlap.earlier .seconds),
        ("x", (Command.add [Overlap.chunk]).result Overlap.later)].map (named ⟨["."]⟩),
        ix.resolution = .seconds := by
      intro ix hix
      simp only [List.map_cons, List.map_nil, List.mem_cons, List.not_mem_nil, or_false] at hix
      rcases hix with rfl | rfl <;> rfl
    intro a ha b hb
    rw [hseconds a ha, hseconds b hb]
  have hcycles : (cycles [(Overlap.engine ⟨["."]⟩, Overlap.origin)]).on d = (.ok [out], d') :=
    on_cycles_single hcycle
  refine ⟨d, d', [out], hbuilt, hcycles, hone, ?_⟩
  exact (cycles_keep_units hbuilt (by decide)
    (fun run hrun => by rw [List.mem_singleton.mp hrun]; rfl) hcycles hdir).1 hone

/-- Of two overlapping indexes in different units the one that begins later has a chunk. A cycle
that succeeds turns its seconds into milliseconds. -/
theorem cycles_mix_units : ∃ (d d' : Disk) (outs : List CycleOutcome),
    (Overlap.makeIn .milliseconds ⟨["."]⟩).on Overlap.start = (.ok (), d)
    ∧ Built ⟨["."]⟩ d [Overlap.chunk]
    ∧ (cycles [(Overlap.engine ⟨["."]⟩, Overlap.origin)]).on d = (.ok outs, d')
    ∧ (storedInUnits ⟨["."]⟩).on d = (.ok [(.seconds, Overlap.chunk)], d)
    ∧ (storedInUnits ⟨["."]⟩).on d' = (.ok [(.milliseconds, Overlap.chunk)], d') := by
  obtain ⟨d, d', out, hmake, hbuilt, hst, hcycle, hdir⟩ := Overlap.exists_on_merged .milliseconds
  obtain ⟨-, -, -, planned, moved, stay, before, after, h⟩ :=
    relabels_of_on_cycle (e := Overlap.engine ⟨["."]⟩) hst
      (show 28 * [Overlap.chunk].length < 2 ^ 32 by decide) hcycle hdir
  cases h.plan.symm.trans (Overlap.on_plan hst)
  obtain ⟨gs, hload, hgs⟩ := hst.on_load
  -- what is moved is all that is there
  have hmoved : moved = [(.seconds, Overlap.chunk)] := by
    have hchunks := hst.on_chunksInUnits (l := [("y", Overlap.earlier .milliseconds),
      ("x", (Command.add [Overlap.chunk]).result Overlap.later)]) (by simp)
    cases h.chunks.symm.trans hchunks
    rfl
  have hbefore : before = [(.seconds, Overlap.chunk)] := by
    have hstored : (storedInUnits ⟨["."]⟩).on d = (.ok (entriesInUnits gs), d) := by
      rw [storedInUnits, DiskM.on_bind_ok hload]
      exact hst.on_chunksInUnits fun g hg => hgs.mem_iff.mp hg
    cases h.storedBefore.1.symm.trans hstored
    exact List.perm_singleton.mp (hgs.flatMap_right _)
  have hbeforePerm := h.storedBefore.2
  have hafterPerm := h.storedAfter.2
  have hstay : stay = [] := by
    simpa [hmoved, hbefore] using hbeforePerm.length_eq
  rw [hmoved, hstay] at hafterPerm
  have hafter : after = [(.milliseconds, Overlap.chunk)] := List.perm_singleton.mp hafterPerm
  rw [← hbefore, ← hafter]
  exact ⟨d, d', [out], hmake, hbuilt, on_cycles_single hcycle, h.storedBefore.1, h.storedAfter.1⟩

end Engine

end SeriesStore
