import SeriesStore.Proofs.Index.Growth

/-!
# Updates of an index

Adding and merging write a new segment file beside the files in use, and then replace the manifest
in one step. Before that step the index holds what it held, and after it the new contents; a file
in use is never touched.
-/

namespace SeriesStore.Index

open SeriesStore.Path SeriesStore.Tree

variable {c c' : Contents} {d₀ d : Disk} {dir : Path} {p : Place} {names : List String}
  {es : List Entry} {target : UInt64}

/-! ### The manifest -/

private lemma mapM_eq_ok_iff {α β ε : Type} {f : α → Except ε β} {xs : List α} {ys : List β} :
    xs.mapM f = .ok ys ↔ List.Forall₂ (fun x y => f x = .ok y) xs ys := by
  induction xs generalizing ys with
  | nil => cases ys <;> simp [pure, Except.pure]
  | cons x xs ih =>
    rw [List.mapM_cons]
    cases hx : f x with
    | error e => simp [List.forall₂_cons_left_iff, hx, bind, Except.bind]
    | ok y =>
      cases hxs : xs.mapM f with
      | error e =>
        have hnot (zs : List β) : ¬List.Forall₂ (fun x y => f x = .ok y) xs zs := fun h => by
          cases hxs.symm.trans (ih.mpr h)
        simp [List.forall₂_cons_left_iff, hnot, bind, Except.bind]
      | ok zs =>
        have hsome (zs' : List β) : List.Forall₂ (fun x y => f x = .ok y) xs zs' ↔ zs = zs' := by
          rw [← ih, hxs, Except.ok.injEq]
        simpa [List.forall₂_cons_left_iff, hx, hsome, bind, Except.bind, pure, Except.pure] using
          eq_comm

/-- The manifest of an index lists the names of its segment files. -/
lemma manifest_eq_ok_iff {ix : Index} {m : Manifest} : ix.manifest = .ok m ↔
    ∃ names, List.Forall₂ (fun s name => s.fileName? = some name) ix.segments names
      ∧ m = ⟨ix.id, ix.range, ix.resolution, ix.createdAt, names, ix.nextSegment⟩ := by
  rw [manifest]
  generalize hr : (List.mapM _ ix.segments : Except IndexFault (List String)) = r
  have hnames (names : List String) : r = .ok names
      ↔ List.Forall₂ (fun s name => s.fileName? = some name) ix.segments names := by
    rw [← hr, mapM_eq_ok_iff]
    constructor <;> refine List.Forall₂.imp ?_ <;> intro s name <;> cases s.fileName? <;> simp
  simp only [← hnames]
  cases r <;> simp [bind, Except.bind, pure, Except.pure, eq_comm]

lemma manifest_index (c : Contents) (dir : Path) : (c.index dir).manifest = .ok c.manifest := by
  refine manifest_eq_ok_iff.mpr ⟨_, ?_, rfl⟩
  rw [Contents.index, List.forall₂_map_left_iff, List.forall₂_map_right_iff, List.forall₂_same]
  exact fun g _ => fileName?_div dir (isName_segmentName g.1)

/-- A manifest can be replaced. -/
structure Replaceable (d₀ : Disk) (dir : Path) (p : Place) : Prop where
  temporary : d₀.Accepts dir p temporaryManifestName
  manifest : d₀.Accepts dir p manifestName

instance (d₀ : Disk) (dir : Path) (p : Place) : Decidable (Replaceable d₀ dir p) :=
  decidable_of_iff (d₀.Accepts dir p temporaryManifestName ∧ d₀.Accepts dir p manifestName)
    ⟨fun h => ⟨h.1, h.2⟩, fun h => ⟨h.temporary, h.manifest⟩⟩

lemma replaceable_congr {d d' : Disk} {dir : Path} {p : Place}
    (h : ∀ name, d'.Accepts dir p name ↔ d.Accepts dir p name) :
    Replaceable d' dir p ↔ Replaceable d dir p :=
  ⟨fun hrep => ⟨(h _).mp hrep.temporary, (h _).mp hrep.manifest⟩,
    fun hrep => ⟨(h _).mpr hrep.temporary, (h _).mpr hrep.manifest⟩⟩

/-- Replacing the manifest changes no other file that stays. When it fails, the old manifest
stays. -/
lemma commit_spec {I : Tree → Prop} {ix : Index} {m : Manifest} (hm : ix.manifest = .ok m)
    (hdir : ix.dir = dir) (names : List String) (hd : d₀.LeadsTo dir p) (hr : d₀.Reached p d)
    (hmem : manifestName ∈ names) (hmem' : temporaryManifestName ∈ names)
    (hI : Ignores I [p ++ [temporaryManifestName]]) (h : I d.tree) :
    (commit ix).Spec d (fun d ch => ch.Within d₀ p names I d) fun r d' =>
      d₀.Reached p d' ∧ match r with
        | .ok _ => Replaceable d₀ dir p
          ∧ d'.tree.node? (p ++ [manifestName]) = some (.file (Bytes.ofText m.toText))
          ∧ ∀ q, q ≠ p ++ [temporaryManifestName] → q ≠ p ++ [manifestName] →
            d'.tree.node? q = d.tree.node? q
        | .error e => I d'.tree ∧ e = .io .other ∧ (d₀.Calm → ¬Replaceable d₀ dir p) := by
  subst hdir
  have hkeep {d' : Disk} (hframe : ∀ q, q ≠ p ++ [temporaryManifestName] →
      d'.tree.node? q = d.tree.node? q) : I d'.tree :=
    hI _ _ (fun q hq => hframe q (by simpa using hq)) h
  simp only [commit, hm]
  refine (DiskM.write_spec hd hr isName_temporaryManifestName hmem' hI h _).bind
    (fun _ d' ⟨hr', hframe, hacc, hfile⟩ => ?_) fun e d' ⟨hr', hframe, he, hblocked⟩ =>
      ⟨hr', hkeep hframe, he, fun hcalm hrep => hblocked hcalm hrep.temporary⟩
  refine (DiskM.rename_spec hd hr' isName_temporaryManifestName isName_manifestName hmem' hmem
    (hkeep hframe) hacc hfile).post fun r d'' ⟨hr'', hout⟩ => ⟨hr'', ?_⟩
  cases r with
  | ok _ =>
    obtain ⟨hacc', hmanifest, hframe'⟩ := hout
    refine ⟨⟨hacc, hacc'⟩, hmanifest, fun q htemp hq => ?_⟩
    rw [hframe' q htemp hq, hframe q htemp]
  | error e =>
    obtain ⟨hsame, he, hblocked⟩ := hout
    exact ⟨hsame ▸ hkeep hframe, he, fun hcalm hrep => hblocked hcalm hrep.manifest⟩

/-- Replacing the manifest makes the new contents those of the index. -/
lemma commit_index_spec {I : Tree → Prop} (names : List String) (hd : d₀.LeadsTo dir p)
    (hr : d₀.Reached p d) (hmem : manifestName ∈ names) (hmem' : temporaryManifestName ∈ names)
    (hI : Ignores I [p ++ [temporaryManifestName]]) (h : I d.tree) (hfiles : c.Files p d.tree) :
    (commit (c.index dir)).Spec d (fun d ch => ch.Within d₀ p names I d) fun r d' =>
      d₀.Reached p d' ∧ match r with
        | .ok _ => c.StandsIn p d'.tree ∧ Replaceable d₀ dir p
        | .error e => I d'.tree ∧ e = .io .other ∧ (d₀.Calm → ¬Replaceable d₀ dir p) := by
  refine (commit_spec (manifest_index c dir) rfl names hd hr hmem hmem' hI h).post
    fun r d' ⟨hr', hout⟩ => ⟨hr', ?_⟩
  cases r with
  | ok _ =>
    obtain ⟨hrep, hmanifest, hframe⟩ := hout
    refine ⟨⟨hmanifest, fun g hg => ?_⟩, hrep⟩
    rw [hframe _ (by simpa using segmentName_ne_temporaryManifestName g.1)
      (by simpa using segmentName_ne_manifestName g.1)]
    exact hfiles g hg
  | error e => exact hout

/-- When the manifest is not replaced, the new segment file is removed again. -/
lemma commitWith_spec {I : Tree → Prop} {name : String} (hd : d₀.LeadsTo dir p)
    (hr : d₀.Reached p d) (hname : IsName name) (hmem : manifestName ∈ names)
    (hmem' : temporaryManifestName ∈ names) (hmem'' : name ∈ names)
    (hI : Ignores I [p ++ [temporaryManifestName]]) (hI' : Ignores I [p ++ [name]]) (h : I d.tree)
    (hfiles : c.Files p d.tree) :
    (commitWith (c.index dir) (dir / name)).Spec d (fun d ch => ch.Within d₀ p names I d)
      fun r d' => d₀.Reached p d' ∧ match r with
        | .ok _ => c.StandsIn p d'.tree ∧ Replaceable d₀ dir p
        | .error e => I d'.tree ∧ e = .io .other ∧ (d₀.Calm → ¬Replaceable d₀ dir p) := by
  refine .tryCatch (commit_index_spec names hd hr hmem hmem' hI h hfiles) (fun _ _ hout => hout)
    fun e d' ⟨hr', h', he, hblocked⟩ => ?_
  refine (DiskM.Spec.attempt (R := fun r d'' => r = .ok () ∧ d₀.Reached p d'' ∧ I d''.tree)
    (DiskM.remove_spec hd hr' hname hmem'' h') fun _ d'' ⟨hr'', hframe⟩ => ⟨rfl, hr'', ?_⟩).bind
    (fun _ d'' ⟨_, hr'', h''⟩ => .of_on (r := .error e) rfl ⟨hr'', h'', he, hblocked⟩)
    fun _ _ ⟨hok, _⟩ => (nomatch hok)
  exact hI' _ _ (fun q hq => hframe q (by simpa using hq)) h'

/-! ### New segments -/

/-- The names of the files that are written when a segment with a number is added. -/
def newNames (number : UInt64) : List String :=
  [segmentName number, temporarySegmentName number, manifestName, temporaryManifestName]

lemma forall_mem_newNames {P : String → Prop} {number : UInt64} :
    (∀ name ∈ newNames number, P name) ↔ P (segmentName number)
      ∧ P (temporarySegmentName number) ∧ P manifestName ∧ P temporaryManifestName := by
  simp [newNames]

lemma segmentName_mem_newNames (number : UInt64) : segmentName number ∈ newNames number := by
  simp [newNames]

lemma temporarySegmentName_mem_newNames (number : UInt64) :
    temporarySegmentName number ∈ newNames number := by
  simp [newNames]

lemma manifestName_mem_newNames (number : UInt64) : manifestName ∈ newNames number := by
  simp [newNames]

lemma temporaryManifestName_mem_newNames (number : UInt64) :
    temporaryManifestName ∈ newNames number := by
  simp [newNames]

/-- The result of putting a new segment into an index on a calm disk. -/
def outcome (d₀ : Disk) (dir : Path) (p : Place) (c c' : Contents) (es : List Entry) :
    Except StorageError Index :=
  match Segment.outcome d₀ dir p (segmentName c.next) (temporarySegmentName c.next) es with
  | .error e => .error e
  | .ok _ => if Replaceable d₀ dir p then .ok (c'.index dir) else .error (.io .other)

lemma outcome_eq_ok (h : ∀ name ∈ newNames c.next, d₀.Accepts dir p name)
    (hfits : Layout.oversized? es = none) :
    outcome d₀ dir p c c' es = .ok (c'.index dir) := by
  obtain ⟨hseg, htemp, hmanifest, htemp'⟩ := forall_mem_newNames.mp h
  have hrep : Replaceable d₀ dir p := ⟨htemp', hmanifest⟩
  simp [outcome, Segment.outcome, hseg, htemp, hfits, hrep]

/-- What is known after a new segment has been put into an index, or has not. -/
structure Installed (d₀ : Disk) (dir : Path) (p : Place) (c c' : Contents) (es : List Entry)
    (r : Except StorageError Index) (d : Disk) : Prop where
  reached : d₀.Reached p d
  ok : ∀ ix, r = .ok ix → ix = c'.index dir ∧ c'.StandsIn p d.tree ∧ c'.FitsIn dir
    ∧ Layout.oversized? es = none
  error : ∀ e, r = .error e → c.StandsIn p d.tree
    ∧ (e = .io .other ∨ ∃ n, e = .invalidIndex (.largeRecord n) ∧ Layout.oversized? es = some n)
  calm : d₀.Calm → r = outcome d₀ dir p c c' es

lemma segmentName_not_mem_newNames {m n : UInt64} (h : m ≠ n) : segmentName m ∉ newNames n := by
  simp only [newNames, List.mem_cons, List.not_mem_nil, or_false, not_or]
  exact ⟨fun heq => h (segmentName_injective heq), segmentName_ne_temporarySegmentName m n,
    segmentName_ne_manifestName m, segmentName_ne_temporaryManifestName m⟩

/-- What a segment file and a new manifest change does not matter to the old contents. -/
lemma Contents.HeldBy.ignores (h : c.HeldBy d₀ dir p) (names : List String)
    (hnames : names ⊆ newNames c.next) (hmanifest : manifestName ∉ names) :
    Ignores (c.StandsIn p) (names.map fun name => p ++ [name]) :=
  Contents.StandsIn.ignores names hmanifest fun _ hg hmem =>
    segmentName_not_mem_newNames (h.sound.next_ne hg) (hnames hmem)

/-- Writes a segment file, and makes an index with it the one of the manifest. -/
def install (path : Path) (es : List Entry) (mk : Segment → Index) : DiskM Index := do
  let s ← Segment.write path es
  (mk s).commitWith path
  return mk s

/-- A new segment is written, and then the manifest is replaced by one that lists it. -/
theorem install_spec (h : c.HeldBy d₀ dir p)
    (hgroups : ∀ g ∈ c'.groups, g = (c.next, es) ∨ g ∈ c.groups) (mk : Segment → Index)
    (hmk : mk (.ofEntries (dir / segmentName c.next) es) = c'.index dir) :
    (install (dir / segmentName c.next) es mk).Spec d₀
      (fun d ch => ch.Within d₀ p (newNames c.next) (c.StandsIn p) d)
      (Installed d₀ dir p c c' es) := by
  have hd := h.leadsTo
  have hseg := isName_segmentName c.next
  have hI : Ignores (c.StandsIn p)
      [p ++ [segmentName c.next], p ++ [temporarySegmentName c.next]] := by
    refine h.ignores [segmentName c.next, temporarySegmentName c.next]
      (by simp [newNames]) ?_
    simp [(segmentName_ne_manifestName _).symm, (temporarySegmentName_ne_manifestName _).symm]
  have hI' : Ignores (c.StandsIn p) [p ++ [temporaryManifestName]] :=
    h.ignores [temporaryManifestName] (by simp [newNames])
      (by simpa using temporaryManifestName_ne_manifestName.symm)
  refine (Segment.write_spec hd (.refl d₀ p) hseg
    (isName_temporarySegmentName _) (temporary_div_segmentName dir c.next)
    (segmentName_mem_newNames _) (temporarySegmentName_mem_newNames _) hI h.stands).bind
    (fun s d' hs => ?_) fun e d' hs => ?_
  · -- the segment stands, but no manifest lists it yet
    obtain ⟨rfl, hfits, -, hacc, hfile⟩ := hs.ok s rfl
    have hfiles : c'.Files p d'.tree := by
      intro g hg
      rcases hgroups g hg with rfl | hg
      · exact hfile
      · exact hs.keeps.files g hg
    rw [hmk]
    refine (commitWith_spec hd hs.reached hseg (manifestName_mem_newNames _)
      (temporaryManifestName_mem_newNames _) (segmentName_mem_newNames _) hI' (hI.mono (by simp))
      hs.keeps hfiles).bind
      (fun _ d'' ⟨hr, hstands, hrep⟩ => ?_) fun e d'' ⟨hr, hstands, he, hblocked⟩ => ?_
    · refine .of_on (r := .ok (c'.index dir)) rfl ⟨hr, fun ix hix => ?_, fun _ he => (nomatch he),
        fun hcalm => ?_⟩
      · cases hix
        refine ⟨rfl, hstands, ⟨hrep.manifest.hasRoom, fun g hg => ?_⟩, hfits⟩
        rcases hgroups g hg with rfl | hg
        · exact hacc.hasRoom
        · exact h.fits.files g hg
      · simp [outcome, ← hs.calm hcalm, hrep]
    · subst he
      refine ⟨hr, fun _ hix => (nomatch hix), fun e he => ?_, fun hcalm => ?_⟩
      · cases he
        exact ⟨hstands, .inl rfl⟩
      · simp [outcome, ← hs.calm hcalm, hblocked hcalm]
  · -- without the segment nothing else is tried
    refine ⟨hs.reached, fun _ hix => (nomatch hix), fun e' he => ?_, fun hcalm => ?_⟩
    · cases he
      exact ⟨hs.keeps, hs.error e rfl⟩
    · simp [outcome, ← hs.calm hcalm]

/-! ### Adding -/

/-- A change leaves alone all files that the contents of an index depend on, and the contents stay
where they are wherever it is cut off. -/
structure Spares (d₀ : Disk) (dir : Path) (p : Place) (c : Contents) (d : Disk) (ch : Change) :
    Prop where
  fits : c.FitsIn dir
  sound : c.Sound
  within : ∃ names, (∀ g ∈ c.groups, segmentName g.1 ∉ names)
    ∧ ch.Within d₀ p names (c.StandsIn p) d

lemma Contents.HeldBy.spares (h : c.HeldBy d₀ dir p) {d : Disk} {ch : Change}
    (hch : ch.Within d₀ p (newNames c.next) (c.StandsIn p) d) : Spares d₀ dir p c d ch :=
  ⟨h.fits, h.sound, newNames c.next,
    fun _ hg => segmentName_not_mem_newNames (h.sound.next_ne hg), hch⟩

/-- An index with a new segment behind the others. -/
def appended (ix : Index) (s : Segment) : Index :=
  { ix with segments := ix.segments ++ [s], nextSegment := ix.nextSegment + 1 }

lemma addChunks_eq_install {ix : Index} (hne : es ≠ [])
    (hcheck : check ix.range ix.lastMin? es = .ok ()) :
    addChunks ix es = install (ix.dir / segmentName ix.nextSegment) es ix.appended := by
  have hempty : es.isEmpty = false := List.isEmpty_eq_false_iff.mpr hne
  simp only [addChunks, hempty, Bool.false_eq_true, if_false, hcheck]
  rfl

lemma on_addChunks_of_error (hne : es ≠ []) {fault : IndexFault}
    (hcheck : check c.range (c.entries.getLast?.map (·.min)) es = .error fault) :
    (addChunks (c.index dir) es).on d = (.error (.invalidIndex fault), d) := by
  have hempty : es.isEmpty = false := List.isEmpty_eq_false_iff.mpr hne
  rw [← Contents.lastMin?_index c dir] at hcheck
  have hrange : (c.index dir).range = c.range := rfl
  simp only [addChunks, hempty, Bool.false_eq_true, if_false, hrange, hcheck]
  rfl

/-- Entries that pass the check are added as one segment, or nothing is added. -/
theorem addChunks_spec (h : c.HeldBy d₀ dir p) (hne : es ≠ [])
    (hcheck : check c.range (c.entries.getLast?.map (·.min)) es = .ok ()) :
    (addChunks (c.index dir) es).Spec d₀ (Spares d₀ dir p c)
      (Installed d₀ dir p c (c.add es) es) := by
  rw [← Contents.lastMin?_index c dir] at hcheck
  have hgroups : ∀ g ∈ (c.add es).groups, g = (c.next, es) ∨ g ∈ c.groups := by
    intro g hg
    simpa [Contents.add, or_comm] using hg
  rw [addChunks_eq_install hne hcheck]
  exact (install_spec h hgroups _
    (by simp [appended, Contents.index, Contents.add, Contents.segment])).mono
    (fun _ _ => h.spares) fun _ _ hout => hout

/-! ### Merging -/

/-- Files of groups that are not in use any more are removed, as far as possible. -/
lemma removeFiles_spec (hd : d₀.LeadsTo dir p) (hr : d₀.Reached p d)
    {groups : List (UInt64 × List Entry)} (hunused : ∀ g ∈ groups, ∀ g' ∈ c.groups, g'.1 ≠ g.1)
    (hfits : c.FitsIn dir) (hsound : c.Sound) (h : c.StandsIn p d.tree) :
    DiskM.Spec ((groups.map (Contents.segment dir)).forM fun s =>
      DiskM.attempt (DiskM.remove s.path)) d (Spares d₀ dir p c)
      fun r d' => r = .ok () ∧ d₀.Reached p d' ∧ c.StandsIn p d'.tree := by
  induction groups generalizing d with
  | nil => exact .of_on (r := .ok ()) rfl ⟨rfl, hr, h⟩
  | cons g groups ih =>
    have hother : ∀ g' ∈ c.groups, segmentName g'.1 ∉ [segmentName g.1] := fun g' hg' hmem =>
      hunused g List.mem_cons_self g' hg' (segmentName_injective (List.mem_singleton.mp hmem))
    have hI : Ignores (c.StandsIn p) [p ++ [segmentName g.1]] :=
      Contents.StandsIn.ignores [segmentName g.1]
        (by simpa using (segmentName_ne_manifestName g.1).symm) hother
    have hremove := (DiskM.remove_spec hd hr (isName_segmentName g.1)
      (List.mem_singleton_self _) h).mono (T := Spares d₀ dir p c)
      (fun _ _ hch => ⟨hfits, hsound, _, hother, hch⟩) fun _ _ hout => hout
    rw [List.map_cons, List.forM]
    refine (hremove.attempt (R := fun r d' => r = .ok () ∧ d₀.Reached p d' ∧ c.StandsIn p d'.tree)
      fun _ d' ⟨hr', hframe⟩ => ⟨rfl, hr', ?_⟩).bind (fun _ d' ⟨_, hr', h'⟩ => ?_)
      fun _ _ ⟨hok, _⟩ => (nomatch hok)
    · exact hI _ _ (fun q hq => hframe q (by simpa using hq)) h
    · exact ih hr' (fun g hg => hunused g (List.mem_cons_of_mem _ hg)) h'

lemma on_forceMerge_zero (ix : Index) :
    (forceMerge ix 0).on d = (.error (.invalidIndex .zeroTarget), d) := rfl

lemma on_forceMerge_of_le {ix : Index} {target : UInt64} (htarget : target ≠ 0)
    (hlen : ix.segments.length ≤ target.toNat) :
    (forceMerge ix target).on d = (.ok (false, ix), d) := by
  simp only [forceMerge, htarget, hlen, if_true, if_false]
  rfl

/-- An index with a new segment in place of the first ones. -/
def replaced (ix : Index) (count : Nat) (s : Segment) : Index :=
  { ix with segments := s :: ix.segments.drop count, nextSegment := ix.nextSegment + 1 }

lemma toNat_target_pos {target : UInt64} (h : target ≠ 0) : 0 < target.toNat :=
  Nat.pos_of_ne_zero fun h0 => h (UInt64.toNat_inj.mp (by simpa using h0))

lemma forceMerge_eq_install {ix : Index} {target : UInt64} (htarget : target ≠ 0)
    (hmore : ¬ix.segments.length ≤ target.toNat) {count : Nat}
    (hcount : count = ix.segments.length - target.toNat + 1) : forceMerge ix target = do
      let merged ← entriesOf (ix.segments.take count)
      let new ← install (ix.dir / segmentName ix.nextSegment) merged (ix.replaced count)
      (ix.segments.take count).forM fun s => DiskM.attempt (DiskM.remove s.path)
      return (true, new) := by
  subst hcount
  simp only [forceMerge, install, htarget, hmore, if_false, bind_assoc, pure_bind]
  rfl

/-- The number of segments that are merged to reach a target. -/
def mergeCount (c : Contents) (target : UInt64) : Nat := c.groups.length - target.toNat + 1

lemma mergeCount_bounds (htarget : target ≠ 0) (hlen : target.toNat < c.groups.length) :
    2 ≤ mergeCount c target ∧ mergeCount c target ≤ c.groups.length := by
  have hpos := toNat_target_pos htarget
  unfold mergeCount
  omega

namespace Contents.HeldBy

/-- The chunks of the first segments are read. -/
lemma on_entriesOf_take (h : c.HeldBy d dir p) (n : Nat) :
    (entriesOf ((c.index dir).segments.take n)).on d
      = (.ok ((c.groups.take n).flatMap Prod.snd), d) := by
  have hfirst : (c.index dir).segments.take n = (c.groups.take n).map (segment dir) :=
    List.map_take.symm
  rw [hfirst]
  exact h.on_entriesOf fun g => List.mem_of_mem_take

/-- A segment with the chunks of the first ones is put in their place. -/
lemma install_merge_spec (h : c.HeldBy d dir p) (n : Nat) :
    (install (dir / segmentName c.next) ((c.groups.take n).flatMap Prod.snd)
        ((c.index dir).replaced n)).Spec d
      (fun d' ch => ch.Within d p (newNames c.next) (c.StandsIn p) d')
      (Installed d dir p c (c.merge n) ((c.groups.take n).flatMap Prod.snd)) := by
  refine install_spec h (fun g hg => ?_) _
    (by simp [replaced, Contents.index, Contents.merge, Contents.segment])
  exact (List.mem_cons.mp hg).imp (fun heq => heq) List.mem_of_mem_drop

/-- A calm disk takes the segment with the chunks of the first ones. -/
lemma exists_on_install_merge (h : c.HeldBy d dir p) (hcalm : d.Calm)
    (hfiles : ∀ file ∈ newNames c.next, d.Accepts dir p file) (n : Nat) :
    ∃ d', (install (dir / segmentName c.next) ((c.groups.take n).flatMap Prod.snd)
        ((c.index dir).replaced n)).on d = (.ok ((c.merge n).index dir), d')
      ∧ d.Reached p d' ∧ (c.merge n).StandsIn p d'.tree ∧ (c.merge n).FitsIn dir := by
  have hout := (h.install_merge_spec n).result
  have hok := (hout.calm hcalm).trans
    (outcome_eq_ok hfiles (h.sound.oversized?_flatMap fun _ => List.mem_of_mem_take))
  obtain ⟨-, hstands, hfits, -⟩ := hout.ok _ hok
  exact ⟨_, Prod.ext hok rfl, hout.reached, hstands, hfits⟩

/-- Once the merged segment is in use, the files of the first ones are removed. -/
lemma remove_merged_spec (h : c.HeldBy d₀ dir p) {n : Nat} (htwo : 2 ≤ n)
    (hlen : n ≤ c.groups.length) (hr : d₀.Reached p d) (hstands : (c.merge n).StandsIn p d.tree)
    (hfits : (c.merge n).FitsIn dir) :
    DiskM.Spec (((c.index dir).segments.take n).forM fun s =>
        DiskM.attempt (DiskM.remove s.path)) d (Spares d₀ dir p (c.merge n))
      fun r d' => r = .ok () ∧ d₀.Reached p d' ∧ (c.merge n).StandsIn p d'.tree := by
  have hunused : ∀ g ∈ c.groups.take n, ∀ g' ∈ (c.merge n).groups, g'.1 ≠ g.1 := by
    intro g hg g' hg'
    rcases List.mem_cons.mp hg' with rfl | hg'
    · exact (h.sound.next_ne (List.mem_of_mem_take hg)).symm
    · have hnodup := h.sound.numbers
      rw [← List.take_append_drop n c.groups, List.map_append] at hnodup
      exact ((List.nodup_append.mp hnodup).2.2 g.1 (List.mem_map_of_mem hg) g'.1
        (List.mem_map_of_mem hg')).symm
  have hfirst : (c.index dir).segments.take n = (c.groups.take n).map (segment dir) :=
    List.map_take.symm
  rw [hfirst]
  exact removeFiles_spec h.leadsTo hr hunused hfits (h.sound.merge htwo hlen) hstands

end Contents.HeldBy

/-- A merge reads the first segments, puts a new one in their place, and removes their files. -/
lemma on_forceMerge (h : c.HeldBy d dir p) (htarget : target ≠ 0)
    (hlen : target.toNat < c.groups.length) : (forceMerge (c.index dir) target).on d = DiskM.on (do
      let new ← install (dir / segmentName c.next)
        ((c.groups.take (mergeCount c target)).flatMap Prod.snd)
        ((c.index dir).replaced (mergeCount c target))
      ((c.index dir).segments.take (mergeCount c target)).forM fun s =>
        DiskM.attempt (DiskM.remove s.path)
      return (true, new)) d := by
  have hsegments : (c.index dir).segments.length = c.groups.length := by simp [Contents.index]
  have hcount : mergeCount c target = (c.index dir).segments.length - target.toNat + 1 := by
    rw [hsegments, mergeCount]
  rw [forceMerge_eq_install htarget (by rw [hsegments]; omega) hcount,
    DiskM.on_bind_ok (h.on_entriesOf_take _)]
  rfl

/-- The first segments are merged into one, or nothing is merged. -/
theorem forceMerge_spec (h : c.HeldBy d₀ dir p) (htarget : target ≠ 0)
    (hlen : target.toNat < c.groups.length) :
    (forceMerge (c.index dir) target).Spec d₀
      (fun d ch => Spares d₀ dir p c d ch ∨ Spares d₀ dir p (c.merge (mergeCount c target)) d ch)
      fun r d => (∀ merged ix, r = .ok (merged, ix) → merged = true)
        ∧ Installed d₀ dir p c (c.merge (mergeCount c target))
          ((c.groups.take (mergeCount c target)).flatMap Prod.snd) (r.map Prod.snd) d := by
  obtain ⟨htwo, hmost⟩ := mergeCount_bounds htarget hlen
  refine .of_on_eq (on_forceMerge h htarget hlen) ?_
  refine ((h.install_merge_spec (mergeCount c target)).mono
    (fun _ _ hch => .inl (h.spares hch)) fun _ _ hout => hout).bind (fun new d hnew => ?_)
    fun e d hnew => ⟨fun _ _ he => (by cases he), hnew.reached, fun _ hix => (by cases hix),
      fun e' he => hnew.error e' ?_, fun hcalm => ?_⟩
  · -- the new segment is in use, whatever becomes of the old files
    obtain ⟨rfl, hstands, hfits, hadd⟩ := hnew.ok new rfl
    refine ((h.remove_merged_spec htwo hmost hnew.reached hstands hfits).mono
      (fun _ _ hch => .inr hch) fun _ _ hout => hout).bind (fun _ d' hremoved => ?_)
      fun _ _ hfailed => (by cases hfailed.1)
    obtain ⟨-, hr, hstands'⟩ := hremoved
    refine .of_on (r := .ok (true, _)) rfl ⟨fun _ _ hout => by cases hout; rfl, hr,
      fun ix hix => ?_, fun _ he => (by cases he), hnew.calm⟩
    cases hix
    exact ⟨rfl, hstands', hfits, hadd⟩
  · -- without it, the old segments are as they were
    cases he
    rfl
  · exact hnew.calm hcalm

/-! ### Making -/

/-- The contents of an index without chunks. -/
def Contents.empty (id : Uid) (range : TimeRange) (resolution : Resolution) (createdAt : Instant) :
    Contents := ⟨id, range, resolution, createdAt, [], 1⟩

lemma Contents.sound_empty (id : Uid) (range : TimeRange) (resolution : Resolution)
    (createdAt : Instant) : (Contents.empty id range resolution createdAt).Sound where
  numbers := .nil
  below _ hg := nomatch hg
  fits _ hg := nomatch hg
  ordered := rfl
  bounded := Nat.le_refl 1
  small := by simp [Contents.entries, Contents.empty]

lemma leadsTo_of_commit {c : Contents} {d d' : Disk}
    (h : (commit (c.index dir)).on d = (.ok (), d')) : ∃ p, d.LeadsTo dir p := by
  simp only [commit, manifest_index] at h
  obtain ⟨_, _, hwrite, -⟩ := DiskM.on_bind_eq_ok h
  obtain ⟨q, _, hask, -⟩ := DiskM.on_bind_eq_ok hwrite
  rw [DiskM.on_ask] at hask
  split at hask
  · next q hlocate =>
    exact Disk.leadsTo_of_locate isName_temporaryManifestName (Disk.locate_of_locateFile hlocate)
  · cases hask

/-- A new index has no chunks. -/
theorem heldBy_of_create {range : TimeRange} {resolution : Resolution} {id : Uid}
    {createdAt : Instant} {d d' : Disk} {ix : Index}
    (h : (create dir range resolution id createdAt).on d = (.ok ix, d')) :
    ix = (Contents.empty id range resolution createdAt).index dir
      ∧ ∃ p, (Contents.empty id range resolution createdAt).HeldBy d' dir p := by
  obtain ⟨_, _, hget, h⟩ := DiskM.on_bind_eq_ok h
  cases hget
  split at h
  · cases h
  · obtain ⟨_, d₁, -, h⟩ := DiskM.on_bind_eq_ok h
    obtain ⟨_, d₂, hcommit, h⟩ := DiskM.on_bind_eq_ok h
    change (commit ((Contents.empty id range resolution createdAt).index dir)).on d₁ = _ at hcommit
    obtain ⟨p, hp⟩ := leadsTo_of_commit hcommit
    have hspec := (commit_index_spec [manifestName, temporaryManifestName] (I := fun _ => True)
      (c := Contents.empty id range resolution createdAt) hp (.refl d₁ p) (by simp) (by simp)
      (fun _ _ _ _ => trivial) trivial (fun _ hg => nomatch hg)).result
    rw [hcommit] at hspec
    obtain ⟨hr, hstands, hrep⟩ := hspec
    cases h
    exact ⟨rfl, p, hr.leadsTo hp, hstands, ⟨hrep.manifest.hasRoom, fun _ hg => nomatch hg⟩,
      Contents.sound_empty id range resolution createdAt⟩

end SeriesStore.Index
