import SeriesStore.Proofs.Index.Making

/-!
# Histories of an index

Whatever is done with an index, and whatever fails, it holds the batches that it has accepted, one
behind the other.
-/

namespace SeriesStore.Index

variable {c : Contents} {d₀ : Disk} {dir : Path} {p : Place}

/-- What can be done with an index. -/
inductive Command
  | add (entries : List Entry)
  | merge (target : UInt64)
  /-- The open index is dropped, and its directory opened again. -/
  | reopen

namespace Command

/-- Carries out a command. The result is the index that is open from then on. -/
def run (ix : Index) : Command → DiskM Index
  | add es => ix.addChunks es
  | merge target => do return (← ix.forceMerge target).2
  | reopen => Index.open ix.dir

/-- The entries that a command adds. -/
def entries : Command → List Entry
  | add es => es
  | merge _ | reopen => []

/-- The contents after a command. -/
def result (c : Contents) : Command → Contents
  | add es => if es.isEmpty then c else c.add es
  | merge target =>
    if c.groups.length ≤ target.toNat then c else c.merge (mergeCount c target)
  | reopen => c

/-- Whether a command suits the contents of an index. -/
def Suits (c : Contents) : Command → Prop
  | add es => es ≠ [] → check c.range (c.entries.getLast?.map (·.min)) es = .ok ()
    ∧ Layout.oversized? es = none
  | merge target => target ≠ 0
  | reopen => True

/-- The result of a command on a calm disk. -/
def outcome (d₀ : Disk) (dir : Path) (p : Place) (c : Contents) :
    Command → Except StorageError Index
  | add es =>
    if es.isEmpty then .ok (c.index dir)
    else
      match check c.range (c.entries.getLast?.map (·.min)) es with
      | .error fault => .error (.invalidIndex fault)
      | .ok () => Index.outcome d₀ dir p c (c.add es) es
  | merge target =>
    if target = 0 then .error (.invalidIndex .zeroTarget)
    else if c.groups.length ≤ target.toNat then .ok (c.index dir)
    else Index.outcome d₀ dir p c (c.merge (mergeCount c target))
      ((c.groups.take (mergeCount c target)).flatMap Prod.snd)
  | reopen => .ok (c.index dir)

/-- What is known after a command. -/
structure Ran (d₀ : Disk) (dir : Path) (p : Place) (c : Contents) (cmd : Command)
    (r : Except StorageError Index) (d : Disk) : Prop where
  reached : d₀.Reached p d
  ok : ∀ ix, r = .ok ix → ix = (cmd.result c).index dir ∧ (cmd.result c).StandsIn p d.tree
    ∧ (cmd.result c).FitsIn dir ∧ cmd.Suits c
  error : ∀ e, r = .error e → c.StandsIn p d.tree ∧ cmd ≠ reopen ∧ (cmd.Suits c → e = .io .other)
  calm : d₀.Calm → r = cmd.outcome d₀ dir p c

lemma Ran.of_ok (h : c.HeldBy d₀ dir p) {cmd : Command} (hresult : cmd.result c = c)
    (hsuits : cmd.Suits c) (houtcome : cmd.outcome d₀ dir p c = .ok (c.index dir)) :
    Ran d₀ dir p c cmd (.ok (c.index dir)) d₀ where
  reached := .refl d₀ p
  ok ix hix := by
    cases hix
    rw [hresult]
    exact ⟨rfl, h.stands, h.fits, hsuits⟩
  error _ he := nomatch he
  calm _ := houtcome.symm

lemma Ran.of_error (h : c.HeldBy d₀ dir p) {cmd : Command} {e : StorageError}
    (hcmd : cmd ≠ reopen) (hsuits : ¬cmd.Suits c) (houtcome : cmd.outcome d₀ dir p c = .error e) :
    Ran d₀ dir p c cmd (.error e) d₀ where
  reached := .refl d₀ p
  ok _ hix := nomatch hix
  error _ _ := ⟨h.stands, hcmd, fun hsuits' => absurd hsuits' hsuits⟩
  calm _ := houtcome.symm

/-- What is known of a command that puts a new segment into an index. -/
lemma Ran.of_installed {cmd : Command} {es : List Entry} {r : Except StorageError Index} {d : Disk}
    (h : Installed d₀ dir p c (cmd.result c) es r d) (hcmd : cmd ≠ reopen)
    (hsuits : Layout.oversized? es = none ↔ cmd.Suits c)
    (houtcome : cmd.outcome d₀ dir p c = Index.outcome d₀ dir p c (cmd.result c) es) :
    Ran d₀ dir p c cmd r d where
  reached := h.reached
  ok ix hix := by
    obtain ⟨hindex, hstands, hfits, hsize⟩ := h.ok ix hix
    exact ⟨hindex, hstands, hfits, hsuits.mp hsize⟩
  error e he := by
    obtain ⟨hstands, hio | ⟨n, -, hlarge⟩⟩ := h.error e he
    · exact ⟨hstands, hcmd, fun _ => hio⟩
    · refine ⟨hstands, hcmd, fun hsuited => ?_⟩
      cases hlarge.symm.trans (hsuits.mpr hsuited)
  calm hcalm := (h.calm hcalm).trans houtcome.symm

/-- A command leaves the contents of an index as they are, or makes them those that it stands
for. -/
theorem run_spec (h : c.HeldBy d₀ dir p) (cmd : Command) :
    (cmd.run (c.index dir)).Spec d₀
      (fun d ch => Spares d₀ dir p c d ch ∨ Spares d₀ dir p (cmd.result c) d ch)
      (Ran d₀ dir p c cmd) := by
  cases cmd with
  -- an empty batch and one that fails the check change nothing
  | add es =>
    by_cases hempty : es.isEmpty = true
    · have hes : es = [] := List.isEmpty_iff.mp hempty
      subst hes
      exact .of_on (r := .ok (c.index dir)) rfl
        (.of_ok h rfl (fun hne => absurd rfl hne) rfl)
    · have hne : es ≠ [] := fun hes => hempty (List.isEmpty_iff.mpr hes)
      cases hcheck : check c.range (c.entries.getLast?.map (·.min)) es with
      | error fault =>
        refine .of_on (on_addChunks_of_error hne hcheck)
          (.of_error h (by simp) (fun hsuits => ?_) ?_)
        · cases hcheck.symm.trans (hsuits hne).1
        · simp [outcome, hempty, hcheck]
      | ok _ =>
        have hresult : (add es).result c = c.add es := if_neg hempty
        refine (addChunks_spec h hne hcheck).mono (fun _ _ => .inl) fun r d hr => ?_
        rw [← hresult] at hr
        refine .of_installed hr (by simp) ?_ ?_
        · exact ⟨fun hsize _ => ⟨hcheck, hsize⟩, fun hsuits => (hsuits hne).2⟩
        · simp [outcome, hempty, hcheck, hresult]
  | merge target =>
    by_cases htarget : target = 0
    · subst htarget
      refine .of_on (r := .error (.invalidIndex .zeroTarget)) ?_
        (.of_error h (by simp) (fun hsuits => hsuits rfl) rfl)
      exact DiskM.on_bind_error (on_forceMerge_zero _)
    · by_cases hlen : c.groups.length ≤ target.toNat
      · refine .of_on (r := .ok (c.index dir)) ?_ (.of_ok h (if_pos hlen) htarget ?_)
        · exact DiskM.on_bind_ok
            (on_forceMerge_of_le htarget (by simpa [Contents.index] using hlen))
        · simp [outcome, htarget, hlen]
      · -- otherwise the first segments really are merged
        have hresult : (merge target).result c = c.merge (mergeCount c target) := if_neg hlen
        have hsize : Layout.oversized? ((c.groups.take (mergeCount c target)).flatMap Prod.snd)
            = none := h.sound.oversized?_flatMap fun _ => List.mem_of_mem_take
        have hran {r : Except StorageError Index} {d : Disk} (hr : Installed d₀ dir p c
            (c.merge (mergeCount c target))
            ((c.groups.take (mergeCount c target)).flatMap Prod.snd) r d) :
            Ran d₀ dir p c (merge target) r d :=
          .of_installed (by rwa [hresult]) (by simp) (iff_of_true hsize htarget)
            (by simp [outcome, htarget, hlen, hresult])
        rw [hresult]
        exact (forceMerge_spec h htarget (by omega)).bind
          (fun x _ hmerged => .of_on (r := .ok x.2) rfl (hran hmerged.2))
          fun _ _ hfailed => hran hfailed.2
  | reopen => exact .of_on h.on_open (.of_ok h rfl trivial rfl)

/-- On a calm disk that takes the files, every command that suits the contents succeeds. -/
theorem outcome_eq_ok (h : c.Sound) (hroom : ∀ name ∈ newNames c.next, d₀.Accepts dir p name)
    {cmd : Command} (hsuits : cmd.Suits c) :
    cmd.outcome d₀ dir p c = .ok ((cmd.result c).index dir) := by
  cases cmd with
  | add es =>
    simp only [outcome, result]
    split_ifs with hempty
    · rfl
    · obtain ⟨hcheck, hfits⟩ := hsuits fun hes => hempty (List.isEmpty_iff.mpr hes)
      rw [hcheck]
      exact Index.outcome_eq_ok hroom hfits
  | merge target =>
    have htarget : target ≠ 0 := hsuits
    simp only [outcome, result, if_neg htarget]
    split_ifs
    · rfl
    · exact Index.outcome_eq_ok hroom (h.oversized?_flatMap fun g => List.mem_of_mem_take)
  | reopen => rfl

/-! ### Contents after a command -/

lemma entries_result (c : Contents) (cmd : Command) :
    (cmd.result c).entries = c.entries ++ cmd.entries := by
  cases cmd with
  | add es =>
    simp only [result, entries]
    split_ifs with hempty
    · simp [List.isEmpty_iff.mp hempty]
    · exact Contents.entries_add c es
  | merge target =>
    simp only [result, entries, List.append_nil]
    split_ifs
    · rfl
    · exact Contents.entries_merge c _
  | reopen => exact (List.append_nil _).symm

lemma length_groups_result_merge (c : Contents) {target : UInt64} (htarget : target ≠ 0) :
    ((merge target).result c).groups.length = min c.groups.length target.toNat := by
  have hpos := toNat_target_pos htarget
  simp only [result]
  split_ifs with hlen
  · omega
  · rw [Contents.length_groups_merge, mergeCount]
    omega

lemma sound_result (h : c.Sound) {cmd : Command} (hsuits : cmd.Suits c)
    (hsmall : 28 * (c.entries ++ cmd.entries).length < 2 ^ 32) : (cmd.result c).Sound := by
  cases cmd with
  | add es =>
    simp only [result]
    split_ifs with hempty
    · exact h
    · have hne : es ≠ [] := fun hes => hempty (List.isEmpty_iff.mpr hes)
      exact h.add hne (hsuits hne).1 (hsuits hne).2 hsmall
  | merge target =>
    have hpos := toNat_target_pos hsuits
    simp only [result]
    split_ifs
    · exact h
    · exact h.merge (by simp only [mergeCount]; omega) (by simp only [mergeCount]; omega)
  | reopen => exact h

/-- No command changes what makes an index different from others. -/
lemma identity_result (c : Contents) (cmd : Command) :
    (cmd.result c).identity = c.identity := by
  cases cmd with
  | add es =>
    simp only [result]
    split_ifs <;> rfl
  | merge target =>
    simp only [result]
    split_ifs <;> rfl
  | reopen => rfl

/-- The contents after a command with some result. -/
def settle (c : Contents) (cmd : Command) : Except StorageError Index → Contents
  | .ok _ => cmd.result c
  | .error _ => c

lemma identity_settle (c : Contents) (cmd : Command) (r : Except StorageError Index) :
    (cmd.settle c r).identity = c.identity := by
  cases r with
  | ok _ => exact identity_result c cmd
  | error _ => rfl

end Command

/-! ### Sessions -/

/-- An open index on a disk, with the entries of all batches that were accepted so far. -/
structure Session where
  disk : Disk
  index : Index
  accepted : List Entry := []

namespace Session

/-- The session after a command. A command that fails has no effect but on the disk. -/
def step (s : Session) (cmd : Command) : Session :=
  match (cmd.run s.index).on s.disk with
  | (.ok ix, d) => ⟨d, ix, s.accepted ++ cmd.entries⟩
  | (.error _, d) => { s with disk := d }

/-- The session after several commands. -/
def run (s : Session) (cmds : List Command) : Session := cmds.foldl step s

lemma run_nil (s : Session) : s.run [] = s := rfl

lemma run_cons (s : Session) (cmd : Command) (cmds : List Command) :
    s.run (cmd :: cmds) = (s.step cmd).run cmds := rfl

/-- The open index is the one that the disk holds, and holds what was accepted. -/
structure Holds (s : Session) (c : Contents) (dir : Path) (p : Place) : Prop where
  index : s.index = c.index dir
  held : c.HeldBy s.disk dir p
  accepted : c.entries = s.accepted

variable {s : Session}

lemma Holds.accepted_step (h : s.Holds c dir p) (cmd : Command) :
    (s.step cmd).accepted = (cmd.settle c ((cmd.run s.index).on s.disk).1).entries := by
  simp only [Session.step]
  rcases (cmd.run s.index).on s.disk with ⟨e | ix, d⟩
  · exact h.accepted.symm
  · simp [Command.settle, Command.entries_result, h.accepted]

/-- A command keeps the open index and the disk in agreement. -/
theorem Holds.step (h : s.Holds c dir p) (cmd : Command)
    (hsmall : 28 * (s.step cmd).accepted.length < 2 ^ 32) :
    (s.step cmd).Holds (cmd.settle c ((cmd.run s.index).on s.disk).1) dir p
      ∧ s.disk.Reached p (s.step cmd).disk := by
  have hran := (Command.run_spec h.held cmd).result
  have haccepted := h.accepted_step cmd
  rw [haccepted] at hsmall
  rw [← h.index] at hran
  have hleads := hran.reached.leadsTo h.held.leadsTo
  simp only [Session.step] at haccepted ⊢
  generalize (cmd.run s.index).on s.disk = out at hran hsmall hleads haccepted ⊢
  rcases out with ⟨e | ix, d⟩
  · exact ⟨⟨h.index, ⟨hleads, (hran.error e rfl).1, h.held.fits, h.held.sound⟩, h.accepted⟩,
      hran.reached⟩
  · obtain ⟨hindex, hstands, hfits, hsuits⟩ := hran.ok ix rfl
    have hsound : (cmd.result c).Sound := Command.sound_result h.held.sound hsuits
      (by rwa [← Command.entries_result])
    exact ⟨⟨hindex, ⟨hleads, hstands, hfits, hsound⟩, haccepted.symm⟩, hran.reached⟩

/-- On a calm disk that takes the files, a command that suits the contents is accepted. -/
lemma Holds.step_of_suits (h : s.Holds c dir p) (hcalm : s.disk.Calm)
    (hfiles : ∀ file ∈ newNames c.next, s.disk.Accepts dir p file) {cmd : Command}
    (hsuits : cmd.Suits c) (hsmall : 28 * (c.entries ++ cmd.entries).length < 2 ^ 32) :
    (s.step cmd).Holds (cmd.result c) dir p ∧ s.disk.Reached p (s.step cmd).disk := by
  have hok := (Command.run_spec h.held cmd).result.calm hcalm
  rw [Command.outcome_eq_ok h.held.sound hfiles hsuits, ← h.index] at hok
  have haccepted := h.accepted_step cmd
  have hstep := h.step cmd
  rw [hok] at haccepted hstep
  exact hstep (by rwa [haccepted, Command.settle, Command.entries_result])

lemma accepted_step (s : Session) (cmd : Command) :
    ∃ es, (s.step cmd).accepted = s.accepted ++ es ∧ es.length ≤ cmd.entries.length := by
  simp only [step]
  rcases (cmd.run s.index).on s.disk with ⟨e | ix, d⟩
  · exact ⟨[], by simp, by simp⟩
  · exact ⟨cmd.entries, rfl, le_rfl⟩

lemma length_accepted_le_run (s : Session) (cmds : List Command) :
    s.accepted.length ≤ (s.run cmds).accepted.length := by
  induction cmds generalizing s with
  | nil => exact le_rfl
  | cons cmd cmds ih =>
    obtain ⟨es, hes, -⟩ := accepted_step s cmd
    refine le_trans ?_ (ih (s.step cmd))
    simp [hes]

lemma length_accepted_run_le (s : Session) (cmds : List Command) : (s.run cmds).accepted.length
    ≤ s.accepted.length + (cmds.map (·.entries.length)).sum := by
  induction cmds generalizing s with
  | nil => exact Nat.le_add_right _ _
  | cons cmd cmds ih =>
    obtain ⟨es, hes, hlen⟩ := accepted_step s cmd
    have hrest := ih (s.step cmd)
    simp only [run_cons, List.map_cons, List.sum_cons, hes, List.length_append] at hrest ⊢
    omega

/-- Several commands keep the open index and the disk in agreement. -/
theorem Holds.run (h : s.Holds c dir p) {cmds : List Command}
    (hsmall : 28 * (s.run cmds).accepted.length < 2 ^ 32) :
    ∃ c', (s.run cmds).Holds c' dir p ∧ c'.identity = c.identity := by
  induction cmds generalizing s c with
  | nil => exact ⟨c, h, rfl⟩
  | cons cmd cmds ih =>
    have hle := length_accepted_le_run (s.step cmd) cmds
    rw [run_cons] at hsmall
    obtain ⟨c', h', hid⟩ := ih (h.step cmd (by omega)).1 hsmall
    exact ⟨c', h', hid.trans (Command.identity_settle c cmd _)⟩

end Session

/-! ### Files in use -/

namespace Spares

variable {d : Disk} {ch : Change}

/-- Wherever a change is cut off, the directory holds the contents that it spares. -/
lemma heldBy (h : Spares d₀ dir p c d ch) (hd : d₀.LeadsTo dir p) (hwork : d.workDir = d₀.workDir)
    (cut : Fault) : c.HeldBy { d with tree := cut.apply ch d.tree } dir p := by
  obtain ⟨names, -, hch⟩ := h.within
  exact ⟨hd.of_dirs hwork fun q => ((hch.files cut).dirs q).mpr, hch.keeps cut, h.fits, h.sound⟩

/-- When a change is tried, the manifest lists only files that it leaves alone. -/
lemma on_open (h : Spares d₀ dir p c d ch) (hd : d₀.LeadsTo dir p)
    (hwork : d.workDir = d₀.workDir) : ∃ now, (Index.open dir).on d = (.ok now, d)
      ∧ ∀ segment ∈ now.segments, ∀ q, d.locate segment.path = .ok q → ¬ch.Alters q := by
  have hheld : c.HeldBy d dir p := h.heldBy hd hwork .refused
  refine ⟨c.index dir, hheld.on_open, fun segment hsegment q hlocate halters => ?_⟩
  obtain ⟨g, hg, rfl⟩ := List.mem_map.mp hsegment
  change d.locate (dir / segmentName g.1) = .ok q at hlocate
  rw [Disk.locate_div hheld.leadsTo (isName_segmentName g.1), if_pos (h.fits.files g hg)] at hlocate
  cases hlocate
  obtain ⟨names, hunlisted, hch⟩ := h.within
  obtain ⟨name, hname, heq⟩ := hch.alters _ halters
  have hsame : segmentName g.1 = name := by simpa using heq
  exact hunlisted g hg (hsame ▸ hname)

end Spares

namespace Session

/-! ### What a session keeps -/

/-- What is true of a session with the index in a directory, whatever has been done before. -/
structure Faithful (s : Session) (dir : Path) (id : Uid) (range : TimeRange)
    (resolution : Resolution) (createdAt : Instant) : Prop where
  /-- The chunks are the accepted ones. -/
  chunks : (Index.chunks s.index).on s.disk = (.ok s.accepted, s.disk)
  identity : s.index.dir = dir ∧ s.index.id = id ∧ s.index.range = range
    ∧ s.index.resolution = resolution ∧ s.index.createdAt = createdAt
  /-- The directory can be opened again, and the index is the same. -/
  reopens : (Index.open dir).on s.disk = (.ok s.index, s.disk)
  /-- Each batch becomes a segment. -/
  grows : ∀ es ix d, es ≠ [] → (s.index.addChunks es).on s.disk = (.ok ix, d) →
    ix.segments.length = s.index.segments.length + 1
  /-- A merge leaves as many segments as it is asked for, if there were more. -/
  shrinks : ∀ target merged ix d, target ≠ 0 →
    (s.index.forceMerge target).on s.disk = (.ok (merged, ix), d) →
    ix.segments.length = min s.index.segments.length target.toNat
  /-- At no time a file is altered that the manifest lists. -/
  spares : ∀ (cmd : Command) d ch, (cmd.run s.index).Tries s.disk d ch →
    ∃ now, (Index.open dir).on d = (.ok now, d)
      ∧ ∀ segment ∈ now.segments, ∀ q, d.locate segment.path = .ok q → ¬ch.Alters q

variable {s : Session} {id : Uid} {range : TimeRange} {resolution : Resolution}
  {createdAt : Instant}

theorem Holds.faithful (h : s.Holds c dir p)
    (hid : c.identity = (id, range, resolution, createdAt)) :
    s.Faithful dir id range resolution createdAt where
  chunks := by
    rw [h.index, h.held.on_chunks, h.accepted]
  identity := by
    simp only [Contents.identity, Prod.mk.injEq] at hid
    rw [h.index]
    exact ⟨rfl, hid⟩
  reopens := by
    rw [h.held.on_open, h.index]
  grows es ix d hne hon := by
    have hran := (Command.run_spec h.held (.add es)).result
    rw [← h.index] at hran
    change Command.Ran s.disk dir p c (.add es) ((s.index.addChunks es).on s.disk).1 _ at hran
    rw [hon] at hran
    obtain ⟨rfl, -⟩ := hran.ok ix rfl
    have hempty : es.isEmpty = false := List.isEmpty_eq_false_iff.mpr hne
    simp [h.index, Contents.index, Command.result, hempty, Contents.add]
  shrinks target merged ix d htarget hon := by
    have hran := (Command.run_spec h.held (.merge target)).result
    have hrun : ((Command.merge target).run (c.index dir)).on s.disk = (.ok ix, d) := by
      rw [← h.index]
      exact DiskM.on_bind_ok hon
    rw [hrun] at hran
    obtain ⟨rfl, -⟩ := hran.ok ix rfl
    simpa [h.index, Contents.index] using Command.length_groups_result_merge c htarget
  spares cmd d ch htries := by
    have hspec := Command.run_spec h.held cmd
    rw [← h.index] at hspec
    have hwork : d.workDir = s.disk.workDir := htries.workDir
    exact (hspec.tries htries).elim (fun hch => hch.on_open h.held.leadsTo hwork)
      fun hch => hch.on_open h.held.leadsTo hwork

/-- From its making on, over any commands, the open index and the disk agree. -/
lemma exists_holds_of_create {d d' : Disk} {ix : Index}
    (hcreate : (create dir range resolution id createdAt).on d = (.ok ix, d'))
    {cmds : List Command} (hsmall : 28 * ((mk d' ix []).run cmds).accepted.length < 2 ^ 32) :
    ∃ c p, ((mk d' ix []).run cmds).Holds c dir p
      ∧ c.identity = (id, range, resolution, createdAt) := by
  obtain ⟨rfl, p, hheld⟩ := heldBy_of_create hcreate
  have hstart : (mk d' ((Contents.empty id range resolution createdAt).index dir) []).Holds
      (Contents.empty id range resolution createdAt) dir p := ⟨rfl, hheld, rfl⟩
  obtain ⟨c, hc, hid⟩ := hstart.run hsmall
  exact ⟨c, p, hc, hid⟩

/-! ### Two batches on an empty disk -/

namespace Pair

lemma range_valid : (0 : Int64) < 10 := by decide

/-- The index without chunks. -/
def start : Contents := .empty ⟨7⟩ ⟨0, 10, range_valid⟩ .seconds .newYear

def early : Entry := ⟨3, 5, ⟨.xor, [0, 0]⟩⟩

def late : Entry := ⟨4, 6, ⟨.xor, [0, 0]⟩⟩

/-- The index with a segment for each of two chunks. -/
def filled : Contents := (Command.add [late]).result ((Command.add [early]).result start)

lemma hasRoom_newNames : (∀ file ∈ newNames 1, (⟨["a"]⟩ : Path).hasRoom file = true)
    ∧ (∀ file ∈ newNames 2, (⟨["a"]⟩ : Path).hasRoom file = true)
    ∧ ∀ file ∈ newNames 3, (⟨["a"]⟩ : Path).hasRoom file = true := by decide

lemma suits_early : (Command.add [early]).Suits start := fun _ => ⟨rfl, by decide⟩

lemma suits_late : (Command.add [late]).Suits ((Command.add [early]).result start) :=
  fun _ => ⟨rfl, by decide⟩

/-- The index is made under the name `a` and gets one chunk after the other. -/
lemma exists_filled : ∃ d,
    (create ⟨["a"]⟩ start.range start.resolution start.id start.createdAt).on {}
        = (.ok (start.index ⟨["a"]⟩), d)
      ∧ let s := (mk d (start.index ⟨["a"]⟩) []).run [.add [early], .add [late]]
        s.Holds filled ⟨["a"]⟩ ["a"] ∧ s.disk.Calm
          ∧ ∀ file ∈ newNames 3, s.disk.Accepts ⟨["a"]⟩ ["a"] file := by
  have hname : Path.IsName "a" := ⟨by decide, by decide, by decide, by decide, by decide⟩
  obtain ⟨hroom₁, hroom₂, hroom₃⟩ := hasRoom_newNames
  obtain ⟨d, hcreate, hheld, hcalm, hfiles⟩ := exists_on_create_empty start.range start.resolution
    start.id start.createdAt hname (by decide) (by decide) (by decide)
  have hstart : (mk d (start.index ⟨["a"]⟩) []).Holds start ⟨["a"]⟩ ["a"] := ⟨rfl, hheld, rfl⟩
  obtain ⟨h₁, hr₁⟩ := hstart.step_of_suits hcalm
    (fun file hfile => hfiles file (hroom₁ file hfile)) suits_early (by decide)
  obtain ⟨h₂, hr₂⟩ := h₁.step_of_suits (hr₁.calm_iff.mpr hcalm)
    (fun file hfile => hr₁.accepts_iff.mpr (hfiles file (hroom₂ file hfile))) suits_late
    (by decide)
  have hr := hr₁.trans hr₂
  refine ⟨d, hcreate, ?_⟩
  simp only [run_cons, run_nil]
  exact ⟨h₂, hr.calm_iff.mpr hcalm,
    fun file hfile => hr.accepts_iff.mpr (hfiles file (hroom₃ file hfile))⟩

end Pair

/-! ### Append-only lists -/

/-- An index is an append-only list: from its making on, over any commands and any failures of the
disk, it holds the accepted batches in order. -/
theorem faithful_of_create {d d' : Disk} {ix : Index}
    (hcreate : (create dir range resolution id createdAt).on d = (.ok ix, d'))
    (cmds : List Command) (hsmall : 28 * ((mk d' ix []).run cmds).accepted.length < 2 ^ 32) :
    ((mk d' ix []).run cmds).Faithful dir id range resolution createdAt := by
  obtain ⟨c, p, hc, hid⟩ := exists_holds_of_create hcreate hsmall
  exact hc.faithful hid

/-- Two chunks get a segment each, the two segments are merged into one, and the directory is opened
again. -/
theorem faithful_of_create_merged : ∃ (ix : Index) (d : Disk),
    (create ⟨["a"]⟩ ⟨0, 10, by decide⟩ .seconds ⟨7⟩ .newYear).on {} = (.ok ix, d)
    ∧ let s := (mk d ix []).run [.add [Pair.early], .add [Pair.late]]
      s.index.segments.length = 2 ∧ (s.step (.merge 1)).index.segments.length = 1
        ∧ (s.step (.merge 1)).accepted = [Pair.early, Pair.late]
        ∧ (s.run [.merge 1, .reopen]).Faithful ⟨["a"]⟩ ⟨7⟩ ⟨0, 10, by decide⟩ .seconds
          .newYear := by
  obtain ⟨d, hcreate, h, hcalm, hfiles⟩ := Pair.exists_filled
  have hsuits : (Command.merge 1).Suits Pair.filled := (by decide : (1 : UInt64) ≠ 0)
  obtain ⟨h', -⟩ := h.step_of_suits hcalm hfiles hsuits (by decide)
  have hfaithful := faithful_of_create hcreate
    [.add [Pair.early], .add [Pair.late], .merge 1, .reopen]
    (lt_of_le_of_lt (Nat.mul_le_mul_left 28 (length_accepted_run_le _ _))
      (by simp [Command.entries]))
  refine ⟨_, d, hcreate, ?_⟩
  simp only [run_cons, run_nil] at h h' hfaithful ⊢
  refine ⟨?_, ?_, h'.accepted.symm, hfaithful⟩
  · rw [h.index]
    rfl
  · rw [h'.index]
    rfl

end Session

end SeriesStore.Index
