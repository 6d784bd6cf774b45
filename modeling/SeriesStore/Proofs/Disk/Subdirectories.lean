import SeriesStore.Proofs.Disk.Places
import SeriesStore.Proofs.Disk.Runs

/-!
# Directories in a directory

Where a path leads is a matter of its parts, as long as it can be followed at all. Making a
directory under a name changes nothing but this place, and removing it nothing outside of it.
-/

namespace SeriesStore

open SeriesStore.Path SeriesStore.Tree

namespace Disk

/-! ### The way to a directory -/

lemma step_unique {t t' : Tree} {p q q' : Place} {part : String} (h : step t p part = .ok q)
    (h' : step t' p part = .ok q') : q = q' := by
  unfold step at h h'
  split at h <;> split at h' <;> try contradiction
  split_ifs at h h' <;> exact (Except.ok.inj h).symm.trans (Except.ok.inj h')

lemma foldlM_step_unique {t t' : Tree} {parts : List String} {p q q' : Place}
    (h : parts.foldlM (step t) p = .ok q) (h' : parts.foldlM (step t') p = .ok q') : q = q' := by
  induction parts generalizing p with
  | nil => exact Except.ok.inj (h.symm.trans h')
  | cons part parts ih =>
    rw [List.foldlM_cons] at h h'
    cases hstep : step t p part with
    | error e => simp [hstep, bind, Except.bind] at h
    | ok r =>
      cases hstep' : step t' p part with
      | error e => simp [hstep', bind, Except.bind] at h'
      | ok r' =>
        rw [hstep] at h
        rw [hstep', ← step_unique hstep hstep'] at h'
        exact ih h h'

variable {d d' : Disk} {dir : Path} {p q : Place} {name : String}

/-- A path leads to the same place at all times. -/
theorem LeadsTo.unique_of_workDir (h : d.LeadsTo dir p) (h' : d'.LeadsTo dir q)
    (hwork : d'.workDir = d.workDir) : p = q := by
  have hwalk := h'.walk
  rw [origin, hwork] at hwalk
  exact foldlM_step_unique h.walk hwalk

lemma locate_unique (h : d.locate dir = .ok p) (h' : d'.locate dir = .ok q)
    (hwork : d'.workDir = d.workDir) : p = q := by
  simp only [locate, start, hwork] at h h'
  split_ifs at h h' <;> first | exact foldlM_step_unique h h' | cases h

lemma way_div (dir : Path) (hname : IsName name) : (dir / name).way = dir.way ++ [name] := by
  have hlast : (dir / name).parts.getLast? ≠ some "" := by
    simpa [getLast?_div dir hname] using hname.ne_empty
  rw [way, if_neg (by simp [isEmpty_div dir hname]), if_neg hlast, div_eq dir hname]

lemma origin_div (d : Disk) (dir : Path) (hname : IsName name) :
    d.origin (dir / name) = d.origin dir := by
  have hhead : (dir.way ++ [name]).head? = some "" ↔ dir.way.head? = some "" := by
    cases dir.way with
    | nil => simp [hname.ne_empty]
    | cons part parts => simp
  simp only [origin, way_div dir hname, hhead]

lemma foldlM_step_div (h : d.LeadsTo dir p) (hname : IsName name) :
    (dir / name).way.foldlM (step d.tree) (d.origin (dir / name)) = step d.tree p name := by
  rw [way_div dir hname, origin_div d dir hname, List.foldlM_append, h.walk]
  exact bind_pure (step d.tree p name)

/-- A directory in a directory is found under its name. -/
lemma LeadsTo.div (h : d.LeadsTo dir p) (hname : IsName name)
    (hsize : name.utf8ByteSize ≤ maxNameLength) (hdir : d.tree.node? (p ++ [name]) = some .dir) :
    d.LeadsTo (dir / name) (p ++ [name]) where
  walk := by rw [foldlM_step_div h hname, step_name h.isDir hname, if_pos hsize]
  isDir := hdir

/-- What is found under a name in a directory stands in the directory. -/
lemma LeadsTo.of_div (h : d.LeadsTo dir p) (hname : IsName name) (hq : d.LeadsTo (dir / name) q) :
    q = p ++ [name] ∧ name.utf8ByteSize ≤ maxNameLength := by
  have hwalk := hq.walk
  rw [foldlM_step_div h hname, step_name h.isDir hname] at hwalk
  split_ifs at hwalk with hsize
  exact ⟨(Except.ok.inj hwalk).symm, hsize⟩

/-- Where a file in a directory has room, the directory has. -/
lemma hasRoom_of_div {file : String} (hname : IsName name)
    (hsize : name.utf8ByteSize ≤ maxNameLength) (h : (dir / name).hasRoom file = true) :
    dir.hasRoom name = true := by
  rw [hasRoom, way_div dir hname] at h
  simp only [hasRoom, Bool.and_eq_true, Bool.not_eq_true', decide_eq_true_eq]
    at h ⊢
  obtain ⟨⟨hzero, hlong⟩, -⟩ := h
  refine ⟨⟨?_, ?_⟩, hsize⟩
  · simp only [isUnnameable, List.any_append, Bool.or_eq_false_iff] at hzero ⊢
    exact hzero.1
  · have hlen : (⟨dir.way ++ [name] ++ [file]⟩ : Path).toText
        = (⟨dir.way ++ [name]⟩ : Path).toText ++ "/" ++ (⟨[file]⟩ : Path).toText :=
      String.intercalate_append_of_ne_nil (by simp) (by simp)
    rw [isTooLong, decide_eq_false_iff_not] at hlong ⊢
    simp only [hlen, String.utf8ByteSize_append] at hlong
    omega

/-- A path leads to a directory, and is itself one that the disk takes. -/
structure Finds (d : Disk) (dir : Path) (p : Place) : Prop where
  locate : d.locate dir = .ok p
  isDir : d.tree.node? p = some .dir

lemma LeadsTo.finds_div (h : d.LeadsTo dir p) (hname : IsName name)
    (hroom : dir.hasRoom name = true) (hdir : d.tree.node? (p ++ [name]) = some .dir) :
    d.Finds (dir / name) (p ++ [name]) :=
  ⟨by rw [locate_div h hname, if_pos hroom], hdir⟩

lemma isDir_iff : d.isDir dir = true ↔ ∃ p, d.Finds dir p := by
  rw [Disk.isDir, find?]
  cases hlocate : d.locate dir with
  | error e => exact ⟨fun h => by simp at h, fun ⟨p, h, _⟩ => by simp [hlocate] at h⟩
  | ok p =>
    refine ⟨fun h => ⟨p, hlocate, by simpa using h⟩, fun ⟨q, hq, hdir⟩ => ?_⟩
    cases hlocate.symm.trans hq
    simp [hdir]

lemma Finds.exists? (h : d.Finds dir p) : d.exists? dir = true := by
  simp [Disk.exists?, find?, h.locate, h.isDir]

lemma Finds.list (h : d.Finds dir p) : d.list dir = .ok (d.tree.names p) := by
  simp [Disk.list, h.locate, h.isDir]

/-- The way to a directory leaves out nothing but a last slash. -/
lemma foldlM_step_way {t : Tree} (hempty : dir.isEmpty = false) {r : Place}
    (h : dir.parts.foldlM (step t) r = .ok p) : dir.way.foldlM (step t) r = .ok p := by
  rw [way, if_neg (by simp [hempty])]
  split_ifs with hlast
  · obtain ⟨front, hfront⟩ : ∃ front, dir.parts = front ++ [""] :=
      ⟨dir.parts.dropLast, (List.dropLast_append_getLast? "" hlast).symm⟩
    rw [hfront, List.foldlM_append] at h
    rw [hfront, List.dropLast_concat]
    cases hwalk : front.foldlM (step t) r with
    | error e => simp [hwalk, bind, Except.bind] at h
    | ok q =>
      have hslash : [""].foldlM (step t) q = step t q "" := bind_pure (step t q "")
      rw [hwalk] at h
      change [""].foldlM (step t) q = .ok p at h
      rw [hslash, step] at h
      split at h
      · cases h
      · cases h
      · simpa using h
  · exact h

lemma isAbsolute_iff (hempty : dir.isEmpty = false) :
    dir.isAbsolute = true ↔ dir.way.head? = some "" := by
  obtain ⟨parts⟩ := dir
  rw [way, if_neg (by simp [hempty])]
  rcases parts with _ | ⟨part, _ | ⟨part', parts⟩⟩
  · simp [Path.isEmpty] at hempty
  · have hpart : part ≠ "" := by simpa [Path.isEmpty] using hempty
    simp [isAbsolute, hpart]
  · by_cases hpart : part = "" <;> split_ifs <;> simp [isAbsolute, hpart]

lemma Finds.leadsTo (h : d.Finds dir p) : d.LeadsTo dir p := by
  have hlocate := h.locate
  rw [Disk.locate] at hlocate
  split_ifs at hlocate with hempty
  cases hstart : d.start dir with
  | error e => simp [hstart, bind, Except.bind] at hlocate
  | ok r =>
    rw [hstart] at hlocate
    have hwalk := foldlM_step_way (by simpa using hempty) hlocate
    have horigin : r = d.origin dir := by
      unfold start at hstart
      split at hstart
      · cases hstart
      · rw [origin, ← Except.ok.inj hstart]
        simp only [isAbsolute_iff (by simpa using hempty : dir.isEmpty = false)]
    exact ⟨horigin ▸ hwalk, h.isDir⟩

/-- The path to a directory that is still there finds it, or finds nothing. -/
lemma Finds.exists?_of_not_isDir (h : d.Finds dir p) (hwork : d'.workDir = d.workDir)
    (hnode : d'.tree.node? p = some .dir) (hdir : d'.isDir dir = false) :
    d'.exists? dir = false := by
  rw [Disk.exists?, find?]
  cases hlocate : d'.locate dir with
  | error e => rfl
  | ok q =>
    obtain rfl := locate_unique h.locate hlocate hwork
    simp [Disk.isDir, find?, hlocate, hnode] at hdir

/-- A path goes on finding a directory as long as no directory is lost. -/
lemma Finds.of_dirs (h : d.Finds dir p) (hwork : d'.workDir = d.workDir)
    (hdirs : ∀ q, d.tree.node? q = some .dir → d'.tree.node? q = some .dir) :
    d'.Finds dir p where
  locate := locate_of_dirs hwork hdirs h.locate
  isDir := hdirs p h.isDir

/-- A disk on which a directory has been made at a place, if anything has changed. -/
structure MayHold (d₀ : Disk) (q : Place) (d : Disk) : Prop where
  workDir : d.workDir = d₀.workDir
  faults : d.faults = d₀.faults
  tree : d.tree = d₀.tree ∨ d₀.tree.node? q = none ∧ d.tree = d₀.tree.put q .dir

namespace MayHold

variable {d₀ : Disk}

protected lemma refl (d₀ : Disk) (q : Place) : d₀.MayHold q d₀ := ⟨rfl, rfl, .inl rfl⟩

lemma node?_of_ne (h : d₀.MayHold q d) {r : Place} (hr : r ≠ q) :
    d.tree.node? r = d₀.tree.node? r := by
  rcases h.tree with htree | ⟨-, htree⟩ <;> rw [htree]
  exact node?_put_of_ne hr

lemma dirs (h : d₀.MayHold q d) (r : Place) (hr : d₀.tree.node? r = some .dir) :
    d.tree.node? r = some .dir := by
  by_cases hne : r = q
  · subst hne
    rcases h.tree with htree | ⟨hnone, -⟩
    · rwa [htree]
    · simp [hnone] at hr
  · rwa [h.node?_of_ne hne]

end MayHold

end Disk

/-! ### Making a directory -/

namespace DiskM

open Disk

variable {d : Disk} {dir : Path} {p q : Place} {name : String}

lemma on_makeDirsFrom_cons {part : String} {parts : List String}
    (hstep : step d.tree p part = .ok q) : (makeDirsFrom p (part :: parts)).on d
      = match d.tree.node? q with
        | none => (change (.makeDir q) >>= fun _ => makeDirsFrom q parts).on d
        | some (.file _) => (.error (.io .other), d)
        | some .dir => (makeDirsFrom q parts).on d := by
  rw [makeDirsFrom, on_bind_ok (on_get d), hstep]
  refine (on_bind_ok (on_get d)).trans ?_
  rcases d.tree.node? q with _ | _ | _ <;> rfl

/-- Directories that are there already are passed through. -/
lemma on_makeDirsFrom_append {parts parts' : List String}
    (h : parts.foldlM (step d.tree) p = .ok q) (hq : d.tree.node? q = some .dir) :
    (makeDirsFrom p (parts ++ parts')).on d = (makeDirsFrom q parts').on d := by
  induction parts generalizing p with
  | nil =>
    cases h
    rfl
  | cons part parts ih =>
    rw [List.foldlM_cons] at h
    cases hstep : step d.tree p part with
    | error e => simp [hstep, bind, Except.bind] at h
    | ok r =>
      rw [hstep] at h
      change parts.foldlM (step d.tree) r = .ok q at h
      have hr : d.tree.node? r = some .dir := by
        cases parts with
        | nil =>
          cases h
          exact hq
        | cons part' parts =>
          cases hnode : d.tree.node? r with
          | none => simp [List.foldlM_cons, step, hnode, bind, Except.bind] at h
          | some n =>
            cases n with
            | file content => simp [List.foldlM_cons, step, hnode, bind, Except.bind] at h
            | dir => rfl
      rw [List.cons_append, on_makeDirsFrom_cons hstep, hr]
      exact ih h

lemma endsInDot_div (dir : Path) (hname : IsName name) : (dir / name).endsInDot = false := by
  simp [endsInDot, unslashed, div_eq dir hname, hname.ne_empty, hname.ne_dot]

/-- A directory in a directory that is there is made in a single change, or nothing is tried at
all. -/
lemma on_makeDirs_div (h : d.LeadsTo dir p) (hname : IsName name) :
    (makeDirs (dir / name)).on d
      = if dir.hasRoom name then
          match d.tree.node? (p ++ [name]) with
          | none => (change (.makeDir (p ++ [name]))).on d
          | some (.file _) => (.error (.io .other), d)
          | some .dir => (.ok (), d)
        else (.error (.io .other), d) := by
  have hstart := start_div d dir hname
  have hparts : (dir / name).parts = dir.way ++ [name] := by rw [div_eq dir hname]
  by_cases hpath : ((dir / name).isUnnameable || (dir / name).isTooLong) = true
  · have hroom : dir.hasRoom name = false := by simp [hasRoom_eq dir hname, hpath]
    rw [if_pos hpath] at hstart
    rw [makeDirs, on_ask_bind_error (·.start _) hstart, hroom, if_neg (by simp)]
  · rw [if_neg hpath] at hstart
    rw [makeDirs, on_ask_bind_ok (·.start _) hstart, endsInDot_div dir hname, if_neg (by simp),
      hparts, on_makeDirsFrom_append h.walk h.isDir]
    have hstep := step_name h.isDir hname
    by_cases hsize : name.utf8ByteSize ≤ maxNameLength
    · have hroom : dir.hasRoom name = true := by simp [hasRoom_eq dir hname, hpath, hsize]
      rw [if_pos hsize] at hstep
      rw [on_makeDirsFrom_cons hstep, hroom, if_pos rfl]
      rcases d.tree.node? (p ++ [name]) with _ | _ | _
      · simp only [makeDirsFrom, bind_pure_unit]
      · rfl
      · rfl
    · have hroom : dir.hasRoom name = false := by simp [hasRoom_eq dir hname, hsize]
      rw [if_neg hsize] at hstep
      rw [makeDirsFrom, on_bind_ok (on_get d), hstep, hroom, if_neg (by simp)]
      rfl

/-- To make a directory in a directory that is there, only one change is tried. It succeeds unless
the disk fails, the path is too long, or a file is in the way, and then nothing changes. -/
lemma makeDirs_spec (h : d.LeadsTo dir p) (hname : IsName name) :
    (makeDirs (dir / name)).Spec d (fun _ _ => True) fun r d' => d.MayHold (p ++ [name]) d' ∧
      match r with
      | .ok _ => dir.hasRoom name = true ∧ d'.LeadsTo (dir / name) (p ++ [name])
      | .error e => d'.tree = d.tree ∧ e = .io .other ∧ (d.Calm → dir.hasRoom name = true →
          ∃ content, d.tree.node? (p ++ [name]) = some (.file content)) := by
  have hon := on_makeDirs_div h hname
  cases hroom : dir.hasRoom name with
  | false =>
    rw [hroom, if_neg (by simp)] at hon
    exact .of_on hon ⟨.refl d _, rfl, rfl, fun _ htrue => (nomatch htrue)⟩
  | true =>
    rw [hroom, if_pos rfl] at hon
    have hleads {d' : Disk} (hd' : d.MayHold (p ++ [name]) d')
        (hdir : d'.tree.node? (p ++ [name]) = some .dir) : d'.LeadsTo (dir / name) (p ++ [name]) :=
      (h.of_dirs hd'.workDir hd'.dirs).div hname (utf8ByteSize_le_of_hasRoom hroom) hdir
    cases hnode : d.tree.node? (p ++ [name]) with
    | none =>
      rw [hnode] at hon
      refine .of_on_eq hon (.change_whole (by simp) trivial (fun htree => ?_)
        fun hfaulty htree => ?_)
      · have hd' : d.MayHold (p ++ [name]) (d.after (.makeDir (p ++ [name]))) :=
          ⟨rfl, rfl, .inr ⟨hnode, htree⟩⟩
        exact ⟨hd', rfl, hleads hd' (by rw [htree]; exact node?_put_self (by simp))⟩
      · exact ⟨⟨rfl, rfl, .inl htree⟩, htree, rfl, fun hcalm => absurd hcalm hfaulty⟩
    | some n =>
      rw [hnode] at hon
      cases n with
      | file content => exact .of_on hon ⟨.refl d _, rfl, rfl, fun _ _ => ⟨content, rfl⟩⟩
      | dir => exact .of_on hon ⟨.refl d _, rfl, hleads (.refl d _) hnode⟩

/-! ### Removing a directory -/

/-- What is known after an attempt to remove a directory. -/
structure Removed (d : Disk) (path : Path) (r : Except StorageError Unit) (d' : Disk) : Prop where
  workDir : d'.workDir = d.workDir
  /-- The directory is emptied, and it goes itself if its path does not lead through what was in
  it. -/
  ok : ∀ a, r = .ok a → ∃ q, d.Finds path q ∧ Emptied [q] d.tree d'.tree
    ∧ ∀ q', { d with tree := d.tree.clear q }.locate path = .ok q' → d'.tree = d.tree.eraseAll q
  /-- Otherwise it stays as it is. -/
  error : ∀ e, r = .error e →
    d'.tree = d.tree ∧ (∃ io, e = .io io) ∧ (d.Calm → ∀ q, ¬d.Finds path q)

/-- Where a path finds no directory, nothing is tried. -/
lemma on_removeAll_of_not_finds {path : Path} (h : ∀ q, ¬d.Finds path q) :
    ∃ io, (removeAll path).on d = (.error (.io io), d) := by
  cases hlocate : d.locate path with
  | error io => exact ⟨io, by rw [removeAll, on_ask_bind_error (·.locate _) hlocate]⟩
  | ok q =>
    rw [removeAll, on_ask_bind_ok (·.locate _) hlocate, on_bind_ok (on_get d)]
    cases hnode : d.tree.node? q with
    | none => exact ⟨.notFound, rfl⟩
    | some n =>
      cases n with
      | file content => exact ⟨.other, rfl⟩
      | dir => exact absurd ⟨hlocate, hnode⟩ (h q)

/-- Where a path finds a directory, it is taken away, or emptied if the path leads through it. -/
lemma on_removeAll_of_finds {path : Path} (h : d.Finds path q) : (removeAll path).on d
    = (match { d with tree := d.tree.clear q }.locate path with
      | .error _ => change (.clear q)
      | .ok _ => do
        if path.endsInDot then
          change (.clear q)
          fail .other
        change (.removeAll q)).on d := by
  have hon : (removeAll path).on d = _ :=
    (on_ask_bind_ok (·.locate path) h.locate).trans (on_bind_ok (on_get d))
  rw [h.isDir] at hon
  exact hon

/-- A directory whose path does not lead through it is removed in one step. -/
lemma on_removeAll {path : Path} {q' : Place} (hdot : path.endsInDot = false) (h : d.Finds path q)
    (hclear : { d with tree := d.tree.clear q }.locate path = .ok q') :
    (removeAll path).on d = (change (.removeAll q)).on d := by
  rw [on_removeAll_of_finds h]
  simp only [hclear, hdot]
  rfl

/-- Removing a directory takes out of the tree what is in it, and nothing else. It succeeds wherever
there is a directory, unless the disk fails. -/
lemma removeAll_spec {path : Path} (hdot : path.endsInDot = false) :
    (removeAll path).Spec d (fun _ _ => True) (Removed d path) := by
  by_cases hfind : ∃ q, d.Finds path q
  · obtain ⟨q, hq⟩ := hfind
    -- with or without the directory itself, what is below it goes by a single change
    have hchange {c : Change} (hon : (removeAll path).on d = (change c).on d)
        (hwhole : ∀ p content, c ≠ .write p content)
        (hemptied : Emptied [q] d.tree (c.apply d.tree))
        (hgone : ∀ q', { d with tree := d.tree.clear q }.locate path = .ok q' →
          c.apply d.tree = d.tree.eraseAll q) :
        (removeAll path).Spec d (fun _ _ => True) (Removed d path) := by
      refine .of_on_eq hon (.change_whole hwhole trivial (fun htree => ?_) fun hfaulty htree => ?_)
      · rw [← htree] at hemptied hgone
        exact ⟨rfl, fun _ _ => ⟨q, hq, hemptied, hgone⟩, fun _ he => (nomatch he)⟩
      · refine ⟨rfl, fun _ ha => (nomatch ha), fun e he => ?_⟩
        cases he
        exact ⟨htree, ⟨.other, rfl⟩, fun hcalm => absurd hcalm hfaulty⟩
    cases hclear : { d with tree := d.tree.clear q }.locate path with
    | error io =>
      refine hchange (c := .clear q) ?_ (by simp) (.clear d.tree q) fun q' hq' => ?_
      · rw [on_removeAll_of_finds hq]
        simp only [hclear]
      · cases hclear.symm.trans hq'
    | ok q' =>
      exact hchange (c := .removeAll q) (on_removeAll hdot hq hclear) (by simp) (.eraseAll d.tree q)
        fun _ _ => rfl
  · have hnone := not_exists.mp hfind
    obtain ⟨io, hon⟩ := on_removeAll_of_not_finds hnone
    refine .of_on hon ⟨rfl, fun _ ha => (nomatch ha), fun e he => ?_⟩
    cases he
    exact ⟨rfl, ⟨io, rfl⟩, fun _ => hnone⟩

end DiskM

end SeriesStore
