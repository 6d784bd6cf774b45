import SeriesStore.Disk.Basic
import SeriesStore.Proofs.Text.Split

/-!
# Places of named files

A path that goes from a directory to a name in it leads to a place directly below the place of the
directory. Which place that is depends only on where directories stand.
-/

namespace SeriesStore

namespace Path

/-! ### Names -/

/-- A text that can name what stands in a directory. -/
structure IsName (name : String) : Prop where
  slash : '/' ∉ name.toList
  zero : '\x00' ∉ name.toList
  ne_empty : name ≠ ""
  ne_dot : name ≠ "."
  ne_dots : name ≠ ".."

/-- The parts in front of a name, on the way to what stands in a directory. -/
def way (dir : Path) : List String :=
  if dir.isEmpty then [] else if dir.parts.getLast? = some "" then dir.parts.dropLast else dir.parts

lemma div_eq (dir : Path) {name : String} (h : IsName name) :
    dir / name = ⟨dir.way ++ [name]⟩ := by
  have hdiv : dir / name = dir.join ⟨[name]⟩ := by
    rw [← ofText_of_not_mem h.slash]
    rfl
  rw [hdiv, join, way]
  split_ifs <;> simp_all [isAbsolute]

lemma eq_of_div_eq {dir : Path} {name other : String} (h : IsName name) (h' : IsName other)
    (heq : dir / name = dir / other) : name = other := by
  rw [div_eq dir h, div_eq dir h'] at heq
  simpa using heq

lemma isEmpty_div (dir : Path) {name : String} (h : IsName name) :
    (dir / name).isEmpty = false := by
  have hne := h.ne_empty
  rw [div_eq dir h, isEmpty]
  cases hway : dir.way with
  | nil => simp [hne]
  | cons part parts => simp

lemma getLast?_div (dir : Path) {name : String} (h : IsName name) :
    (dir / name).parts.getLast? = some name := by
  simp [div_eq dir h]

lemma trimmed_div (dir : Path) {name : String} (h : IsName name) :
    (dir / name).trimmed = dir.way ++ [name] := by
  simp [div_eq dir h, trimmed, h.ne_empty, h.ne_dot]

lemma fileName?_div (dir : Path) {name : String} (h : IsName name) :
    (dir / name).fileName? = some name := by
  have hlast : (dir / name).trimmed.getLast? = some name := by simp [trimmed_div dir h]
  rw [fileName?, hlast]
  split
  · next heq => simp at heq
  · next heq => exact absurd (Option.some.inj heq) h.ne_dots
  · next heq => exact heq.symm

/-- Whether the path to a name in a directory is one that the disk takes, and the name too. -/
def hasRoom (dir : Path) (name : String) : Bool :=
  let path : Path := ⟨dir.way ++ [name]⟩
  !path.isUnnameable && !path.isTooLong && decide (name.utf8ByteSize ≤ maxNameLength)

lemma hasRoom_eq (dir : Path) {name : String} (h : IsName name) : dir.hasRoom name
    = (!((dir / name).isUnnameable || (dir / name).isTooLong)
      && decide (name.utf8ByteSize ≤ maxNameLength)) := by
  rw [hasRoom, div_eq dir h, Bool.not_or]

lemma utf8ByteSize_le_of_hasRoom {dir : Path} {name : String} (h : dir.hasRoom name = true) :
    name.utf8ByteSize ≤ maxNameLength := by
  simp only [hasRoom, Bool.and_eq_true, decide_eq_true_eq] at h
  exact h.2

end Path

namespace Disk

open SeriesStore.Path

/-- The place at which the way to a directory starts. -/
def origin (d : Disk) (dir : Path) : Place := if dir.way.head? = some "" then [] else d.workDir

/-- A path leads to a directory, which is there. -/
structure LeadsTo (d : Disk) (dir : Path) (p : Place) : Prop where
  walk : dir.way.foldlM (step d.tree) (d.origin dir) = .ok p
  isDir : d.tree.node? p = some .dir

lemma start_div (d : Disk) (dir : Path) {name : String} (hname : IsName name) :
    d.start (dir / name) = if (dir / name).isUnnameable || (dir / name).isTooLong then .error .other
      else .ok (d.origin dir) := by
  have habs : (dir / name).isAbsolute = true ↔ dir.way.head? = some "" := by
    rw [div_eq dir hname, isAbsolute]
    rcases dir.way with _ | ⟨part, parts⟩
    · simp
    · cases parts <;> by_cases hpart : part = "" <;> simp [hpart]
  simp only [start, origin, habs]

lemma step_name {t : Tree} {p : Place} (hdir : t.node? p = some .dir) {name : String}
    (hname : IsName name) :
    step t p name = if name.utf8ByteSize ≤ maxNameLength then .ok (p ++ [name])
      else .error .other := by
  simp only [step, hdir, hname.ne_empty, hname.ne_dot, hname.ne_dots, or_self, if_false]
  split_ifs <;> first | rfl | omega

/-- The path to a name in a directory leads to the place below the directory. -/
theorem locate_div {d : Disk} {dir : Path} {p : Place} (h : d.LeadsTo dir p) {name : String}
    (hname : IsName name) :
    d.locate (dir / name) = if dir.hasRoom name then .ok (p ++ [name]) else .error .other := by
  have hparts : (dir / name).parts = dir.way ++ [name] := by rw [div_eq dir hname]
  simp only [locate, isEmpty_div dir hname, start_div d dir hname, hparts, Bool.false_eq_true,
    if_false, hasRoom_eq dir hname]
  by_cases hpath : ((dir / name).isUnnameable || (dir / name).isTooLong) = true
  · simp only [hpath, if_true, Bool.not_true, Bool.false_and, Bool.false_eq_true, if_false]
    rfl
  · have hwalk : (dir.way ++ [name]).foldlM (step d.tree) (d.origin dir)
        = step d.tree p name := by
      rw [List.foldlM_append, h.walk]
      exact bind_pure (step d.tree p name)
    rw [if_neg hpath]
    change (dir.way ++ [name]).foldlM (step d.tree) (d.origin dir) = _
    rw [hwalk, step_name h.isDir hname]
    simp [hpath]

lemma locateFile_div {d : Disk} {dir : Path} {p : Place} (h : d.LeadsTo dir p) {name : String}
    (hname : IsName name) :
    d.locateFile (dir / name) = if dir.hasRoom name then .ok (p ++ [name]) else .error .other := by
  rw [locateFile, locate_div h hname]
  split_ifs <;> rfl

lemma locate_of_locateFile {d : Disk} {path : Path} {q : Place} (h : d.locateFile path = .ok q) :
    d.locate path = .ok q := by
  unfold locateFile at h
  split at h
  · split_ifs at h
    cases hother : d.locate path.unslashed <;> simp [hother, bind, Except.bind] at h
  · exact h

/-- A path that is found shows that its directory is there. -/
theorem leadsTo_of_locate {d : Disk} {dir : Path} {name : String} (hname : IsName name) {q : Place}
    (h : d.locate (dir / name) = .ok q) : ∃ p, d.LeadsTo dir p := by
  rw [locate, isEmpty_div dir hname, start_div d dir hname] at h
  simp only [Bool.false_eq_true, if_false] at h
  split_ifs at h with hpath
  · simp [bind, Except.bind] at h
  · have hparts : (dir / name).parts = dir.way ++ [name] := by rw [div_eq dir hname]
    simp only [bind, Except.bind, hparts, List.foldlM_append, List.foldlM_cons,
      List.foldlM_nil] at h
    cases hwalk : dir.way.foldlM (step d.tree) (d.origin dir) with
    | error e => simp [hwalk] at h
    | ok p =>
      simp only [hwalk] at h
      refine ⟨p, hwalk, ?_⟩
      cases hnode : d.tree.node? p with
      | none => simp [step, hnode] at h
      | some n =>
        cases n with
        | file content => simp [step, hnode] at h
        | dir => rfl

/-! ### Directories alone decide -/

/-- A step that succeeds needs nothing but the directory it starts from. -/
lemma step_ok_of_dirs {t t' : Tree} (h : ∀ q, t.node? q = some .dir → t'.node? q = some .dir)
    {p q : Place} {part : String} (hstep : step t p part = .ok q) : step t' p part = .ok q := by
  cases hnode : t.node? p with
  | none => simp [step, hnode] at hstep
  | some n =>
    cases n with
    | file content => simp [step, hnode] at hstep
    | dir =>
      rw [step, h p hnode]
      rwa [step, hnode] at hstep

lemma foldlM_step_of_dirs {t t' : Tree} (h : ∀ q, t.node? q = some .dir → t'.node? q = some .dir)
    {parts : List String} {p q : Place} (hwalk : parts.foldlM (step t) p = .ok q) :
    parts.foldlM (step t') p = .ok q := by
  induction parts generalizing p with
  | nil => exact hwalk
  | cons part parts ih =>
    rw [List.foldlM_cons] at hwalk ⊢
    cases hstep : step t p part with
    | error e => simp [hstep, bind, Except.bind] at hwalk
    | ok r =>
      rw [step_ok_of_dirs h hstep]
      rw [hstep] at hwalk
      exact ih hwalk

/-- A path goes on leading to its place as long as no directory is lost. -/
lemma locate_of_dirs {d d' : Disk} {path : Path} {q : Place} (hwork : d'.workDir = d.workDir)
    (hdirs : ∀ q, d.tree.node? q = some .dir → d'.tree.node? q = some .dir)
    (h : d.locate path = .ok q) : d'.locate path = .ok q := by
  simp only [locate, start, hwork] at h ⊢
  split_ifs at h ⊢ <;> first | exact foldlM_step_of_dirs hdirs h | cases h

/-- A path goes on leading to a directory as long as no directory is lost. -/
theorem LeadsTo.of_dirs {d d' : Disk} {dir : Path} {p : Place} (h : d.LeadsTo dir p)
    (hwork : d'.workDir = d.workDir)
    (hdirs : ∀ q, d.tree.node? q = some .dir → d'.tree.node? q = some .dir) : d'.LeadsTo dir p where
  walk := by
    rw [origin, hwork]
    exact foldlM_step_of_dirs hdirs h.walk
  isDir := hdirs p h.isDir

lemma LeadsTo.unique {d : Disk} {dir : Path} {p q : Place} (hp : d.LeadsTo dir p)
    (hq : d.LeadsTo dir q) : p = q := by
  have h := hp.walk
  rw [hq.walk] at h
  exact (Except.ok.inj h).symm

end Disk

end SeriesStore
