import SeriesStore.Proofs.Disk.Directory
import SeriesStore.Proofs.Segment.Intact

/-!
# Writing and opening segments

A segment file is complete under its own name or not there at all; what was written is what is
read.
-/

namespace SeriesStore.Segment

open SeriesStore.Path SeriesStore.Tree

variable {d₀ d : Disk} {dir : Path} {p : Place} {name temporary : String} {names : List String}
  {I : Tree → Prop} {es : List Entry}

/-! ### Reading -/

/-- The file for some entries is the one of an intact segment with these entries. -/
lemma intact_of_node? (hd : d.LeadsTo dir p) (hname : IsName name)
    (hroom : dir.hasRoom name = true) (hsmall : 28 * es.length < 2 ^ 32)
    (hfits : Layout.oversized? es = none)
    (hfile : d.tree.node? (p ++ [name]) = some (.file (Layout.file es))) :
    Intact d (ofEntries (dir / name) es) es :=
  .of_read hsmall hfits (Disk.read_div hd hname hroom hfile)

/-! ### Writing -/

/-- The result of writing a segment to a calm disk. -/
def outcome (d₀ : Disk) (dir : Path) (p : Place) (name temporary : String) (es : List Entry) :
    Except StorageError Segment :=
  if d₀.Accepts dir p temporary then
    match Layout.oversized? es with
    | some n => .error (.invalidIndex (.largeRecord n))
    | none => if d₀.Accepts dir p name then .ok (ofEntries (dir / name) es) else .error (.io .other)
  else .error (.io .other)

/-- What is known of a disk on which a segment file has been written, or has not. -/
structure Written (d₀ : Disk) (dir : Path) (p : Place) (name temporary : String) (I : Tree → Prop)
    (es : List Entry) (r : Except StorageError Segment) (d : Disk) : Prop where
  reached : d₀.Reached p d
  keeps : I d.tree
  ok : ∀ s, r = .ok s → s = ofEntries (dir / name) es ∧ Layout.oversized? es = none
    ∧ d₀.Accepts dir p temporary ∧ d₀.Accepts dir p name
    ∧ d.tree.node? (p ++ [name]) = some (.file (Layout.file es))
  error : ∀ e, r = .error e →
    e = .io .other ∨ ∃ n, e = .invalidIndex (.largeRecord n) ∧ Layout.oversized? es = some n
  calm : d₀.Calm → r = outcome d₀ dir p name temporary es

/-- What is known when the disk refuses something on the way. -/
lemma Written.of_refused (hr : d₀.Reached p d) (h : I d.tree)
    (hrefused : d₀.Calm → outcome d₀ dir p name temporary es = .error (.io .other)) :
    Written d₀ dir p name temporary I es (.error (.io .other)) d where
  reached := hr
  keeps := h
  ok _ hs := nomatch hs
  error _ he := .inl (Except.error.inj he).symm
  calm hcalm := (hrefused hcalm).symm

/-- The value of a block that may return early. -/
private def landed (x : Except Segment Segment) : Segment :=
  match x with
  | .ok s | .error s => s

/-- Writing a segment changes no file but the segment file and the temporary file for it. -/
theorem write_spec (hd : d₀.LeadsTo dir p) (hr : d₀.Reached p d) (hname : IsName name)
    (htemp : IsName temporary) (hpath : (dir / name).temporary = dir / temporary)
    (hmem : name ∈ names) (hmem' : temporary ∈ names)
    (hI : Ignores I [p ++ [name], p ++ [temporary]]) (h : I d.tree) :
    (write (dir / name) es).Spec d (fun d c => c.Within d₀ p names I d)
      (Written d₀ dir p name temporary I es) := by
  have hI' : Ignores I [p ++ [temporary]] := hI.mono (by simp)
  have hwrite := DiskM.write_spec hd hr htemp hmem' hI' h
  have hkeep {d' : Disk} (hframe : ∀ q, q ≠ p ++ [temporary] → d'.tree.node? q = d.tree.node? q) :
      I d'.tree := hI' _ _ (fun q hq => hframe q (by simpa using hq)) h
  unfold write
  rw [hpath]
  refine .bind (Q := fun r d' => Written d₀ dir p name temporary I es (r.map landed) d')
    (.tryCatch (Q := fun r d' => Written d₀ dir p name temporary I es (r.map landed) d')
      ?_ (fun _ _ => id) fun e d' he => ?_) (fun x d' hx => ?_) fun _ _ => id
  · -- up to the return, the temporary file is written and moved
    cases hover : Layout.oversized? es with
    | some n =>
      refine (hwrite []).bind (fun _ d' ⟨hr', hframe, hacc, _⟩ => ?_)
        fun e d' ⟨hr', hframe, he, hblocked⟩ => ?_
      · refine .of_on (r := .error (.invalidIndex (.largeRecord n))) rfl
          ⟨hr', hkeep hframe, fun _ hs => (nomatch hs), fun e he => ?_, fun _ => ?_⟩
        · cases he
          exact .inr ⟨n, rfl, hover⟩
        · simp [outcome, hacc, hover, Except.map]
      · subst he
        exact .of_refused hr' (hkeep hframe) fun hcalm => by simp [outcome, hblocked hcalm]
    | none =>
      refine (hwrite (Layout.file es)).bind (fun _ d' ⟨hr', hframe, hacc, hfile⟩ => ?_)
        fun e d' ⟨hr', hframe, he, hblocked⟩ => ?_
      · refine (DiskM.rename_spec hd hr' htemp hname hmem' hmem (hkeep hframe) hacc hfile).bind
          (fun _ d'' ⟨hr'', hacc', hfile', hframe'⟩ => ?_)
          fun e d'' ⟨hr'', hsame, he, hblocked⟩ => ?_
        · refine .of_on (r := .ok (.error (ofEntries (dir / name) es))) rfl
            ⟨hr'', hI d'.tree _ (fun q hq => ?_) (hkeep hframe), fun s hs => ?_,
              fun _ he => (nomatch he), fun _ => ?_⟩
          · simp only [List.mem_cons, List.not_mem_nil, or_false, not_or] at hq
            exact hframe' q hq.2 hq.1
          · cases hs
            exact ⟨rfl, hover, hacc, hacc', hfile'⟩
          · simp [outcome, hacc, hover, hacc', Except.map, landed]
        · subst he
          exact .of_refused hr'' (hsame ▸ hkeep hframe) fun hcalm => by
            simp [outcome, hacc, hover, hblocked hcalm]
      · subst he
        exact .of_refused hr' (hkeep hframe) fun hcalm => by simp [outcome, hblocked hcalm]
  · -- whatever has gone wrong, the temporary file is removed
    refine (DiskM.Spec.attempt (R := fun r d'' => r = .ok ()
        ∧ Written d₀ dir p name temporary I es (.error e) d'')
      (DiskM.remove_spec hd he.reached htemp hmem' he.keeps) fun _ d'' ⟨hr'', hframe⟩ => ?_).bind
      (fun _ d'' ⟨_, hd''⟩ => .of_on (r := .error e) rfl hd'') fun e' d'' ⟨hok, _⟩ => (nomatch hok)
    exact ⟨rfl, hr'', hI' _ _ (fun q hq => hframe q (by simpa using hq)) he.keeps,
      fun _ hs => (nomatch hs), he.error, he.calm⟩
  · -- both ways of returning early come to the same
    refine .of_on (r := .ok (landed x)) ?_ hx
    cases x <;> rfl

end SeriesStore.Segment
