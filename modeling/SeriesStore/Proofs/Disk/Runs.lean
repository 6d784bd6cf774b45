import SeriesStore.Proofs.Disk.Files

/-!
# Runs on a disk

A computation on a disk is a series of changes, each of which is tried on the disk that the ones
before it have left. What a computation does is stated as a property of each change, in front of
the disk on which it is tried, and of the outcome. Nothing is assumed about which changes fail.
-/

namespace SeriesStore

variable {α β : Type}

/-! ### Outcomes -/

namespace DiskM

/-- The result of a computation on a disk, and the disk it leaves. -/
def on (f : DiskM α) (d : Disk) : Except StorageError α × Disk := f.run.run d

@[simp] lemma on_pure (a : α) (d : Disk) : (pure a : DiskM α).on d = (.ok a, d) := rfl

@[simp] lemma on_throw (e : StorageError) (d : Disk) :
    (throw e : DiskM α).on d = (.error e, d) := rfl

@[simp] lemma on_fail (e : IoError) (d : Disk) :
    (fail e : DiskM α).on d = (.error (.io e), d) := rfl

@[simp] lemma on_ofExcept (r : Except StorageError α) (d : Disk) : (ofExcept r).on d = (r, d) := rfl

lemma on_get (d : Disk) : (get : DiskM Disk).on d = (.ok d, d) := rfl

lemma on_bind (f : DiskM α) (g : α → DiskM β) (d : Disk) : (f >>= g).on d
    = match f.on d with
      | (.ok a, d') => (g a).on d'
      | (.error e, d') => (.error e, d') := by
  have hrun : (f >>= g).on d = (ExceptT.bindCont g (f.on d).1 : StateM Disk _) (f.on d).2 := rfl
  rw [hrun]
  rcases f.on d with ⟨_ | a, d'⟩ <;> rfl

lemma on_bind_ok {f : DiskM α} {g : α → DiskM β} {d d' : Disk} {a : α}
    (h : f.on d = (.ok a, d')) : (f >>= g).on d = (g a).on d' := by
  rw [on_bind, h]

lemma on_bind_error {f : DiskM α} {g : α → DiskM β} {d d' : Disk} {e : StorageError}
    (h : f.on d = (.error e, d')) : (f >>= g).on d = (.error e, d') := by
  rw [on_bind, h]

/-- A computation in two parts succeeds only if both parts do. -/
lemma on_bind_eq_ok {f : DiskM α} {g : α → DiskM β} {d d'' : Disk} {b : β}
    (h : (f >>= g).on d = (.ok b, d'')) :
    ∃ a d', f.on d = (.ok a, d') ∧ (g a).on d' = (.ok b, d'') := by
  rcases hf : f.on d with ⟨e | a, d'⟩
  · rw [on_bind_error hf] at h
    cases h
  · exact ⟨a, d', rfl, by rwa [on_bind_ok hf] at h⟩

/-- Computations that change nothing can be carried out one after the other. -/
lemma on_mapM_of_forall₂ {f : α → DiskM β} {d : Disk} {xs : List α} {ys : List β}
    (h : List.Forall₂ (fun x y => (f x).on d = (.ok y, d)) xs ys) :
    (xs.mapM f).on d = (.ok ys, d) := by
  induction h with
  | nil => rfl
  | cons hx _ ih =>
    rw [List.mapM_cons, on_bind_ok hx, on_bind_ok ih]
    rfl

lemma on_mapM {f : α → DiskM β} {g : α → β} {d : Disk} {xs : List α}
    (h : ∀ x ∈ xs, (f x).on d = (.ok (g x), d)) : (xs.mapM f).on d = (.ok (xs.map g), d) :=
  on_mapM_of_forall₂ (List.forall₂_map_right_iff.mpr (List.forall₂_same.mpr h))

/-- Computations that change nothing succeed one after the other only if each of them does. -/
lemma forall₂_of_on_mapM {f : α → DiskM β} {d d' : Disk} {xs : List α} {ys : List β}
    (hstay : ∀ x y d', (f x).on d = (.ok y, d') → d = d') (h : (xs.mapM f).on d = (.ok ys, d')) :
    d = d' ∧ List.Forall₂ (fun x y => (f x).on d = (.ok y, d)) xs ys := by
  induction xs generalizing ys d' with
  | nil =>
    cases h
    exact ⟨rfl, .nil⟩
  | cons x xs ih =>
    rw [List.mapM_cons] at h
    obtain ⟨y, d₁, hx, h⟩ := on_bind_eq_ok h
    obtain ⟨zs, d₂, hxs, h⟩ := on_bind_eq_ok h
    cases h
    cases hstay x y d₁ hx
    obtain ⟨rfl, hrest⟩ := ih hxs
    exact ⟨rfl, .cons hx hrest⟩

lemma exists_of_forall₂ {R : α → β → Prop} {xs : List α} {ys : List β} (h : List.Forall₂ R xs ys)
    {x : α} (hx : x ∈ xs) : ∃ y, R x y := by
  induction h with
  | nil => cases hx
  | cons hhead _ ih =>
    rcases List.mem_cons.mp hx with rfl | hx
    · exact ⟨_, hhead⟩
    · exact ih hx

lemma on_tryCatch (f : DiskM α) (g : StorageError → DiskM α) (d : Disk) : (tryCatch f g).on d
    = match f.on d with
      | (.ok a, d') => (.ok a, d')
      | (.error e, d') => (g e).on d' := by
  simp only [on, ExceptT.run, tryCatch, tryCatchThe, MonadExceptOf.tryCatch, ExceptT.tryCatch,
    ExceptT.mk, StateT.run, Bind.bind, StateT.bind]
  rcases f d with ⟨_ | a, d'⟩ <;> rfl

lemma on_attempt (f : DiskM Unit) (d : Disk) : (attempt f).on d = (.ok (), (f.on d).2) := by
  have htry : (attempt f).on d = _ := on_tryCatch f (fun _ => pure ()) d
  rw [htry]
  rcases f.on d with ⟨_ | _, _⟩ <;> rfl

lemma on_discard (f : DiskM α) (d : Disk) : (discard f : DiskM Unit).on d
    = (f >>= fun _ => pure ()).on d := by
  have hon : (discard f : DiskM Unit).on d
      = match f.on d with
        | (.ok _, d') => (.ok (), d')
        | (.error e, d') => (.error e, d') := by
    change (ExceptT.map (fun _ => ()) f).run.run d = _
    simp only [on, ExceptT.run, ExceptT.map, ExceptT.mk, StateT.run, Bind.bind, StateT.bind]
    rcases f d with ⟨_ | a, d'⟩ <;> rfl
  rw [hon, on_bind]
  rfl

lemma on_ask (f : Disk → Except IoError α) (d : Disk) : (ask f).on d
    = match f d with
      | .ok a => (.ok a, d)
      | .error e => (.error (.io e), d) := by
  rw [ask, on_bind_ok (on_get d)]
  cases f d <;> rfl

lemma on_ask_bind_ok (f : Disk → Except IoError α) {g : α → DiskM β} {d : Disk} {a : α}
    (h : f d = .ok a) : (ask f >>= g).on d = (g a).on d :=
  on_bind_ok (by rw [on_ask, h])

lemma on_ask_bind_error (f : Disk → Except IoError α) {g : α → DiskM β} {d : Disk} {e : IoError}
    (h : f d = .error e) : (ask f >>= g).on d = (.error (.io e), d) :=
  on_bind_error (by rw [on_ask, h])

end DiskM

/-! ### Changes one by one -/

/-- A change other than a write fails as a whole. -/
lemma Fault.apply_of_ne_write {f : Fault} {c : Change} (h : ∀ p content, c ≠ .write p content)
    (t : Tree) : f.apply c t = t := by
  cases f with
  | refused => rfl
  | cut n =>
    cases c with
    | write p content => exact absurd rfl (h p content)
    | _ => rfl

/-- A change that fails leaves alone what it would have left alone. -/
lemma Fault.node?_apply {f : Fault} {c : Change} {q : Place} (h : ¬c.Alters q) (t : Tree) :
    (f.apply c t).node? q = t.node? q := by
  cases f with
  | refused => rfl
  | cut n =>
    cases c with
    | write p content => exact Change.node?_apply (c := .write p (content.take n)) h t
    | _ => rfl

namespace Disk

/-- The disk after a change has been tried. -/
def after (d : Disk) (c : Change) : Disk :=
  { d with
    tree := match d.faults d.tried.length c with
      | none => c.apply d.tree
      | some f => f.apply c d.tree
    tried := c :: d.tried }

/-- The disk after several changes have been tried. -/
def afterAll (d : Disk) (cs : List Change) : Disk := cs.foldl after d

/-- Each of several changes has a property together with the disk on which it is tried. -/
def Along (S : Disk → Change → Prop) : Disk → List Change → Prop
  | _, [] => True
  | d, c :: cs => S d c ∧ Along S (d.after c) cs

/-- A disk on which no change fails. -/
def Calm (d : Disk) : Prop := ∀ n c, d.faults n c = none

@[simp] lemma workDir_after (d : Disk) (c : Change) : (d.after c).workDir = d.workDir := rfl

@[simp] lemma faults_after (d : Disk) (c : Change) : (d.after c).faults = d.faults := rfl

@[simp] lemma tried_after (d : Disk) (c : Change) : (d.after c).tried = c :: d.tried := rfl

@[simp] lemma afterAll_nil (d : Disk) : d.afterAll [] = d := rfl

@[simp] lemma afterAll_cons (d : Disk) (c : Change) (cs : List Change) :
    d.afterAll (c :: cs) = (d.after c).afterAll cs := rfl

lemma afterAll_append (d : Disk) (cs cs' : List Change) :
    d.afterAll (cs ++ cs') = (d.afterAll cs).afterAll cs' := List.foldl_append

@[simp] lemma workDir_afterAll (d : Disk) (cs : List Change) :
    (d.afterAll cs).workDir = d.workDir := by
  induction cs generalizing d with
  | nil => rfl
  | cons c cs ih => exact ih (d.after c)

@[simp] lemma faults_afterAll (d : Disk) (cs : List Change) :
    (d.afterAll cs).faults = d.faults := by
  induction cs generalizing d with
  | nil => rfl
  | cons c cs ih => exact ih (d.after c)

lemma tried_afterAll (d : Disk) (cs : List Change) :
    (d.afterAll cs).tried = cs.reverse ++ d.tried := by
  induction cs generalizing d with
  | nil => rfl
  | cons c cs ih => simp [ih]

lemma Along.append {S : Disk → Change → Prop} {d : Disk} {cs cs' : List Change}
    (h : d.Along S cs) (h' : (d.afterAll cs).Along S cs') : d.Along S (cs ++ cs') := by
  induction cs generalizing d with
  | nil => exact h'
  | cons c cs ih => exact ⟨h.1, ih h.2 h'⟩

lemma Along.mono {S T : Disk → Change → Prop} (hST : ∀ d c, S d c → T d c) {d : Disk}
    {cs : List Change} (h : d.Along S cs) : d.Along T cs := by
  induction cs generalizing d with
  | nil => trivial
  | cons c cs ih => exact ⟨hST d c h.1, ih h.2⟩

lemma Along.here {S : Disk → Change → Prop} {d : Disk} {cs cs' : List Change} {c : Change}
    (h : d.Along S (cs ++ c :: cs')) : S (d.afterAll cs) c := by
  induction cs generalizing d with
  | nil => exact h.1
  | cons _ cs ih => exact ih h.2

end Disk

namespace DiskM

lemma on_change (c : Change) (d : Disk) : (change c).on d
    = (match d.faults d.tried.length c with
      | none => .ok ()
      | some _ => .error (.io .other), d.after c) := by
  rw [change, on_bind_ok (on_get d)]
  unfold Disk.after
  cases d.faults d.tried.length c <;> rfl

/-! ### What a computation does -/

/-- On a disk, a computation tries only changes with the property `S`, and has an outcome with the
property `Q`. -/
def Spec (f : DiskM α) (d : Disk) (S : Disk → Change → Prop)
    (Q : Except StorageError α → Disk → Prop) : Prop :=
  ∃ cs, (f.on d).2 = d.afterAll cs ∧ d.Along S cs ∧ Q (f.on d).1 (f.on d).2

namespace Spec

variable {f : DiskM α} {g : α → DiskM β} {d : Disk} {S T : Disk → Change → Prop}
  {Q R : Except StorageError α → Disk → Prop}

lemma of_on {r : Except StorageError α} (h : f.on d = (r, d)) (hQ : Q r d) : Spec f d S Q :=
  ⟨[], by rw [h]; rfl, trivial, by rw [h]; exact hQ⟩

lemma of_on_eq {f f' : DiskM α} (h : f.on d = f'.on d) (hf : Spec f' d S Q) : Spec f d S Q := by
  unfold Spec
  rw [h]
  exact hf

lemma mono (h : Spec f d S Q) (hS : ∀ d c, S d c → T d c) (hQ : ∀ r d', Q r d' → R r d') :
    Spec f d T R := by
  obtain ⟨cs, hcs, halong, hout⟩ := h
  exact ⟨cs, hcs, halong.mono hS, hQ _ _ hout⟩

lemma post (h : Spec f d S Q) (hQ : ∀ r d', Q r d' → R r d') : Spec f d S R :=
  h.mono (fun _ _ => id) hQ

/-- What is known of an outcome can be stated of it. -/
lemma settle (h : Spec f d S Q) (hR : R (f.on d).1 (f.on d).2) : Spec f d S R := by
  obtain ⟨cs, hcs, halong, -⟩ := h
  exact ⟨cs, hcs, halong, hR⟩

/-- What a computation does after another. -/
lemma bind {Q : Except StorageError α → Disk → Prop} {R : Except StorageError β → Disk → Prop}
    (hf : Spec f d S Q) (hok : ∀ a d', Q (.ok a) d' → Spec (g a) d' S R)
    (herror : ∀ e d', Q (.error e) d' → R (.error e) d') : Spec (f >>= g) d S R := by
  obtain ⟨cs, hcs, halong, hout⟩ := hf
  rcases hon : f.on d with ⟨e | a, d'⟩
  · rw [hon] at hcs hout
    subst hcs
    refine ⟨cs, ?_, halong, ?_⟩
    · rw [on_bind_error hon]
    · rw [on_bind_error hon]
      exact herror e _ hout
  · rw [hon] at hcs hout
    subst hcs
    obtain ⟨cs', hcs', halong', hout'⟩ := hok a _ hout
    refine ⟨cs ++ cs', ?_, halong.append halong', ?_⟩
    · rw [on_bind_ok hon, hcs', Disk.afterAll_append]
    · rw [on_bind_ok hon]
      exact hout'

lemma tryCatch {Q : Except StorageError α → Disk → Prop} {g : StorageError → DiskM α}
    (hf : Spec f d S Q) (hok : ∀ a d', Q (.ok a) d' → R (.ok a) d')
    (herror : ∀ e d', Q (.error e) d' → Spec (g e) d' S R) : Spec (tryCatch f g) d S R := by
  obtain ⟨cs, hcs, halong, hout⟩ := hf
  have htry := on_tryCatch f g d
  rcases hon : f.on d with ⟨e | a, d'⟩
  · rw [hon] at hcs hout htry
    subst hcs
    obtain ⟨cs', hcs', halong', hout'⟩ := herror e _ hout
    refine ⟨cs ++ cs', ?_, halong.append halong', ?_⟩
    · rw [htry, hcs', Disk.afterAll_append]
    · rw [htry]
      exact hout'
  · rw [hon] at hcs hout htry
    subst hcs
    refine ⟨cs, ?_, halong, ?_⟩
    · rw [htry]
    · rw [htry]
      exact hok a _ hout

/-- A change is tried once. It happens as a whole, or it fails in one of the ways of a disk that is
not calm. -/
lemma change {c : Change} {Q : Except StorageError Unit → Disk → Prop} (hS : S d c)
    (hok : d.faults d.tried.length c = none → (d.after c).tree = c.apply d.tree →
      Q (.ok ()) (d.after c))
    (herror : ∀ f : Fault, ¬d.Calm → (d.after c).tree = f.apply c d.tree →
      Q (.error (.io .other)) (d.after c)) : Spec (change c) d S Q := by
  have hon := on_change c d
  refine ⟨[c], by rw [hon]; rfl, ⟨hS, trivial⟩, ?_⟩
  cases hfault : d.faults d.tried.length c with
  | none =>
    rw [hfault] at hon
    rw [hon]
    exact hok hfault (by simp [Disk.after, hfault])
  | some f =>
    rw [hfault] at hon
    rw [hon]
    exact herror f (fun hcalm => by simp [hcalm _ _] at hfault) (by simp [Disk.after, hfault])

/-- A change other than a write happens as a whole or not at all. -/
lemma change_whole {c : Change} {Q : Except StorageError Unit → Disk → Prop}
    (hwhole : ∀ p content, c ≠ .write p content) (hS : S d c)
    (hok : (d.after c).tree = c.apply d.tree → Q (.ok ()) (d.after c))
    (herror : ¬d.Calm → (d.after c).tree = d.tree → Q (.error (.io .other)) (d.after c)) :
    Spec (DiskM.change c) d S Q :=
  .change hS (fun _ => hok) fun _ hfaulty htree =>
    herror hfaulty (htree.trans (Fault.apply_of_ne_write hwhole d.tree))

/-- Dropping the error of a computation. -/
lemma attempt {f : DiskM Unit} {Q : Except StorageError Unit → Disk → Prop}
    {R : Except StorageError Unit → Disk → Prop} (hf : Spec f d S Q)
    (hQ : ∀ r d', Q r d' → R (.ok ()) d') : Spec (attempt f) d S R :=
  hf.tryCatch (fun _ d' h => hQ _ d' h) fun _ d' h => of_on (r := .ok ()) rfl (hQ _ d' h)

lemma workDir (h : Spec f d S Q) : (f.on d).2.workDir = d.workDir := by
  obtain ⟨cs, hcs, -⟩ := h
  rw [hcs, Disk.workDir_afterAll]

lemma faults (h : Spec f d S Q) : (f.on d).2.faults = d.faults := by
  obtain ⟨cs, hcs, -⟩ := h
  rw [hcs, Disk.faults_afterAll]

lemma result (h : Spec f d S Q) : Q (f.on d).1 (f.on d).2 := by
  obtain ⟨cs, -, -, hout⟩ := h
  exact hout

end Spec

/-! ### Interruptions -/

/-- A computation on the disk `d` tries a change when it has brought the disk into the state
`d'`. -/
def Tries (f : DiskM α) (d d' : Disk) (c : Change) : Prop :=
  ∃ cs cs', (f.on d).2.tried = (cs ++ c :: cs').reverse ++ d.tried ∧ d' = d.afterAll cs

lemma Tries.workDir {f : DiskM α} {d d' : Disk} {c : Change} (h : f.Tries d d' c) :
    d'.workDir = d.workDir := by
  obtain ⟨cs, -, -, rfl⟩ := h
  exact Disk.workDir_afterAll d cs

/-- The trees that stay behind when a computation is cut off: in front of one of its changes, in
the midst of a write, or at its end. -/
def MayLeave (f : DiskM α) (d : Disk) (t : Tree) : Prop :=
  t = (f.on d).2.tree ∨ ∃ d' c, f.Tries d d' c ∧ ∃ cut : Fault, t = cut.apply c d'.tree

lemma Spec.tries {f : DiskM α} {d d' : Disk} {S : Disk → Change → Prop}
    {Q : Except StorageError α → Disk → Prop} (h : Spec f d S Q) {c : Change}
    (htries : f.Tries d d' c) : S d' c := by
  obtain ⟨cs, hcs, halong, -⟩ := h
  obtain ⟨before, behind, htried, rfl⟩ := htries
  rw [hcs, Disk.tried_afterAll, List.append_cancel_right_eq, List.reverse_inj] at htried
  exact (htried ▸ halong).here

lemma MayLeave.of_on_eq {f f' : DiskM α} {d : Disk} {t : Tree} (h : f.on d = f'.on d)
    (hleft : f'.MayLeave d t) : f.MayLeave d t := by
  unfold MayLeave Tries
  rw [h]
  exact hleft

/-- What the second of two computations may leave, both of them together may leave. -/
lemma Spec.mayLeave_bind {f : DiskM α} {g : α → DiskM β} {d d₁ : Disk} {a : α} {t : Tree}
    {S : Disk → Change → Prop} {Q : Except StorageError α → Disk → Prop} (h : Spec f d S Q)
    (hon : f.on d = (.ok a, d₁)) (hleft : (g a).MayLeave d₁ t) : (f >>= g).MayLeave d t := by
  obtain ⟨cs₀, hcs₀, -⟩ := h
  obtain rfl : d₁ = d.afterAll cs₀ := by rw [← hcs₀, hon]
  have hboth := on_bind_ok (g := g) hon
  rcases hleft with rfl | ⟨d', c, ⟨cs, cs', htried, rfl⟩, cut, rfl⟩
  · exact .inl (by rw [hboth])
  · refine .inr ⟨_, c, ⟨cs₀ ++ cs, cs', ?_, rfl⟩, cut, by rw [Disk.afterAll_append]⟩
    rw [hboth, htried, Disk.tried_afterAll]
    simp

/-- Nothing need have changed when a computation is cut off. -/
lemma Spec.mayLeave_tree {f : DiskM α} {d : Disk} {S : Disk → Change → Prop}
    {Q : Except StorageError α → Disk → Prop} (h : Spec f d S Q) : f.MayLeave d d.tree := by
  obtain ⟨cs, hcs, -, -⟩ := h
  cases cs with
  | nil => exact .inl (by rw [hcs, Disk.afterAll_nil])
  | cons c cs =>
    refine .inr ⟨d, c, ⟨[], cs, ?_, rfl⟩, .refused, rfl⟩
    rw [hcs, Disk.tried_afterAll, List.nil_append]

end DiskM

end SeriesStore
