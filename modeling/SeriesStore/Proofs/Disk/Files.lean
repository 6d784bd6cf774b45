import Mathlib
import SeriesStore.Disk.Basic

/-!
# Trees that differ in files

What stands at each place after a file is put into a tree or taken out of it, and what two trees
have in common that differ only in the files of one directory.
-/

namespace SeriesStore.Tree

/-! ### Looking up places -/

lemma lookup_filter_of_pos {t : Tree} {p : Place} {f : Place → Bool} (h : f p = true) :
    (t.filter fun e => f e.1).lookup p = t.lookup p := by
  induction t with
  | nil => rfl
  | cons e t ih =>
    by_cases hp : p = e.1
    · subst hp
      simp [h, List.lookup]
    · have hbeq : (p == e.1) = false := by simpa using hp
      by_cases hf : f e.1 = true <;> simp [hf, List.lookup, hbeq, ih]

lemma lookup_filter_of_neg {t : Tree} {p : Place} {f : Place → Bool} (h : f p = false) :
    (t.filter fun e => f e.1).lookup p = none := by
  induction t with
  | nil => rfl
  | cons e t ih =>
    by_cases hp : p = e.1
    · subst hp
      simpa [List.filter_cons, h] using ih
    · have hbeq : (p == e.1) = false := by simpa using hp
      by_cases hf : f e.1 = true <;> simp [hf, List.lookup, hbeq, ih]

lemma node?_erase_self {t : Tree} {p : Place} (h : p ≠ []) : (t.erase p).node? p = none := by
  rw [node?, if_neg h, lookup_erase_self]

lemma isPrefixOf_eq_false {p q : Place} (h : ¬p <+: q) : p.isPrefixOf q = false :=
  Bool.eq_false_iff.mpr fun hp => h (List.isPrefixOf_iff_prefix.mp hp)

lemma node?_eraseAll_outside {t : Tree} {p q : Place} (h : ¬p <+: q) :
    (t.eraseAll p).node? q = t.node? q := by
  have hf : (!p.isPrefixOf q) = true := by simp [isPrefixOf_eq_false h]
  rw [node?, node?, eraseAll, lookup_filter_of_pos (f := fun r => !p.isPrefixOf r) hf]

lemma node?_eraseAll_inside {t : Tree} {p q : Place} (hq : q ≠ []) (h : p <+: q) :
    (t.eraseAll p).node? q = none := by
  have hf : (!p.isPrefixOf q) = false := by simpa using h
  rw [node?, if_neg hq, eraseAll, lookup_filter_of_neg (f := fun r => !p.isPrefixOf r) hf]

lemma node?_clear_outside {t : Tree} {p q : Place} (h : ¬p <+: q) :
    (t.clear p).node? q = t.node? q := by
  have hf : (q == p || !p.isPrefixOf q) = true := by simp [isPrefixOf_eq_false h]
  rw [node?, node?, clear, lookup_filter_of_pos (f := fun r => r == p || !p.isPrefixOf r) hf]

lemma node?_clear_below {t : Tree} {p q : Place} (h : p <+: q) (hne : q ≠ p) :
    (t.clear p).node? q = none := by
  have hf : (q == p || !p.isPrefixOf q) = false := by simpa [hne] using h
  have hroot : q ≠ [] := fun hq => hne (by subst hq; exact (List.prefix_nil.mp h).symm)
  rw [node?, if_neg hroot, clear,
    lookup_filter_of_neg (f := fun r => r == p || !p.isPrefixOf r) hf]

/-! ### Names in a directory -/

lemma names_cons_of_ne {t : Tree} {p q : Place} {n : Node} (h : q ≠ p.dropLast) :
    names ((p, n) :: t) q = t.names q := by
  simp [names, Ne.symm h]

lemma names_erase_of_ne {t : Tree} {p q : Place} (h : q ≠ p.dropLast) :
    (t.erase p).names q = t.names q := by
  induction t with
  | nil => rfl
  | cons e t ih =>
    obtain ⟨r, n⟩ := e
    by_cases hr : r = p
    · subst hr
      rw [names_cons_of_ne h, ← ih]
      simp [erase]
    · have herase : erase ((r, n) :: t) p = (r, n) :: erase t p := by simp [erase, hr]
      rw [herase]
      simp only [names, List.filterMap_cons] at ih ⊢
      rw [ih]

lemma names_put_of_ne {t : Tree} {p q : Place} {n : Node} (h : q ≠ p.dropLast) :
    (t.put p n).names q = t.names q := by
  rw [put, names_cons_of_ne h, names_erase_of_ne h]

lemma node?_eq_none_iff {t : Tree} {p : Place} (h : p ≠ []) :
    t.node? p = none ↔ ∀ e ∈ t, e.1 ≠ p := by
  rw [node?, if_neg h, List.lookup_eq_none_iff]
  exact forall₂_congr fun e _ => by simp [ne_comm (a := p)]

lemma mem_names_iff {t : Tree} {p : Place} {name : String} :
    name ∈ t.names p ↔ t.node? (p ++ [name]) ≠ none := by
  have hkey (q : Place) : q.dropLast = p ∧ q.getLast? = some name ↔ q = p ++ [name] := by
    rcases List.eq_nil_or_concat q with rfl | ⟨parents, last, rfl⟩ <;> simp
  have hnode : t.node? (p ++ [name]) ≠ none ↔ ∃ e ∈ t, e.1 = p ++ [name] := by
    simp [node?_eq_none_iff]
  rw [hnode, names, List.mem_filterMap]
  refine exists_congr fun e => and_congr_right ?_
  intro _
  rw [← hkey]
  split_ifs with hparent <;> simp [hparent]

lemma names_put_of_none {t : Tree} {p : Place} {name : String} {n : Node}
    (h : t.node? (p ++ [name]) = none) : (t.put (p ++ [name]) n).names p = name :: t.names p := by
  have herase : t.erase (p ++ [name]) = t := List.filter_eq_self.mpr fun e he => by
    simpa using (node?_eq_none_iff (by simp)).mp h e he
  rw [put, herase]
  simp [names]

/-! ### Directories that are emptied -/

/-- What is in some directories is taken out of a tree, and maybe the directories themselves. -/
structure Emptied (qs : List Place) (t t' : Tree) : Prop where
  lost : ∀ r, t'.node? r = t.node? r ∨ t'.node? r = none
  others : ∀ r, (∀ q ∈ qs, ¬q <+: r) → t'.node? r = t.node? r
  below : ∀ q ∈ qs, ∀ r, q <+: r → r ≠ q → t'.node? r = none
  names : ∀ r, (t'.names r).Sublist (t.names r)

namespace Emptied

protected lemma nil (t : Tree) : Emptied [] t t where
  lost _ := .inl rfl
  others _ _ := rfl
  below _ hq := nomatch hq
  names _ := .refl _

protected lemma cons {q : Place} {qs : List Place} {t t' t'' : Tree} (h : Emptied [q] t t')
    (h' : Emptied qs t' t'') : Emptied (q :: qs) t t'' where
  lost r := (h'.lost r).elim (fun heq => heq ▸ h.lost r) .inr
  others r hr := (h'.others r fun q hq => hr q (List.mem_cons_of_mem _ hq)).trans
    (h.others r (by simpa using hr q List.mem_cons_self))
  below p hp r hpr hne := by
    rcases List.mem_cons.mp hp with rfl | hp
    · have hnone := h.below p List.mem_cons_self r hpr hne
      exact (h'.lost r).elim (fun heq => heq.trans hnone) fun heq => heq
    · exact h'.below p hp r hpr hne
  names r := (h'.names r).trans (h.names r)

lemma eraseAll (t : Tree) (q : Place) : Emptied [q] t (t.eraseAll q) where
  lost r := by
    by_cases h : q <+: r
    · by_cases hr : r = []
      · exact .inl (by simp [hr, node?])
      · exact .inr (node?_eraseAll_inside hr h)
    · exact .inl (node?_eraseAll_outside h)
  others r hr := node?_eraseAll_outside (hr q List.mem_cons_self)
  below p hp r hpr hne := by
    obtain rfl := List.mem_singleton.mp hp
    have hroot : r ≠ [] := fun hr => hne (by subst hr; exact (List.prefix_nil.mp hpr).symm)
    exact node?_eraseAll_inside hroot hpr
  names r := List.filter_sublist.filterMap _

lemma clear (t : Tree) (q : Place) : Emptied [q] t (t.clear q) where
  lost r := by
    by_cases h : q <+: r
    · by_cases hr : r = q
      · exact .inl (hr ▸ node?_clear_self t q)
      · exact .inr (node?_clear_below h hr)
    · exact .inl (node?_clear_outside h)
  others r hr := node?_clear_outside (hr q List.mem_cons_self)
  below p hp r hpr hne := by
    obtain rfl := List.mem_singleton.mp hp
    exact node?_clear_below hpr hne
  names r := List.filter_sublist.filterMap _

end Emptied

/-! ### Differences -/

/-- Two trees that differ at most in the files directly below a place. -/
structure AlikeUpTo (p : Place) (t t' : Tree) : Prop where
  dirs : ∀ q, t'.node? q = some .dir ↔ t.node? q = some .dir
  others : ∀ q, (∀ name, q ≠ p ++ [name]) → t'.node? q = t.node? q
  names : ∀ q, q ≠ p → t'.names q = t.names q

namespace AlikeUpTo

variable {p : Place} {t t' t'' : Tree}

protected lemma refl (p : Place) (t : Tree) : AlikeUpTo p t t where
  dirs _ := .rfl
  others _ _ := rfl
  names _ _ := rfl

protected lemma symm (h : AlikeUpTo p t t') : AlikeUpTo p t' t where
  dirs q := (h.dirs q).symm
  others q hq := (h.others q hq).symm
  names q hq := (h.names q hq).symm

protected lemma trans (h : AlikeUpTo p t t') (h' : AlikeUpTo p t' t'') : AlikeUpTo p t t'' where
  dirs q := (h'.dirs q).trans (h.dirs q)
  others q hq := (h'.others q hq).trans (h.others q hq)
  names q hq := (h'.names q hq).trans (h.names q hq)

lemma put_file {name : String} (h : t.node? (p ++ [name]) ≠ some .dir) (content : Bytes) :
    AlikeUpTo p t (t.put (p ++ [name]) (.file content)) where
  dirs q := by
    by_cases hq : q = p ++ [name]
    · subst hq
      simp [node?_put_self, h]
    · rw [node?_put_of_ne hq]
  others q hq := node?_put_of_ne (hq name)
  names q hq := names_put_of_ne (by simpa using hq)

lemma erase {name : String} (h : t.node? (p ++ [name]) ≠ some .dir) :
    AlikeUpTo p t (t.erase (p ++ [name])) where
  dirs q := by
    by_cases hq : q = p ++ [name]
    · subst hq
      simp [node?_erase_self, h]
    · rw [node?_erase_of_ne hq]
  others q hq := node?_erase_of_ne (hq name)
  names q hq := names_erase_of_ne (by simpa using hq)

lemma node?_ne_dir (h : AlikeUpTo p t t') {q : Place} (hq : t.node? q ≠ some .dir) :
    t'.node? q ≠ some .dir := fun hdir => hq ((h.dirs q).mp hdir)

end AlikeUpTo

/-! ### Files of given names -/

/-- Whether a place does not belong to a file directly below `p` without one of some names. -/
private def kept (t : Tree) (p : Place) (keep : List String) (q : Place) : Bool :=
  t.node? q == some .dir || q.dropLast != p || q.getLast?.all keep.contains

/-- The tree without the files directly below a place that do not have one of some names. -/
def tidy (t : Tree) (p : Place) (keep : List String) : Tree := t.filter fun e => t.kept p keep e.1

variable {t : Tree} {p q : Place} {keep : List String}

private lemma node?_tidy (h : t.kept p keep q = true) : (t.tidy p keep).node? q = t.node? q := by
  rw [node?, node?, tidy, lookup_filter_of_pos (f := t.kept p keep) h]

lemma node?_tidy_of_mem {name : String} (h : name ∈ keep) :
    (t.tidy p keep).node? (p ++ [name]) = t.node? (p ++ [name]) :=
  node?_tidy (by simp [kept, h])

private lemma kept_of_ne (h : ∀ name, q ≠ p ++ [name]) : t.kept p keep q = true := by
  rcases List.eq_nil_or_concat q with rfl | ⟨parents, name, rfl⟩
  · simp [kept, node?]
  · have hp : parents ≠ p := fun hp => h name (by simp [hp])
    simp [kept, hp]

lemma AlikeUpTo.tidy (t : Tree) (p : Place) (keep : List String) :
    AlikeUpTo p t (t.tidy p keep) where
  dirs q := by
    by_cases hq : t.kept p keep q = true
    · rw [node?_tidy hq]
    · have hroot : q ≠ [] := fun hroot => hq (kept_of_ne (by simp [hroot]))
      have hnode : (t.tidy p keep).node? q = none := by
        rw [node?, if_neg hroot, Tree.tidy,
          lookup_filter_of_neg (f := t.kept p keep) (by simpa using hq)]
      have hdir : t.node? q ≠ some .dir := fun hdir => hq (by simp [kept, hdir])
      simp [hnode, hdir]
  others q hq := node?_tidy (kept_of_ne hq)
  names q hq := by
    rw [Tree.names, Tree.names, Tree.tidy, List.filterMap_filter]
    refine List.filterMap_congr ?_
    intro e _
    by_cases hk : t.kept p keep e.1 = true
    · simp [hk]
    · have hparent : e.1.dropLast ≠ q := fun hparent => hk (by simp [kept, hparent, hq])
      simp [hk, hparent]

/-! ### Places that do not matter -/

/-- A property of trees that does not depend on what stands at some places. -/
def Ignores (I : Tree → Prop) (qs : List Place) : Prop :=
  ∀ t t' : Tree, (∀ r ∉ qs, t'.node? r = t.node? r) → I t → I t'

lemma Ignores.mono {I : Tree → Prop} {qs qs' : List Place} (h : Ignores I qs') (hqs : qs ⊆ qs') :
    Ignores I qs := fun t t' ht => h t t' fun r hr => ht r fun hmem => hr (hqs hmem)

lemma ignores_node? {qs : List Place} {r : Place} (h : r ∉ qs) (n : Option Node) :
    Ignores (fun t => t.node? r = n) qs := fun _ _ ht hr => (ht r h).trans hr

end SeriesStore.Tree

namespace SeriesStore

/-! ### Altered places -/

/-- Whether a change may alter what stands at a place. -/
def Change.Alters (c : Change) (q : Place) : Prop :=
  match c with
  | write p _ | remove p | makeDir p => q = p
  | rename p p' => q = p ∨ q = p'
  | removeAll p | clear p => p <+: q

/-- A change leaves alone what it does not alter. -/
theorem Change.node?_apply {c : Change} {q : Place} (h : ¬c.Alters q) (t : Tree) :
    (c.apply t).node? q = t.node? q := by
  cases c with
  | write p content => exact Tree.node?_put_of_ne h
  | rename p p' =>
    obtain ⟨hp, hp'⟩ := not_or.mp h
    simp only [apply]
    split
    · rw [Tree.node?_put_of_ne hp', Tree.node?_erase_of_ne hp]
    · rfl
  | remove p => exact Tree.node?_erase_of_ne h
  | removeAll p => exact Tree.node?_eraseAll_outside h
  | clear p => exact Tree.node?_clear_outside h
  | makeDir p => exact Tree.node?_put_of_ne h

end SeriesStore
