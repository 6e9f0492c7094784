import Mathlib

/-!
# Patching a set of rows

Rows are keyed, and a patch deletes the rows at some keys and inserts others.
A structure that has its rows at sites, some of which hold no row, is changed
at part of its sites; the patch for the change names only keys of changed
sites, so it leaves every other row alone as long as no two sites share a key.
-/

/-- Keys whose rows go, and rows that come. -/
structure RowPatch (κ ν : Type) where
  removed : List κ
  added : List (κ × ν)
deriving DecidableEq

namespace RowPatch

variable {κ ν : Type}

def append (p q : RowPatch κ ν) : RowPatch κ ν :=
  ⟨p.removed ++ q.removed, p.added ++ q.added⟩

/-- The rows after the patch. -/
def apply [DecidableEq κ] (p : RowPatch κ ν) (rows : List (κ × ν)) :
    List (κ × ν) :=
  rows.filter (fun r => r.1 ∉ p.removed) ++ p.added

/-- The patch leads from rows at some sites to new rows and keeps some: the
old rows are the ones that go and the ones that are kept, and so are the
sites. -/
def Keeps (p : RowPatch κ ν) (old : List (κ × ν)) (sites : List κ)
    (new kept : List (κ × ν)) : Prop :=
  ∃ gone goneSites keptSites,
    old.Perm (gone ++ kept) ∧ new.Perm (p.added ++ kept) ∧
    sites.Perm (goneSites ++ keptSites) ∧
    (∀ r ∈ gone, r.1 ∈ p.removed) ∧ p.removed ⊆ goneSites ∧
    ∀ r ∈ kept, r.1 ∈ keptSites

/-- The patch leads from rows at some sites to new rows: the old rows are the
ones that go and the ones that stay, and so are the sites. -/
def Leads (p : RowPatch κ ν) (old : List (κ × ν)) (sites : List κ)
    (new : List (κ × ν)) : Prop :=
  ∃ gone kept goneSites keptSites,
    old.Perm (gone ++ kept) ∧ new.Perm (p.added ++ kept) ∧
    sites.Perm (goneSites ++ keptSites) ∧
    (∀ r ∈ gone, r.1 ∈ p.removed) ∧ p.removed ⊆ goneSites ∧
    ∀ r ∈ kept, r.1 ∈ keptSites

variable {p : RowPatch κ ν} {old new kept rows : List (κ × ν)} {sites : List κ}

theorem Keeps.leads (h : p.Keeps old sites new kept) :
    p.Leads old sites new := by
  obtain ⟨gone, goneSites, keptSites, hrest⟩ := h
  exact ⟨gone, kept, goneSites, keptSites, hrest⟩

/-- Nothing changes. -/
theorem keeps_refl (h : ∀ r ∈ rows, r.1 ∈ sites) :
    (⟨[], []⟩ : RowPatch κ ν).Keeps rows sites rows rows :=
  ⟨[], [], sites, .refl _, .refl _, .refl _, by simp, by simp, h⟩

theorem keeps_replace {removed : List κ} (hold : ∀ r ∈ old, r.1 ∈ removed)
    (hsites : removed ⊆ sites) :
    (⟨removed, new⟩ : RowPatch κ ν).Keeps old sites new [] :=
  ⟨old, sites, [], by simp, by simp, by simp, hold, hsites, by simp⟩

/-- Exchange of the two middle parts. -/
theorem perm_append_comm₄ {α : Type} (a b c d : List α) :
    ((a ++ b) ++ (c ++ d)).Perm ((a ++ c) ++ (b ++ d)) := by
  rw [List.append_assoc, List.append_assoc]
  refine List.Perm.append_left a ?_
  rw [← List.append_assoc, ← List.append_assoc]
  exact List.perm_append_comm.append_right d

/-- Two parts change side by side. -/
theorem Keeps.append {q : RowPatch κ ν} {old' new' kept' : List (κ × ν)}
    {sites' : List κ} (hp : p.Keeps old sites new kept)
    (hq : q.Keeps old' sites' new' kept') :
    (p.append q).Keeps (old ++ old') (sites ++ sites') (new ++ new')
      (kept ++ kept') := by
  obtain ⟨g, gs, ks, hold, hnew, hsites, hg, hgs, hk⟩ := hp
  obtain ⟨g', gs', ks', hold', hnew', hsites', hg', hgs', hk'⟩ := hq
  refine ⟨g ++ g', gs ++ gs', ks ++ ks',
    (hold.append hold').trans (perm_append_comm₄ _ _ _ _),
    (hnew.append hnew').trans (perm_append_comm₄ _ _ _ _),
    (hsites.append hsites').trans (perm_append_comm₄ _ _ _ _), ?_, ?_, ?_⟩
  · intro r hr
    rcases List.mem_append.mp hr with hr | hr
    · exact List.mem_append_left _ (hg r hr)
    · exact List.mem_append_right _ (hg' r hr)
  · intro x hx
    rcases List.mem_append.mp hx with hx | hx
    · exact List.mem_append_left _ (hgs hx)
    · exact List.mem_append_right _ (hgs' hx)
  · intro r hr
    rcases List.mem_append.mp hr with hr | hr
    · exact List.mem_append_left _ (hk r hr)
    · exact List.mem_append_right _ (hk' r hr)

/-- The patches of many parts, one after another. -/
def flatten (ps : List (RowPatch κ ν)) : RowPatch κ ν :=
  ⟨ps.flatMap RowPatch.removed, ps.flatMap RowPatch.added⟩

theorem keeps_flatten {α : Type} {l : List α} {ps : List (RowPatch κ ν)}
    {old new kept : α → List (κ × ν)} {sites : α → List κ}
    (h : List.Forall₂
      (fun x p => p.Keeps (old x) (sites x) (new x) (kept x)) l ps) :
    (flatten ps).Keeps (l.flatMap old) (l.flatMap sites) (l.flatMap new)
      (l.flatMap kept) := by
  induction h with
  | nil => exact keeps_refl (by simp)
  | cons hp _ ih =>
      have happend := hp.append ih
      simpa [flatten, append] using happend

/-- Rows in another order. -/
theorem Keeps.congr {old' new' : List (κ × ν)} {sites' : List κ}
    (h : p.Keeps old sites new kept) (hold : old'.Perm old)
    (hsites : sites'.Perm sites) (hnew : new'.Perm new) :
    p.Keeps old' sites' new' kept := by
  obtain ⟨g, gs, ks, ho, hn, hs, hrest⟩ := h
  exact ⟨g, gs, ks, hold.trans ho, hnew.trans hn, hsites.trans hs, hrest⟩

theorem Keeps.apply_perm_iff [DecidableEq κ] (h : p.Keeps old sites new kept)
    (hrows : rows.Perm old) :
    (p.apply rows).Perm new ↔ ∀ r ∈ kept, r.1 ∉ p.removed := by
  obtain ⟨gone, goneSites, keptSites, hold, hnew, -, hgone, -⟩ := h
  have hgone' : gone.filter (fun r => r.1 ∉ p.removed) = [] := by
    refine List.filter_eq_nil_iff.mpr ?_
    intro r hr
    simpa using hgone r hr
  have hleft : (rows.filter (fun r => r.1 ∉ p.removed)).Perm
      (kept.filter (fun r => r.1 ∉ p.removed)) := by
    refine ((hrows.trans hold).filter _).trans ?_
    rw [List.filter_append, hgone', List.nil_append]
  have happly : (p.apply rows).Perm
      (p.added ++ kept.filter (fun r => r.1 ∉ p.removed)) :=
    (hleft.append_right _).trans List.perm_append_comm
  constructor
  · intro hperm r hr
    have hlen := (happly.symm.trans (hperm.trans hnew)).length_eq
    simp only [List.length_append, Nat.add_left_cancel_iff] at hlen
    simpa using List.length_filter_eq_length_iff.mp hlen r hr
  · intro hfree
    have hall : kept.filter (fun r => r.1 ∉ p.removed) = kept := by
      refine List.filter_eq_self.mpr ?_
      intro r hr
      simpa using hfree r hr
    rw [hall] at happly
    exact happly.trans hnew.symm

theorem Leads.apply [DecidableEq κ] (h : p.Leads old sites new)
    (hsites : sites.Nodup) (hrows : rows.Perm old) :
    (p.apply rows).Perm new := by
  obtain ⟨gone, kept, goneSites, keptSites, hkeeps⟩ := h
  have hdisj : List.Disjoint goneSites keptSites :=
    List.disjoint_of_nodup_append ((hkeeps.2.2.1.nodup_iff).mp hsites)
  refine (Keeps.apply_perm_iff ⟨gone, goneSites, keptSites, hkeeps⟩
    hrows).mpr ?_
  obtain ⟨-, -, -, -, hremoved, hkept⟩ := hkeeps
  exact fun r hr hmem => hdisj (hremoved hmem) (hkept r hr)

end RowPatch
